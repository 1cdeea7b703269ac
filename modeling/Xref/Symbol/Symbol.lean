import Xref.Symbol.WordHash
import Xref.Text.Span

/-!
# Symbols

A symbol is something that names refer to. Its identity is the hash of its path, so the same
declaration has the same identity in every unit that sees it.
-/

namespace Xref

/-- The name of a module. -/
structure ModuleId where
  name : String
  deriving DecidableEq, Repr, Inhabited

namespace ModuleId

/-- The module without a name, at the root of a project. -/
def current : ModuleId := ⟨"."⟩

/-- Whether this is the module without a name. -/
def isCurrent (m : ModuleId) : Bool := m == current

/-- The owner of what the language itself provides. -/
def language : ModuleId := ⟨"lang"⟩

end ModuleId

/-- The place of something nameable among all things nameable. -/
inductive SymbolPath where
  /-- A declaration at the top of a module. -/
  | item (module : ModuleId) (name : String)
  /-- A field of the record with the given path. -/
  | field (owner : SymbolPath) (name : String)
  | parameter (module : ModuleId) (unit function name : String)
  /-- The declaration of a local variable with the given number among those of its name. -/
  | localVar (module : ModuleId) (unit function name : String) (number : Nat)
  /-- A record without a name, by the byte offset at which it is written. -/
  | record (module : ModuleId) (unit : String) (offset : Nat)
  /-- What all records with the same fields have in common. -/
  | shape (text : String)
  | module (name : String)
  | builtin (name : String)
  deriving DecidableEq, Repr

/-- The written form of a path. -/
def SymbolPath.text : SymbolPath → String
  | item m name => m.name ++ "::" ++ name
  | field owner name => owner.text ++ "::" ++ name
  | parameter m u f name => m.name ++ "::" ++ u ++ "::" ++ f ++ "::" ++ name
  | localVar m u f name number =>
    m.name ++ "::" ++ u ++ "::" ++ f ++ "::" ++ name ++ "#" ++ toString number
  | record m u offset => m.name ++ "::" ++ u ++ "::<record@" ++ toString offset ++ ">"
  | shape text => "<" ++ text ++ ">"
  | module name => "module::" ++ name
  | builtin name => ModuleId.language.name ++ "::" ++ name

/-- The identity of a symbol. -/
structure SymbolId where
  raw : UInt64
  deriving DecidableEq, Repr, Inhabited

namespace SymbolId

/-- The identity that belongs to a written path. -/
def ofText (path : String) : SymbolId := ⟨WordHash.ofText path⟩

/-- The identity that belongs to a path. -/
def ofPath (path : SymbolPath) : SymbolId := ofText path.text

/-- The identity as sixteen hexadecimal digits. -/
def hex (id : SymbolId) : String :=
  let digits := Nat.toDigits 16 id.raw.toNat
  String.ofList (List.replicate (16 - digits.length) '0' ++ digits)

end SymbolId

/-- What kind of thing a symbol is. -/
inductive SymbolKind where
  | module
  | function
  | parameter
  | var
  | type
  | field
  /-- Provided by the language; it has no declaration. -/
  | builtin
  deriving DecidableEq, Repr, Inhabited

/-- The word for a kind of symbol. -/
def SymbolKind.label : SymbolKind → String
  | module => "module"
  | function => "function"
  | parameter => "parameter"
  | var => "variable"
  | type => "type"
  | field => "field"
  | builtin => "builtin"

/-- Every kind of symbol. -/
def SymbolKind.all : List SymbolKind :=
  [module, function, parameter, var, type, field, builtin]

/-- Where a symbol is declared: the unit of its module, and the span of the name. -/
structure Declaration where
  unit : String
  span : Span
  deriving DecidableEq, Repr

/-- Something that names refer to. -/
structure Symbol where
  id : SymbolId
  name : String
  kind : SymbolKind
  /-- The module that declares it. -/
  owner : ModuleId
  declaration : Option Declaration
  /-- The identity of its shape, for a record without a name. -/
  shape : Option SymbolId
  /-- A line of source that describes it. -/
  detail : Option String
  deriving DecidableEq, Repr, Inhabited

namespace Symbol

/-- Whether two symbols are the same, or have the same shape. -/
def isEquivalent (s t : Symbol) : Bool :=
  s.id == t.id || match s.shape, t.shape with
    | some a, some b => a == b
    | _, _ => false

/-- Whether the name at `span` in a unit of a module is the declaration of the symbol. -/
def isDeclaredAt (s : Symbol) (module : ModuleId) (unit : String) (span : Span) : Bool :=
  s.declaration.any fun d => s.owner == module && d.unit == unit && d.span == span

/-- One line about a symbol: its identity, owner and kind. -/
def summary (s : Symbol) : String :=
  s!"SymbolId(0x{s.id.hex}) ModuleId({s.owner.name}) {s.kind.label} {s.owner.name}"

end Symbol

end Xref
