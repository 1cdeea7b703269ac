import Xref.Binding.Builtins
import Xref.Syntax.Tree

/-!
# Declarations of a module

A module declares functions, types and variables at the top of its units. A name that is declared
more than once means its first declaration, in the order of the units and of the source.
-/

namespace Xref.Binding

/-! ## Types by name -/

/-- A type as it is written by name, `T` or `lib:T`. -/
structure TypeName where
  qualifier : Option String
  name : String
  deriving DecidableEq, Repr

namespace TypeName

/-- The written form of a type name. -/
def text (t : TypeName) : String :=
  match t.qualifier with
  | some q => q ++ ":" ++ t.name
  | none => t.name

/-- The type name that a node writes, if it is one. -/
def ofNode? (n : Node) : Option TypeName :=
  if n.kind = .typeReference then
    match n.childTokens.filter (·.kind.isIdentifier) with
    | [name] => some ⟨none, name.text⟩
    | [qualifier, name] => some ⟨some qualifier.text, name.text⟩
    | _ => none
  else none

/-- The first type name right below a node. -/
def below? (n : Node) : Option TypeName := n.children.findSome? ofNode?

end TypeName

/-! ## Items and their fields -/

/-- A field of a declared record type. -/
structure Field where
  /-- The node of the field in the tree that declares it. -/
  node : NodeId
  /-- The token that names the field in that tree. -/
  name : TokenId
  symbol : Symbol
  /-- The type of the field, if it is written by name. -/
  type : Option TypeName
  deriving Repr

/-- A declaration at the top of a unit. -/
structure Item where
  /-- The token that names the item in the tree that declares it. -/
  name : TokenId
  symbol : Symbol
  /-- The type of a variable, the result type of a function, or what a type stands for if it is no
  record; only if it is written by name. -/
  type : Option TypeName
  /-- The fields of a record type. -/
  fields : List Field
  deriving Repr

/-- Whether a slot holds a token with the given text. -/
def holds (text : String) (slot : Child) : Bool := slot.token?.any fun t => t.text == text

/-- The kind of symbol that a node at the top of a unit declares. -/
def declaredKind? : NodeKind → Option SymbolKind
  | .functionDefinition => some .function
  | .typeDefinition => some .type
  | .moduleVariableDeclaration => some .var
  | _ => none

/-- The symbol of a declaration whose name is the token `name`. -/
def declaredSymbol (path : SymbolPath) (name : Token) (kind : SymbolKind) (module : ModuleId)
    (unit : String) (detail : String) : Symbol :=
  { id := .ofPath path, name := name.text, kind, owner := module
    declaration := some ⟨unit, name.span⟩, shape := none, detail := some detail }

/-- The field that a node declares in a record type. A field without a name declares nothing. -/
def fieldOf? (module : ModuleId) (unit : String) (record : SymbolPath) (n : Node) :
    Option Field :=
  (n.identifierAt? 0).map fun name =>
    let type := TypeName.below? n
    let detail := match type with
      | some t => name.text ++ ": " ++ t.text
      | none => n.header fun slot => !holds ";" slot
    let symbol := declaredSymbol (.field record name.text) name .field module unit detail
    ⟨n.id, name.id, symbol, type⟩

/-- The line that describes a declaration. -/
def itemDetail (n : Node) (name : Token) : String :=
  match n.kind with
  | .functionDefinition => n.header fun slot => !slot.node?.any (·.kind == .functionBody)
  | .typeDefinition => "type " ++ name.text
  | _ => n.header fun slot => !holds "=" slot && !holds ";" slot

/-- The type by name that a declaration gives. -/
def itemType? (n : Node) : Option TypeName :=
  match n.kind with
  | .functionDefinition =>
    (n.children.find? fun child => child.kind == .returnTypeDescriptor).bind TypeName.below?
  | .typeDefinition => n.children.head?.bind TypeName.ofNode?
  | _ => TypeName.below? n

/-- The fields that a declaration gives: those of a type whose body is a record. -/
def itemFields (module : ModuleId) (unit : String) (path : SymbolPath) (n : Node) : List Field :=
  match n.kind, n.children.head? with
  | .typeDefinition, some body =>
    if body.kind = .recordTypeDescriptor then
      body.children.filterMap (fieldOf? module unit path)
    else []
  | _, _ => []

/-- What a node at the top of a unit declares. A declaration without a name declares nothing. -/
def itemOf? (module : ModuleId) (unit : String) (n : Node) : Option Item :=
  match declaredKind? n.kind, n.identifierAt? 1 with
  | some kind, some name =>
    let path := SymbolPath.item module name.text
    some
      { name := name.id
        symbol := declaredSymbol path name kind module unit (itemDetail n name)
        type := itemType? n
        fields := itemFields module unit path n }
  | _, _ => none

/-- The modules that a unit imports, in the order of the source. -/
def importsOf (t : Tree) : List String :=
  (t.root.children.filter fun n => n.kind == .importDeclaration).filterMap fun n =>
    (n.identifierAt? 1).map Token.text

/-! ## Scopes of modules -/

/-- The declarations of a module, in order. -/
structure ModuleScope where
  module : ModuleId
  items : List Item
  deriving Repr

namespace ModuleScope

/-- A module that declares nothing. -/
def empty (module : ModuleId) : ModuleScope := ⟨module, []⟩

/-- Adds the declarations of a unit. -/
def addUnit (s : ModuleScope) (unit : String) (t : Tree) : ModuleScope :=
  { s with items := s.items ++ t.root.children.filterMap (itemOf? s.module unit) }

/-- The first declaration of a name. -/
def get? (s : ModuleScope) (name : String) : Option Item :=
  s.items.find? fun item => item.symbol.name == name

/-- The first declaration of a name, if it is a type. -/
def type? (s : ModuleScope) (name : String) : Option Item :=
  (s.get? name).filter fun item => item.symbol.kind == .type

end ModuleScope

end Xref.Binding
