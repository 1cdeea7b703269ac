import Xref.Binding.BoundUnit
import Xref.Grammar.Modules
import Xref.Project.Documents
import Xref.Project.Layout

/-!
# Compiling units

To compile a unit is to parse it and to bind its names. The scope of its own module takes the other
units from the documents, and so do the scopes of the modules that it imports; reading them takes no
lock. A compiler that answers from a table stands beside the one that binds.
-/

namespace Xref

/-- Why a unit cannot be compiled. -/
inductive CompileError where
  /-- The source holds a character that starts no token. -/
  | unexpectedCharacter (text : String) (span : Span)
  /-- A unit that is needed cannot be read. -/
  | unreadable (unit : UnitId) (cause : DocumentError)
  /-- The lexemes of a unit make no tree. -/
  | unbuildable (cause : BuildError)
  /-- A compiler refuses the unit for a reason of its own. -/
  | refused (message : String) (span : Option Span)
  deriving DecidableEq, Repr

namespace CompileError

/-- The text of a compile error. -/
def message : CompileError → String
  | unexpectedCharacter text _ => s!"unexpected character `{text}`"
  | unreadable unit cause =>
    s!"cannot read unit `{unit.unit}` of module `{unit.module.name}`: {cause.message}"
  | unbuildable cause => cause.message
  | refused message _ => message

/-- The place in the source that an error is about. -/
def span? : CompileError → Option Span
  | unexpectedCharacter _ span => some span
  | refused _ span => span
  | _ => none

end CompileError

/-- Turns a unit of a module, given its source, into a bound unit. -/
structure Compiler where
  compile : Documents → ModuleGraph → UnitId → String → Except CompileError BoundUnit
  /-- Whether the units that it is asked for are logged. -/
  isLogged : Bool

namespace Binding

/-- The tree of a source text. -/
def parseSource (source : String) : Except CompileError Tree :=
  (parse source).mapError CompileError.unbuildable

/-- The tree of a unit as the documents have it. -/
def readTree (l : Layout) (d : Documents) (u : UnitId) : Except CompileError Tree :=
  ((d.content (l.pathOf u)).mapError (CompileError.unreadable u)).bind parseSource

/-- Adds units of a module to its scope, in order. -/
def addUnits (read : String → Except CompileError Tree) (s : ModuleScope) :
    List String → Except CompileError ModuleScope
  | [] => .ok s
  | unit :: rest => (read unit).bind fun t => addUnits read (s.addUnit unit t) rest

/-- The scope of a module as the documents have it. -/
def moduleScope (l : Layout) (d : Documents) (g : ModuleGraph) (module : ModuleId) :
    Except CompileError ModuleScope :=
  addUnits (fun unit => readTree l d ⟨module, unit⟩) (.empty module) (g.unitsOf module)

/-- The scope of a module, with the given tree for one of its units. A unit that the graph does not
list comes last. -/
def moduleScopeWith (l : Layout) (d : Documents) (g : ModuleGraph) (u : UnitId) (t : Tree) :
    Except CompileError ModuleScope :=
  let units := g.unitsOf u.module
  let listed := if u.unit ∈ units then units else units ++ [u.unit]
  addUnits (fun unit => if unit = u.unit then .ok t else readTree l d ⟨u.module, unit⟩)
    (.empty u.module) listed

/-- The modules of the graph that a unit imports, other than its own. -/
def importedModules (g : ModuleGraph) (module : ModuleId) (t : Tree) : List ModuleId :=
  ((importsOf t).map ModuleId.mk).filter fun id => g.contains id && id != module

/-- The scopes of several modules. -/
def moduleScopes (l : Layout) (d : Documents) (g : ModuleGraph) :
    List ModuleId → Except CompileError (List ModuleScope)
  | [] => .ok []
  | id :: rest =>
    (moduleScope l d g id).bind fun scope => (moduleScopes l d g rest).map (scope :: ·)

/-- The first token that no rule of the language allows. -/
def unknownToken? (t : Tree) : Option Token := t.tokens.find? fun token => token.kind == .unknown

/-- Parses and binds a unit. -/
def compile (l : Layout) (d : Documents) (g : ModuleGraph) (u : UnitId) (source : String) :
    Except CompileError BoundUnit :=
  (parseSource source).bind fun t =>
    match unknownToken? t with
    | some token => .error (.unexpectedCharacter token.text token.span)
    | none =>
      (moduleScopeWith l d g u t).bind fun own =>
        (moduleScopes l d g (importedModules g u.module t)).map fun imports =>
          .ofList u.module u.unit t (bindTree ⟨u.module, u.unit, ⟨own, imports⟩⟩ t)

/-- The compiler that parses and binds. -/
def compiler (l : Layout) : Compiler := ⟨compile l, true⟩

end Binding

/-! ## Compiling from a table -/

/-- What a table has for a unit: an error, or the name that the unit is given and what its nodes
mention. -/
inductive TableEntry where
  | error (message : String) (span : Option Span)
  | unit (as : UnitId) (mentions : List (NodeId × Binding.Mention))

/-- The compiler that parses a unit and takes from a table what its nodes mention. In a unit that
the table does not have they mention nothing. -/
def Compiler.ofTable (table : UnitId → Option TableEntry) : Compiler where
  compile _ _ u source :=
    match table u with
    | some (.error message span) => .error (.refused message span)
    | some (.unit as mentions) =>
      (Binding.parseSource source).map fun t => .ofList as.module as.unit t mentions
    | none => (Binding.parseSource source).map fun t => .ofList u.module u.unit t []
  isLogged := false

end Xref
