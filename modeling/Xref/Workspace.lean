import Xref.Navigation.Analysis
import Xref.Project.Session

/-!
# Workspaces

A workspace is made of files, each a unit of a module. Modules come in the order in which files
mention them first, and a module imports what its units import, as far as there are files for it.
-/

namespace Xref

/-- A file of a workspace. -/
structure SourceFile where
  unit : UnitId
  text : String
  deriving DecidableEq, Repr

/-- A project with its documents, and the locks that are kept on them. -/
structure Workspace where
  layout : Layout
  graph : ModuleGraph
  session : Session
  log : List UnitId

namespace Workspace

/-- The layout of every workspace. -/
def usualLayout : Layout := .ofRoot (.ofText "/workspace")

/-- The imports that a source text declares; none if it has no tree. -/
def importsOfSource (text : String) : List String :=
  match parse text with
  | .ok t => Binding.importsOf t
  | .error _ => []

/-- A module with one more file. Imports of modules without files do not count. -/
def addFile (files : List SourceFile) (file : SourceFile) (m : Module) : Module :=
  let known := (importsOfSource file.text).filter fun name =>
    files.any fun other => other.unit.module.name == name
  known.foldl (fun m name => m.addImport ⟨name⟩) (m.addUnit file.unit.unit)

/-- Adds a file to its module, which is put at the end if it is not there. -/
def addToModules (files : List SourceFile) (file : SourceFile) : List Module → List Module
  | [] => [addFile files file (.empty file.unit.module)]
  | m :: rest =>
    if m.id = file.unit.module then addFile files file m :: rest
    else m :: addToModules files file rest

/-- The module graph of several files. -/
def graphOf (files : List SourceFile) : ModuleGraph :=
  .ofList (files.foldl (fun modules file => addToModules files file modules) [])

/-- The documents of several files. Of two files at one path the later one counts. -/
def documentsOf (layout : Layout) (files : List SourceFile) : Documents :=
  files.foldl (fun d file => d.put (layout.pathOf file.unit) file.text) .empty

/-- The workspace of several files. -/
def ofFiles (files : List SourceFile) : Workspace where
  layout := usualLayout
  graph := graphOf files
  session := ⟨documentsOf usualLayout files, []⟩
  log := []

/-- The compiler of a workspace. -/
def compiler (w : Workspace) : Compiler := Binding.compiler w.layout

/-- The path of a unit. -/
def pathOf (w : Workspace) (u : UnitId) : FilePath := w.layout.pathOf u

/-- The current text of a unit. -/
def text? (w : Workspace) (u : UnitId) : Option String := w.session.documents.get? (w.pathOf u)

/-- Serves a request on the documents of the workspace. -/
def serve {α : Type} (w : Workspace) (r : Request α) : Except RequestError α × Workspace :=
  let done := r.exec ⟨w.session.documents, w.log⟩
  let session := { w.session with documents := done.2.documents }
  (done.1, { w with session, log := done.2.log })

/-- Has the current text of a unit compiled. -/
def compile (w : Workspace) (a : Analysis) (u : UnitId) (source : String) :
    Except CompileError BoundUnit × Workspace :=
  (a.compiler.compile w.session.documents a.graph u source,
    { w with log := if a.compiler.isLogged then w.log ++ [u] else w.log })

/-- One line about the compiler of a workspace. -/
def compilerSummary (w : Workspace) : String :=
  "FixtureCompiler \x7b layout: " ++ w.layout.summary ++ ", compiled: " ++
    toString w.log.length ++ ", .. \x7d"

/-! ## Looking at texts -/

/-- The byte offsets at which `needle` starts in a text, without overlaps. The text starts at
`offset`, and `skip` more of its characters belong to an earlier find. -/
def findAll (needle : List Char) (offset skip : Nat) : List Char → List Nat
  | [] => if skip = 0 ∧ needle = [] then [offset] else []
  | c :: cs =>
    let found := skip = 0 ∧ needle.isPrefixOf (c :: cs)
    let rest := findAll needle (offset + c.utf8Size)
      (if found then needle.length - 1 else skip - 1) cs
    if found then offset :: rest else rest

/-- The position of an occurrence of `needle` in a unit, counted from zero. -/
def positionOf? (w : Workspace) (u : UnitId) (needle : String) (nth : Nat) : Option Position :=
  (w.text? u).bind fun text =>
    (findAll needle.toList 0 0 text.toList)[nth]?.map (LineIndex.ofText text).position

/-- The current text of a location. -/
def textAt? (w : Workspace) (l : Location) : Option String :=
  l.uri.toFile?.bind fun path =>
    (w.session.documents.get? path).bind fun text =>
      let index := LineIndex.ofText text
      match index.offset? l.range.start, index.offset? l.range.stop with
      | some start, some stop => (Text.slice? text.toList start stop).map String.ofList
      | _, _ => none

end Workspace

end Xref
