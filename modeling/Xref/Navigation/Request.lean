import Xref.Navigation.RequestError

/-!
# Requests

A request reads documents, each under its lock, and has units compiled. It may fail, but the locks
and the log of compiled units are what they are either way. Every lock that a request takes it gives
back.
-/

namespace Xref

/-- What requests act on: the documents, and the units that a logging compiler was asked for, the
latest last. -/
structure Store where
  documents : Documents
  log : List UnitId
  deriving Repr

/-- The settings of an analysis. -/
structure Config where
  layout : Layout
  /-- How long to wait for the lock on a document. -/
  lockTimeout : Duration
  /-- The hover text where there is nothing to describe. -/
  hoverDefault : String
  deriving DecidableEq, Repr

/-- The settings that come with a layout. -/
def Config.ofLayout (layout : Layout) : Config := ⟨layout, ⟨5000⟩, ""⟩

/-- What requests are served with: settings, the modules of the project, and a compiler. -/
structure Analysis where
  config : Config
  graph : ModuleGraph
  compiler : Compiler

/-- An action on the store that may fail. -/
abbrev Request (α : Type) := ExceptT RequestError (StateM Store) α

namespace Request

/-- Fails. -/
def fail {α : Type} (e : RequestError) : Request α := throw e

/-- The request whose answer is known. -/
def ofExcept {α : Type} : Except RequestError α → Request α
  | .ok a => pure a
  | .error e => throw e

/-- Runs a request. -/
def exec {α : Type} (r : Request α) (s : Store) : Except RequestError α × Store := r.run s

end Request

namespace Analysis

/-- Hands the text of a document to an action, under the lock of the document. -/
def withContent {α : Type} (a : Analysis) (path : FilePath) (act : String → Request α) :
    Request α := fun s =>
  match s.documents.lock path a.config.lockTimeout with
  | (.error e, d) => (.error (.ofDocument e), { s with documents := d })
  | (.ok (), d) =>
    let done : Except RequestError α × Store :=
      match d.content path with
      | .error e => (.error (.ofDocument e), { s with documents := d })
      | .ok text => act text { s with documents := d }
    (done.1, { done.2 with documents := done.2.documents.unlock path })

/-- Has a unit compiled. -/
def compileUnit (a : Analysis) (unit : UnitId) (source : String) : Request BoundUnit := fun s =>
  let log := if a.compiler.isLogged then s.log ++ [unit] else s.log
  match a.compiler.compile s.documents a.graph unit source with
  | .ok u => (.ok u, { s with log })
  | .error e => (.error (.compilationFailed unit e), { s with log })

/-- Compiles the unit at a path and hands it to an action, under the lock of the document. -/
def withUnit {α : Type} (a : Analysis) (path : FilePath) (unit : UnitId)
    (act : BoundUnit → Request α) : Request α :=
  a.withContent path fun source => a.compileUnit unit source >>= act

/-- The path and the unit that a URI stands for. -/
def unitOfUri (a : Analysis) (uri : Uri) : Except RequestError (FilePath × UnitId) :=
  match uri.toFile? with
  | none => .error (.documentNotFound (.uri uri))
  | some path =>
    match a.config.layout.unitAt? path with
    | none => .error (.documentNotFound (.path path))
    | some unit => .ok (path, unit)

/-- The URI of a unit. -/
def uriOfUnit (a : Analysis) (unit : UnitId) : Except RequestError Uri :=
  match a.config.layout.uriOf? unit with
  | some uri => .ok uri
  | none => .error (.documentNotFound (.path (a.config.layout.pathOf unit)))

end Analysis

end Xref
