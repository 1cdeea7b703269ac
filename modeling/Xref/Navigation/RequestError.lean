import Xref.Binding.Compile

/-!
# Why a request fails

Requests fail for reasons of their own, or because a document or a unit fails.
-/

namespace Xref

/-- Why a symbol cannot be renamed. -/
inductive RenameRefusal where
  /-- The new name is no name. -/
  | invalidName (name : String)
  /-- The token under the cursor is no identifier. -/
  | noIdentifier (token : String)
  /-- The token under the cursor names no symbol. -/
  | noSymbol (token : String)
  /-- The symbol is declared nowhere in the source. -/
  | undeclared (name : String) (kind : SymbolKind)
  deriving DecidableEq, Repr

/-- The text of a refusal. -/
def RenameRefusal.message : RenameRefusal → String
  | invalidName name => s!"`{name}` is not a valid identifier"
  | noIdentifier token => s!"`{token}` is not an identifier"
  | noSymbol token => s!"`{token}` does not name a symbol"
  | undeclared name kind => s!"`{name}` is a {kind.label} without a source declaration"

/-- What a request looked for and did not find. -/
inductive Lookup where
  | path (path : FilePath)
  | uri (uri : Uri)
  deriving DecidableEq, Repr

/-- The text of what was looked for. -/
def Lookup.text : Lookup → String
  | path p => p.text
  | uri u => u.text

/-- Why a request fails. -/
inductive RequestError where
  | compilationFailed (unit : UnitId) (cause : CompileError)
  /-- The token under the cursor belongs to no node that mentions a symbol. -/
  | unresolvedSymbol (token : String)
  /-- No token is at the position. -/
  | positionNotFound (position : Position)
  | invalidRenameTarget (cause : RenameRefusal)
  | lockUnavailable (path : FilePath) (timeout : Duration)
  | documentNotFound (target : Lookup)
  /-- Two ranges of one file that a rename would replace overlap. -/
  | editConflict (uri : Uri) (first second : Range)
  | document (cause : DocumentError)
  deriving DecidableEq, Repr

/-- The written form of a position in messages about requests. -/
def Position.requestText (p : Position) : String :=
  "Position \x7b line: " ++ toString p.line ++ ", character: " ++ toString p.character ++ " \x7d"

/-- The written form of a range in messages about requests. -/
def Range.requestText (r : Range) : String :=
  "Range \x7b start: " ++ r.start.requestText ++ ", end: " ++ r.stop.requestText ++ " \x7d"

namespace RequestError

/-- The text of a request error. -/
def message : RequestError → String
  | compilationFailed unit cause =>
    s!"compilation of `{unit.unit}` in module `{unit.module.name}` failed: {cause.message}"
  | unresolvedSymbol token => s!"no symbol found at `{token}`"
  | positionNotFound p => s!"no token at {p.line}:{p.character}"
  | invalidRenameTarget cause => s!"cannot rename: {cause.message}"
  | lockUnavailable path timeout => s!"document {path.text} is locked (waited {timeout.text})"
  | documentNotFound target => s!"document not found: {target.text}"
  | editConflict uri first second =>
    s!"overlapping edits in {uri.text}: {first.requestText} and {second.requestText}"
  | document cause => cause.message

/-- Whether the same request may succeed later. -/
def isTransient : RequestError → Bool
  | lockUnavailable .. => true
  | _ => false

/-- The request error that a document error becomes. -/
def ofDocument : DocumentError → RequestError
  | .notFound path => documentNotFound (.path path)
  | .invalidUri uri => documentNotFound (.uri uri)
  | .lockTimeout path timeout => lockUnavailable path timeout
  | e => document e

end RequestError

end Xref
