import Xref.Project.Documents
import Xref.Text.Quoted

/-!
# Sessions with documents

A session is a history of operations on documents in which locks are kept under names. Keeping a
lock under a name that is in use gives the earlier lock back.
-/

namespace Xref

/-- Documents and the locks that are kept, by name. -/
structure Session where
  documents : Documents
  guards : List (String × FilePath)
  deriving Repr

/-- One operation of a session. -/
inductive SessionStep where
  | put (path : FilePath) (text : String)
  | erase (path : FilePath)
  | update (path : FilePath) (text : String) (timeout : Duration)
  | lock (path : FilePath) (name : String) (timeout : Duration)
  | unlock (name : String)
  | edit (edit : WorkspaceEdit) (timeout : Duration)
  deriving Repr

/-- What comes of an operation. -/
inductive SessionReply where
  /-- The number of documents. -/
  | size (n : Nat)
  /-- The text that was there. -/
  | removed (text : Option String)
  | updated
  | locked (path : FilePath)
  /-- Whether there was a lock of that name. -/
  | unlocked (found : Bool)
  /-- The number of files in the edit. -/
  | edited (files : Nat)
  | failed (e : DocumentError)
  deriving DecidableEq, Repr

namespace Session

/-- No documents and no locks. -/
def empty : Session := ⟨.empty, []⟩

/-- Gives back the lock that is kept under a name. -/
def dropGuard (s : Session) (name : String) : Session :=
  match s.guards.lookup name with
  | none => s
  | some path => ⟨s.documents.unlock path, s.guards.filter fun guard_ => guard_.1 != name⟩

/-- Carries out one operation. -/
def step (s : Session) : SessionStep → SessionReply × Session
  | .put path text =>
    let d := s.documents.put path text
    (.size d.size, { s with documents := d })
  | .erase path =>
    (.removed (s.documents.get? path), { s with documents := s.documents.erase path })
  | .update path text timeout =>
    match s.documents.update path text timeout with
    | (.ok (), d) => (.updated, { s with documents := d })
    | (.error e, d) => (.failed e, { s with documents := d })
  | .lock path name timeout =>
    match s.documents.lock path timeout with
    | (.ok (), d) =>
      let kept := { s with documents := d }.dropGuard name
      (.locked path, { kept with guards := (name, path) :: kept.guards })
    | (.error e, d) => (.failed e, { s with documents := d })
  | .unlock name => (.unlocked (s.guards.lookup name).isSome, s.dropGuard name)
  | .edit edit timeout =>
    match s.documents.edit edit timeout with
    | (.ok n, d) => (.edited n, { s with documents := d })
    | (.error e, d) => (.failed e, { s with documents := d })

/-- The session after several operations. -/
def run (s : Session) (steps : List SessionStep) : Session :=
  steps.foldl (fun s step_ => (s.step step_).2) s

end Session

/-- One line about a lock that is kept. -/
def FilePath.guardSummary (p : FilePath) : String :=
  "DocumentLock \x7b path: " ++ Text.quoteBytes p.bytes ++ " \x7d"

end Xref
