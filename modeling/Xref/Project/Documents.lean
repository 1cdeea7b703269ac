import Xref.Project.Locks
import Xref.Project.Uri
import Xref.Text.ChangeSet
import Xref.Text.LineIndex

/-!
# Documents

The documents of a project are texts at file paths, with a lock for every file. A workspace edit
changes one file after the other in the order of their URIs, each under its lock. A file is changed
completely or not at all; the first file that cannot be changed ends the edit, and files before it
stay changed.
-/

namespace Xref

/-- Replaces the text of a range of positions. -/
structure TextEdit where
  range : Range
  newText : String
  deriving DecidableEq, Repr

/-- Replacements for several files, if any files are listed at all. -/
structure WorkspaceEdit where
  changes : Option (List (Uri × List TextEdit))
  deriving DecidableEq, Repr

/-- Puts the edits of a file in the place of earlier ones, or at the end. -/
def WorkspaceEdit.putEdits (uri : Uri) (edits : List TextEdit) :
    List (Uri × List TextEdit) → List (Uri × List TextEdit)
  | [] => [(uri, edits)]
  | (u, es) :: rest => if u = uri then (u, edits) :: rest else (u, es) :: putEdits uri edits rest

/-- The edit with the given replacements. Of two entries for a file the later one counts. -/
def WorkspaceEdit.ofList (changes : List (Uri × List TextEdit)) : WorkspaceEdit :=
  ⟨some (changes.foldl (fun found change => putEdits change.1 change.2 found) [])⟩

/-- Why a document cannot be read, locked or changed. -/
inductive DocumentError where
  | notFound (path : FilePath)
  | invalidUri (uri : Uri)
  | lockTimeout (path : FilePath) (timeout : Duration)
  /-- A line of the range does not exist, or it ends before it starts. -/
  | invalidRange (path : FilePath) (range : Range)
  | conflict (path : FilePath) (cause : EditConflict)
  /-- The text would be cut where it cannot be, such as inside a character. -/
  | splitsCharacter (path : FilePath)
  deriving DecidableEq, Repr

/-- The written form of a position in messages about documents. -/
def Position.text (p : Position) : String :=
  "LineCol \x7b line: " ++ toString p.line ++ ", character: " ++ toString p.character ++ " \x7d"

/-- The text of a document error. -/
def DocumentError.message : DocumentError → String
  | notFound path => s!"no document at {path.text}"
  | invalidUri uri => s!"`{uri.text}` is not a file URI"
  | lockTimeout path timeout =>
    s!"timed out after {timeout.text} waiting for the lock on {path.text}"
  | invalidRange path range =>
    s!"edit range {range.start.text}..{range.stop.text} is outside {path.text}"
  | conflict path c => s!"conflicting edits for {path.text}: {c.message}"
  | splitsCharacter path => s!"an edit of {path.text} splits a character"

/-- Texts at file paths, no two of which mean the same file, and the locks on them. -/
structure Documents where
  files : List (FilePath × String)
  locks : Locks
  deriving Repr

namespace Documents

/-- No documents and no locks. -/
def empty : Documents := ⟨[], .empty⟩

/-! ## Reading and writing -/

/-- Puts a text in the place of the one at the same file, or at the end. -/
def putFile (path : FilePath) (text : String) :
    List (FilePath × String) → List (FilePath × String)
  | [] => [(path, text)]
  | (p, old) :: rest =>
    if p.sameAs path then (p, text) :: rest else (p, old) :: putFile path text rest

/-- Sets the text of a document, whether or not it is locked. -/
def put (d : Documents) (path : FilePath) (text : String) : Documents :=
  { d with files := putFile path text d.files }

/-- Removes a document, whether or not it is locked. -/
def erase (d : Documents) (path : FilePath) : Documents :=
  { d with files := d.files.filter fun file => !file.1.sameAs path }

/-- The text of a document. -/
def get? (d : Documents) (path : FilePath) : Option String :=
  (d.files.find? fun file => file.1.sameAs path).map (·.2)

/-- The text of a document, or the error that there is none. -/
def content (d : Documents) (path : FilePath) : Except DocumentError String :=
  match d.get? path with
  | some text => .ok text
  | none => .error (.notFound path)

/-- The number of documents. -/
def size (d : Documents) : Nat := d.files.length

/-! ## Locking -/

/-- Asks for the lock on a file. -/
def lock (d : Documents) (path : FilePath) (timeout : Duration) :
    Except DocumentError Unit × Documents :=
  let asked := d.locks.acquire path
  (if asked.1 then .ok () else .error (.lockTimeout path timeout), { d with locks := asked.2 })

/-- Gives the lock on a file back. -/
def unlock (d : Documents) (path : FilePath) : Documents :=
  { d with locks := d.locks.release path }

/-- Does something under the lock of a file, and gives the lock back whatever came of it. -/
def underLock {ε α : Type} (d : Documents) (path : FilePath) (timeout : Duration)
    (fail : DocumentError → ε) (act : Documents → Except ε α × Documents) :
    Except ε α × Documents :=
  match d.lock path timeout with
  | (.error e, d) => (.error (fail e), d)
  | (.ok (), d) =>
    let done := act d
    (done.1, done.2.unlock path)

/-- Sets the text of a document under its lock. -/
def update (d : Documents) (path : FilePath) (text : String) (timeout : Duration) :
    Except DocumentError Unit × Documents :=
  d.underLock path timeout id fun d => (.ok (), d.put path text)

/-! ## Workspace edits -/

/-- The byte span of a range, if both its lines exist and it does not end before it starts. -/
def spanOf? (index : LineIndex) (range : Range) : Option Span :=
  match index.offset? range.start, index.offset? range.stop with
  | some start, some stop => if start ≤ stop then some ⟨start, stop⟩ else none
  | _, _ => none

/-- Why a range has no span. The text is cut at the lines of both ends before anything is said about
the range. -/
def spanError (path : FilePath) (index : LineIndex) (range : Range) : DocumentError :=
  match index.offset range.start, index.offset range.stop with
  | .error .notCut, _ => .splitsCharacter path
  | _, .error .notCut => .splitsCharacter path
  | _, _ => .invalidRange path range

/-- The replacements in a text as edits of byte spans. -/
def editsIn (path : FilePath) (text : String) (edits : List TextEdit) :
    Except DocumentError ChangeSet :=
  let index := LineIndex.ofText text
  (edits.mapM fun (edit : TextEdit) =>
    match spanOf? index edit.range with
    | some span => Except.ok (Edit.mk span edit.newText)
    | none => Except.error (spanError path index edit.range)).map ChangeSet.mk

/-- A text after replacements in it. -/
def edited (path : FilePath) (text : String) (edits : List TextEdit) :
    Except DocumentError String :=
  match editsIn path text edits with
  | .error e => .error e
  | .ok set =>
    match set.performChecked? text with
    | .error c => .error (.conflict path c)
    | .ok none => .error (.splitsCharacter path)
    | .ok (some updated) => .ok updated

/-- Changes one file. -/
def editFile (d : Documents) (timeout : Duration) (uri : Uri) (edits : List TextEdit) :
    Except DocumentError Unit × Documents :=
  match uri.toFile? with
  | none => (.error (.invalidUri uri), d)
  | some path =>
    d.underLock path timeout id fun d =>
      match (d.content path).bind fun text => edited path text edits with
      | .error e => (.error e, d)
      | .ok updated => (.ok (), d.put path updated)

/-- Changes one file after the other until one cannot be changed. -/
def editFiles (d : Documents) (timeout : Duration) :
    List (Uri × List TextEdit) → Except DocumentError Unit × Documents
  | [] => (.ok (), d)
  | (uri, edits) :: rest =>
    match d.editFile timeout uri edits with
    | (.error e, d) => (.error e, d)
    | (.ok (), d) => d.editFiles timeout rest

/-- Carries out a workspace edit, the files in the order of their URIs. The answer is the number of
files. -/
def edit (d : Documents) (edit : WorkspaceEdit) (timeout : Duration) :
    Except DocumentError Nat × Documents :=
  match edit.changes with
  | none => (.ok 0, d)
  | some changes =>
    let sorted := changes.mergeSort fun a b => (a.1.compare b.1).isLE
    let done := d.editFiles timeout sorted
    (done.1.map fun _ => changes.length, done.2)

end Documents

end Xref
