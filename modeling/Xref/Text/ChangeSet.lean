import Xref.Text.Span
import Xref.Text.Units

/-!
# Change sets

A change set is a list of replacements in one text. Overlapping replacements are found by sorting
and comparing neighbours. Replacements are carried out one after the other from the end of the text
to its start, so that the earlier spans stay valid; a span that leaves the text as it then stands is
cut down to it.
-/

namespace Xref

/-- Puts `newText` in the place of the bytes of `span`. -/
structure Edit where
  span : Span
  newText : String
  deriving DecidableEq, Repr, Inhabited

namespace Edit

/-- Whether the edit adds text and removes none. -/
def isInsertion (e : Edit) : Bool := e.span.isEmpty && !e.newText.isEmpty

/-- Whether two edits, the first of which does not start later, take the same text. Insertions do
not conflict with each other. -/
def conflictsWith (e f : Edit) : Bool :=
  decide (f.span.start < e.span.stop) && !(e.isInsertion && f.isInsertion)

/-- Carries out one edit, its span cut down to the text. There is no answer if an end lies inside a
character. -/
def perform? (e : Edit) (cs : List Char) : Option (List Char) :=
  let length := Text.byteLength cs
  let start := min e.span.start length
  let stop := max (min e.span.stop length) start
  Text.splice? cs start stop e.newText.toList

end Edit

/-- Two edits that take the same text. -/
structure EditConflict where
  first : Edit
  second : Edit
  deriving DecidableEq, Repr

/-- The text of a conflict. -/
def EditConflict.message (c : EditConflict) : String :=
  s!"edits overlap: {c.first.span.text} and {c.second.span.text}"

/-- The edits of one text, in the order in which they were added. -/
structure ChangeSet where
  edits : List Edit
  deriving DecidableEq, Repr

namespace ChangeSet

/-- No edits. -/
def empty : ChangeSet := ⟨[]⟩

/-- Adds an edit at the end. -/
def push (s : ChangeSet) (e : Edit) : ChangeSet := ⟨s.edits ++ [e]⟩

/-- The number of edits. -/
def size (s : ChangeSet) : Nat := s.edits.length

/-- Drops every element that equals the one before it. -/
def dropRepeats {α : Type} [DecidableEq α] : List α → List α
  | [] => []
  | [a] => [a]
  | a :: b :: rest => if a = b then dropRepeats (b :: rest) else a :: dropRepeats (b :: rest)

/-- Sorts the edits by span and text, and keeps one of several equal edits. -/
def normalize (s : ChangeSet) : ChangeSet :=
  ⟨dropRepeats <| s.edits.mergeSort fun e f =>
    ((e.span.compare f.span).then (compare e.newText f.newText)).isLE⟩

/-- The edits by increasing start and end; those with equal spans keep their order. -/
def forward (s : ChangeSet) : List Edit := s.edits.mergeSort fun e f => (e.span.compare f.span).isLE

/-- The edits by decreasing start and end; those with equal spans keep their order. -/
def backward (s : ChangeSet) : List Edit :=
  s.edits.mergeSort fun e f => (e.span.compare f.span).isGE

/-- The first two neighbours of a list that are in conflict. -/
def firstConflict : List Edit → Option EditConflict
  | e :: f :: rest => if e.conflictsWith f then some ⟨e, f⟩ else firstConflict (f :: rest)
  | _ => none

/-- Two edits in conflict, if neighbours in the sorted list are. -/
def conflict? (s : ChangeSet) : Option EditConflict := firstConflict s.forward

/-- The text after all edits. There is no answer if at the time of an edit an end of its span lies
inside a character. -/
def perform? (s : ChangeSet) (text : String) : Option String :=
  (s.backward.foldlM (fun cs (e : Edit) => e.perform? cs) text.toList).map String.ofList

/-- The text after all edits, unless some are in conflict. -/
def performChecked? (s : ChangeSet) (text : String) : Except EditConflict (Option String) :=
  match s.conflict? with
  | some c => .error c
  | none => .ok (s.perform? text)

end ChangeSet

end Xref
