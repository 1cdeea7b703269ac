import Xref.Text.Utf8

/-!
# File paths

A path is kept as the bytes it was written with, and shown that way. Two paths mean the same file if
they have the same components: repeated slashes, a slash at the end and inner dots do not count, and
two dots are a component like any other.
-/

namespace Xref

/-- One step of a path. -/
inductive PathComponent where
  | root
  /-- A dot at the start of a path that is not absolute. -/
  | current
  | parent
  | name (bytes : List UInt8)
  deriving DecidableEq, Repr

namespace PathComponent

/-- The byte that separates components. -/
def slash : UInt8 := 0x2F

/-- The byte of a dot. -/
def dot : UInt8 := 0x2E

/-- The component that a part between slashes is. Empty parts and single dots are none. -/
def ofPart? : List UInt8 → Option PathComponent
  | [] => none
  | part =>
    if part = [dot] then none
    else if part = [dot, dot] then some parent
    else some (name part)

/-- The bytes of a component. -/
def bytes : PathComponent → List UInt8
  | root => [slash]
  | current => [dot]
  | parent => [dot, dot]
  | name bs => bs

/-- The text of a component that is a name in UTF-8. -/
def text? : PathComponent → Option String
  | name bs => Text.decode? bs
  | _ => none

end PathComponent

/-- A path to a file, as the bytes it was written with. -/
structure FilePath where
  bytes : List UInt8
  deriving DecidableEq, Repr, Inhabited

namespace FilePath

open PathComponent

/-- The path with a given text. -/
def ofText (text : String) : FilePath := ⟨Text.encode text.toList⟩

/-- The text of a path, as far as it can be read. -/
def text (p : FilePath) : String := Text.decodeLossy p.bytes

/-- The parts of a path between slashes. -/
def splitSlashes (bytes : List UInt8) : List (List UInt8) :=
  bytes.foldr (fun b parts =>
    if b = slash then [] :: parts
    else match parts with
      | [] => [[b]]
      | part :: rest => (b :: part) :: rest) [[]]

/-- Whether the path starts at the root. -/
def isAbsolute (p : FilePath) : Bool := p.bytes.head? == some slash

/-- The steps of a path. -/
def components (p : FilePath) : List PathComponent :=
  let parts := splitSlashes p.bytes
  let start :=
    if p.isAbsolute then [root]
    else if parts.head? = some [dot] then [current]
    else []
  start ++ parts.filterMap ofPart?

/-- Whether two paths mean the same file. -/
def sameAs (p q : FilePath) : Bool := p.components == q.components

/-- The path `q` as seen from `p`. An absolute `q` stands for itself. -/
def join (p q : FilePath) : FilePath :=
  if q.isAbsolute then q
  else if p.bytes = [] ∨ p.bytes.getLast? = some slash then ⟨p.bytes ++ q.bytes⟩
  else ⟨p.bytes ++ slash :: q.bytes⟩

/-- The steps from `base` to `p`, if `p` starts with the steps of `base`. -/
def stepsFrom? (p base : FilePath) : Option (List PathComponent) :=
  if base.components.isPrefixOf p.components then
    some (p.components.drop base.components.length)
  else none

theorem sameAs_iff {p q : FilePath} : p.sameAs q = true ↔ p.components = q.components := by
  simp [sameAs]

theorem sameAs_refl (p : FilePath) : p.sameAs p = true := by simp [sameAs]

theorem sameAs_comm (p q : FilePath) : p.sameAs q = q.sameAs p := by
  rw [sameAs, sameAs, Bool.beq_comm]

end FilePath

end Xref
