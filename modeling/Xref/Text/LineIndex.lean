import Xref.Text.Span
import Xref.Text.Units

/-!
# Lines and columns

A position is a line and a column, both from zero; columns count UTF-16 code units. A line index
holds the lines of one text and converts between positions and byte offsets. A line ends before
its newline character, and the part of it that a position can address ends before a final
carriage return as well.

Offsets have 32 bits. In a longer text the ends of a line are capped, so that the characters between
them need not be the line, and if a character or the order of the ends is in the way there are none.
-/

namespace Xref

/-- A line and a column in UTF-16 code units, both counted from zero. -/
structure Position where
  line : Nat
  character : Nat
  deriving DecidableEq, Repr, Inhabited

namespace Position

/-- Order by line, then by column. -/
def compare (p q : Position) : Ordering :=
  (Ord.compare p.line q.line).then (Ord.compare p.character q.character)

instance : Ord Position := ⟨compare⟩

/-- Whether `p` is at or before `q`. -/
def precedes (p q : Position) : Bool := (p.compare q).isLE

end Position

/-- The text between two positions. -/
structure Range where
  start : Position
  stop : Position
  deriving DecidableEq, Repr, Inhabited

/-- The lines of a text, in order and without their newline characters. -/
structure LineIndex where
  lines : List (List Char)
  deriving DecidableEq, Repr

namespace LineIndex

open Text

/-- Splits a text after every newline character, which is dropped. -/
def splitLines (cs : List Char) : List (List Char) :=
  cs.foldr (fun c lines =>
    if c = '\n' then [] :: lines
    else match lines with
      | [] => [[c]]
      | line :: rest => (c :: line) :: rest) [[]]

/-- The line index of a text. -/
def ofText (text : String) : LineIndex := ⟨splitLines text.toList⟩

/-- The number of lines, one more than there are newline characters. -/
def lineCount (index : LineIndex) : Nat := index.lines.length

/-- The byte offset at which line `n` starts: every earlier line counts with its newline. -/
def lineStart (index : LineIndex) (n : Nat) : Nat :=
  (index.lines.take n).foldr (fun line bytes => byteLength line + 1 + bytes) 0

/-- The part of a line that positions address: all but a final carriage return. -/
def visible (line : List Char) : List Char :=
  if line.getLast? = some '\r' then line.dropLast else line

/-- The bytes before the first character whose column is at least `column`, or the whole length
if there is none. -/
def bytesBefore : List Char → Nat → Nat
  | [], _ => 0
  | c :: cs, column =>
    if column = 0 then 0 else c.utf8Size + bytesBefore cs (column - unitsOf c)

/-- All lines with a newline between each and the next. -/
def joinLines : List (List Char) → List Char
  | [] => []
  | [line] => line
  | line :: next :: rest => line ++ '\n' :: joinLines (next :: rest)

/-- The text of a line index. -/
def text (index : LineIndex) : List Char := joinLines index.lines

/-- The offset at which line `n` ends, before its newline. -/
def lineStop (index : LineIndex) (n : Nat) : Nat :=
  if n + 1 < index.lineCount then Span.capped (index.lineStart (n + 1)) - 1
  else Span.capped (byteLength index.text)

/-- Why a position has no offset. -/
inductive OffsetError where
  /-- The line does not exist. -/
  | noLine
  /-- The ends of the line, as far as 32 bits hold them, are no ends of a piece of the text. -/
  | notCut
  deriving DecidableEq, Repr

/-- The byte offset of a position. A column past the end of its line means the end of its visible
part. -/
def offset (index : LineIndex) (p : Position) : Except OffsetError Nat :=
  if p.line < index.lineCount then
    let start := Span.capped (index.lineStart p.line)
    match slice? index.text start (index.lineStop p.line) with
    | some line => .ok (start + bytesBefore (visible line) p.character)
    | none => .error .notCut
  else .error .noLine

/-- The byte offset of a position, if there is one. -/
def offset? (index : LineIndex) (p : Position) : Option Nat := (index.offset p).toOption

/-- The column at a byte offset into a line; zero for an offset inside a character. -/
def column (line : List Char) (offset : Nat) : Nat :=
  match cut? line offset with
  | some (before, _) => unitLength before
  | none => 0

/-- The position at `offset` bytes into `lines`, the first of which has number `n`. The last line
takes every offset past its end to be its end. -/
def seek : List (List Char) → Nat → Nat → Position
  | [], n, _ => ⟨n, 0⟩
  | [line], n, offset => ⟨n, column line (min offset (byteLength line))⟩
  | line :: next :: rest, n, offset =>
    if offset ≤ byteLength line then ⟨n, column line offset⟩
    else seek (next :: rest) (n + 1) (offset - (byteLength line + 1))

/-- The position of a byte offset. An offset past the end means the end of the text. -/
def position (index : LineIndex) (offset : Nat) : Position := seek index.lines 0 offset

/-- The positions of both ends of a span. -/
def range (index : LineIndex) (s : Span) : Range :=
  ⟨index.position s.start, index.position s.stop⟩

end LineIndex

end Xref
