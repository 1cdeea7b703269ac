/-!
# Spans

A span is a range of byte offsets, its end excluded. Spans are ordered by start and then by end.
-/

namespace Xref

/-- The bytes from `start` up to but not including `stop`. -/
structure Span where
  start : Nat
  stop : Nat
  deriving DecidableEq, Repr, Inhabited

/-- Why a range of offsets is no span: offsets have 32 bits. -/
inductive SpanError where
  | startTooLarge (start : Nat)
  | endTooLarge (stop : Nat)
  deriving DecidableEq, Repr

/-- The text of a span error. -/
def SpanError.message : SpanError → String
  | .startTooLarge n => s!"span start {n} exceeds u32::MAX"
  | .endTooLarge n => s!"span end {n} exceeds u32::MAX"

namespace Span

/-- The largest offset that a span can hold. -/
def maxOffset : Nat := UInt32.size - 1

/-- An offset as far as 32 bits hold it: a larger one than the largest becomes the largest. -/
def capped (offset : Nat) : Nat := min offset maxOffset

theorem capped_eq {offset : Nat} (h : offset ≤ maxOffset) : capped offset = offset :=
  Nat.min_eq_left h

/-- The span of a range of offsets. The start is checked before the end. -/
def ofRange (start stop : Nat) : Except SpanError Span :=
  if maxOffset < start then .error (.startTooLarge start)
  else if maxOffset < stop then .error (.endTooLarge stop)
  else .ok ⟨start, stop⟩

/-- The empty span at an offset. -/
def point (offset : Nat) : Span := ⟨offset, offset⟩

/-- The number of bytes covered. -/
def length (s : Span) : Nat := s.stop - s.start

/-- Whether nothing is covered. -/
def isEmpty (s : Span) : Bool := s.start == s.stop

/-- Whether the byte at `offset` is covered. -/
def contains (s : Span) (offset : Nat) : Bool := decide (s.start ≤ offset ∧ offset < s.stop)

/-- Whether each span starts before the other ends. Spans that only touch do not overlap. -/
def overlaps (s t : Span) : Bool := decide (s.start < t.stop ∧ t.start < s.stop)

/-- The least span that covers both. -/
def merge (s t : Span) : Span := ⟨min s.start t.start, max s.stop t.stop⟩

/-- Order by start, then by end. -/
def compare (s t : Span) : Ordering :=
  (Ord.compare s.start t.start).then (Ord.compare s.stop t.stop)

instance : Ord Span := ⟨compare⟩

/-- The written form of a span, two offsets with two dots between them. -/
def text (s : Span) : String := s!"{s.start}..{s.stop}"

theorem overlaps_comm (s t : Span) : s.overlaps t = t.overlaps s := by
  simp [overlaps, and_comm]

end Span

end Xref
