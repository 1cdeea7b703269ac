import Mathlib.Data.List.Induction
import Xref.Text.LineIndex

/-!
# Positions of character boundaries

A boundary of a text is the end of some characters at its start. Its position depends on these
characters alone (`position_ofText`) and grows strictly with them (`endPosition_before`).
-/

namespace Xref

/-! ## The order of positions -/

namespace Position

/-- Whether `p` comes before `q` in a text. -/
def Before (p q : Position) : Prop :=
  p.line < q.line ∨ p.line = q.line ∧ p.character < q.character

theorem Before.trans {p q r : Position} (h₁ : p.Before q) (h₂ : q.Before r) : p.Before r := by
  unfold Before at *; omega

theorem Before.ne {p q : Position} (h : p.Before q) : p ≠ q := by
  rintro rfl
  unfold Before at h; omega

theorem compare_eq_lt_iff {p q : Position} : p.compare q = .lt ↔ p.Before q := by
  simp only [compare, Before, Ordering.then_eq_lt, Nat.compare_eq_lt, Nat.compare_eq_eq]

theorem compare_eq_eq_iff {p q : Position} : p.compare q = .eq ↔ p = q := by
  cases p; cases q
  simp only [compare, Ordering.then_eq_eq, Nat.compare_eq_eq, Position.mk.injEq]

/-- The position behind `c`, where `c` starts at `p`. -/
def advance (p : Position) (c : Char) : Position :=
  if c = '\n' then ⟨p.line + 1, 0⟩ else ⟨p.line, p.character + Text.unitsOf c⟩

theorem before_advance (p : Position) (c : Char) : p.Before (p.advance c) := by
  unfold advance Before Text.unitsOf
  split
  · exact .inl (Nat.lt_succ_self _)
  · right; dsimp only; split <;> omega

end Position

namespace LineIndex

open Text

/-! ## Lines -/

theorem splitLines_ne_nil (cs : List Char) : splitLines cs ≠ [] := by
  induction cs with
  | nil => simp [splitLines]
  | cons c cs _ =>
    simp only [splitLines, List.foldr_cons]
    split
    · simp
    · split <;> simp

theorem splitLines_newline (cs : List Char) : splitLines ('\n' :: cs) = [] :: splitLines cs := rfl

theorem splitLines_cons {c : Char} {cs line : List Char} {rest : List (List Char)}
    (hc : c ≠ '\n') (h : splitLines cs = line :: rest) :
    splitLines (c :: cs) = (c :: line) :: rest := by
  rw [splitLines] at h ⊢
  rw [List.foldr_cons, if_neg hc, h]

/-- Characters that are no newlines join the line that starts behind them. -/
theorem splitLines_append {l cs line : List Char} {rest : List (List Char)}
    (hl : '\n' ∉ l) (h : splitLines cs = line :: rest) :
    splitLines (l ++ cs) = (l ++ line) :: rest := by
  induction l with
  | nil => exact h
  | cons c l ih =>
    rw [List.mem_cons, not_or] at hl
    exact splitLines_cons (Ne.symm hl.1) (ih hl.2)

/-- A newline divides the lines of a text. -/
theorem splitLines_append_newline (as cs : List Char) :
    splitLines (as ++ '\n' :: cs) = splitLines as ++ splitLines cs := by
  induction as with
  | nil => rfl
  | cons c as ih =>
    by_cases hc : c = '\n'
    · subst hc
      rw [List.cons_append, splitLines_newline, splitLines_newline, ih, List.cons_append]
    · obtain ⟨line, rest, h⟩ := List.exists_cons_of_ne_nil (splitLines_ne_nil as)
      rw [h, List.cons_append] at ih
      rw [List.cons_append, splitLines_cons hc ih, splitLines_cons hc h, List.cons_append]

/-- The bytes of complete lines, each with its newline. -/
theorem lineBytes_splitLines (cs : List Char) :
    (splitLines cs).foldr (fun line bytes => byteLength line + 1 + bytes) 0 =
      byteLength cs + 1 := by
  induction cs with
  | nil => rfl
  | cons c cs ih =>
    by_cases hc : c = '\n'
    · subst hc
      have hsize : '\n'.utf8Size = 1 := by decide
      rw [splitLines_newline, List.foldr_cons, ih, byteLength_cons, byteLength_nil, hsize]
      omega
    · obtain ⟨line, rest, h⟩ := List.exists_cons_of_ne_nil (splitLines_ne_nil cs)
      rw [h, List.foldr_cons] at ih
      rw [splitLines_cons hc h, List.foldr_cons, byteLength_cons, byteLength_cons]
      omega

/-! ## From a boundary to its position -/

/-- The position right behind the characters at the start of a text. -/
def endPosition (cs : List Char) : Position := cs.foldl Position.advance ⟨0, 0⟩

theorem seek_splitLines (as : List Char) {p : List Char} (bs : List Char) (n : Nat)
    (hp : '\n' ∉ p) :
    seek (splitLines (p ++ (as ++ bs))) n (byteLength (p ++ as)) =
      as.foldl Position.advance ⟨n, unitLength p⟩ := by
  induction as generalizing p n with
  | nil =>
    obtain ⟨line, rest, h⟩ := List.exists_cons_of_ne_nil (splitLines_ne_nil bs)
    have hcol : column (p ++ line) (byteLength p) = unitLength p := by simp [column]
    rw [List.nil_append, splitLines_append hp h, List.append_nil, List.foldl_nil]
    cases rest with
    | nil =>
      have : min (byteLength p) (byteLength (p ++ line)) = byteLength p := by simp
      rw [seek, this, hcol]
    | cons next rest => rw [seek, if_pos (by simp), hcol]
  | cons c as ih =>
    by_cases hc : c = '\n'
    · subst hc
      have hsize : '\n'.utf8Size = 1 := by decide
      obtain ⟨line, rest, h⟩ := List.exists_cons_of_ne_nil (splitLines_ne_nil (as ++ bs))
      have hseek := ih (n + 1) (p := []) (by simp)
      rw [List.nil_append, List.nil_append, h] at hseek
      have hlen : byteLength (p ++ '\n' :: as) = byteLength p + 1 + byteLength as := by
        simp [hsize, Nat.add_assoc]
      have hfirst : splitLines p = [p] := by
        have hnil : splitLines [] = [[]] := rfl
        simpa using splitLines_append hp hnil
      rw [List.cons_append, splitLines_append_newline, hfirst, h, List.singleton_append, seek,
        if_neg (by omega), hlen, Nat.add_sub_cancel_left, hseek]
      rfl
    · have hp' : '\n' ∉ p ++ [c] := by simp [hp, Ne.symm hc]
      have := ih n hp'
      simp only [List.append_assoc, List.singleton_append] at this
      rw [List.cons_append, this, List.foldl_cons, Position.advance, if_neg hc]
      simp

/-- The position of a boundary depends only on the characters before it. -/
theorem position_ofText {text : String} {as bs : List Char} (h : text.toList = as ++ bs) :
    (ofText text).position (byteLength as) = endPosition as := by
  have := seek_splitLines as (p := []) bs 0 (by simp)
  rw [List.nil_append, List.nil_append] at this
  rw [position, ofText, h, this]
  rfl

theorem foldl_advance_before (p : Position) (c : Char) (cs : List Char) :
    p.Before ((c :: cs).foldl Position.advance p) := by
  induction cs generalizing p c with
  | nil => exact p.before_advance c
  | cons d cs ih => exact (p.before_advance c).trans (ih (p.advance c) d)

/-- Positions grow strictly from one boundary to the next. -/
theorem endPosition_before (as : List Char) {bs : List Char} (h : bs ≠ []) :
    (endPosition as).Before (endPosition (as ++ bs)) := by
  obtain ⟨c, cs, rfl⟩ := List.exists_cons_of_ne_nil h
  rw [endPosition, endPosition, List.foldl_append]
  exact foldl_advance_before _ c cs

/-- Of two boundaries of a text the one at the smaller offset comes first. -/
theorem position_before {text : String} {as bs as' bs' : List Char}
    (h : text.toList = as ++ bs) (h' : text.toList = as' ++ bs')
    (hlt : byteLength as < byteLength as') :
    ((ofText text).position (byteLength as)).Before
      ((ofText text).position (byteLength as')) := by
  rw [position_ofText h, position_ofText h']
  rcases List.append_eq_append_iff.1 (h.symm.trans h') with ⟨mid, rfl, -⟩ | ⟨mid, rfl, -⟩
  · refine endPosition_before as ?_
    rintro rfl
    simp at hlt
  · rw [byteLength_append] at hlt
    omega

end LineIndex

end Xref
