import Xref.Proofs.Text.Bytes
import Xref.Proofs.Text.Lines
import Xref.Proofs.Text.Replacements

/-!
# Offsets of positions

An offset that a line index finds is a boundary of its text (`offset?_isBoundary`). In a text whose
bytes offsets can count it is the start of the line and the bytes before the column in the visible
part (`offset?_eq`), and a boundary is found again by its position unless it lies behind the
carriage return that ends a line (`offset?_endPosition`). In a longer text a line may not be a piece
of the text (`offset_start_of_wide`).
-/

namespace Xref.LineIndex

open Text

/-! ## Lines of an index -/

theorem joinLines_cons (c : Char) (line : List Char) (rest : List (List Char)) :
    joinLines ((c :: line) :: rest) = c :: joinLines (line :: rest) := by
  cases rest <;> rfl

theorem joinLines_splitLines (cs : List Char) : joinLines (splitLines cs) = cs := by
  induction cs with
  | nil => rfl
  | cons c cs ih =>
    obtain ⟨line, rest, h⟩ := List.exists_cons_of_ne_nil (splitLines_ne_nil cs)
    rw [h] at ih
    by_cases hc : c = '\n'
    · rw [hc, splitLines_newline, h, joinLines, List.nil_append, ih]
    · rw [splitLines_cons hc h, joinLines_cons, ih]

theorem text_ofText (text : String) : (ofText text).text = text.toList := joinLines_splitLines _

theorem lineBytes_append (as bs : List (List Char)) :
    (as ++ bs).foldr (fun line bytes => byteLength line + 1 + bytes) 0 =
      as.foldr (fun line bytes => byteLength line + 1 + bytes) 0 +
        bs.foldr (fun line bytes => byteLength line + 1 + bytes) 0 := by
  induction as with
  | nil => rw [List.nil_append, List.foldr_nil, Nat.zero_add]
  | cons line as ih => rw [List.cons_append, List.foldr_cons, List.foldr_cons, ih, ← Nat.add_assoc]

/-- A line of a text stands behind the lines before it and their newlines. -/
theorem exists_line {cs line : List Char} {n : Nat} (h : (splitLines cs)[n]? = some line) :
    ∃ before after, cs = before ++ (line ++ after) ∧
      byteLength before = (LineIndex.mk (splitLines cs)).lineStart n := by
  induction cs generalizing n line with
  | nil =>
    cases n with
    | zero => cases h; exact ⟨[], [], rfl, rfl⟩
    | succ n => cases h
  | cons c cs ih =>
    by_cases hc : c = '\n'
    · subst hc
      rw [splitLines_newline] at h ⊢
      cases n with
      | zero => cases h; exact ⟨[], _, rfl, rfl⟩
      | succ n =>
        obtain ⟨before, after, happ, hlength⟩ := ih h
        refine ⟨'\n' :: before, after, by rw [List.cons_append, ← happ], ?_⟩
        rw [byteLength_cons, hlength]
        simp only [lineStart, List.take_succ_cons, List.foldr_cons, byteLength_nil, Nat.zero_add]
        rfl
    · obtain ⟨first, rest, hlines⟩ := List.exists_cons_of_ne_nil (splitLines_ne_nil cs)
      rw [splitLines_cons hc hlines] at h ⊢
      rw [hlines] at ih
      cases n with
      | zero =>
        cases h
        obtain ⟨before, after, happ, hlength⟩ := ih (n := 0) rfl
        have hbefore : before = [] := by
          by_contra hne
          exact absurd hlength (Nat.ne_of_gt (byteLength_pos hne))
        subst hbefore
        exact ⟨[], after, by rw [happ]; rfl, rfl⟩
      | succ n =>
        obtain ⟨before, after, happ, hlength⟩ := ih (n := n + 1) h
        refine ⟨c :: before, after, by rw [List.cons_append, ← happ], ?_⟩
        rw [byteLength_cons, hlength]
        simp only [lineStart, List.take_succ_cons, List.foldr_cons, byteLength_cons]
        omega

theorem exists_bytesBefore (line : List Char) (column : Nat) :
    ∃ before after, line = before ++ after ∧ byteLength before = bytesBefore line column := by
  induction line generalizing column with
  | nil => exact ⟨[], [], rfl, rfl⟩
  | cons c line ih =>
    rw [bytesBefore]
    split
    · exact ⟨[], c :: line, rfl, rfl⟩
    · obtain ⟨before, after, happ, hlength⟩ := ih (column - Text.unitsOf c)
      exact ⟨c :: before, after, by rw [List.cons_append, ← happ], by rw [byteLength_cons, hlength]⟩

theorem exists_visible (line : List Char) : ∃ after, line = visible line ++ after := by
  unfold visible
  split
  · obtain ⟨after, happ⟩ := List.dropLast_prefix line
    exact ⟨after, happ.symm⟩
  · exact ⟨[], (List.append_nil line).symm⟩

/-- **The offset of a position does not lie inside a character.** -/
theorem offset?_isBoundary {text : String} {p : Position} {n : Nat}
    (h : (ofText text).offset? p = some n) : IsBoundary text.toList n := by
  unfold offset? offset at h
  rw [text_ofText] at h
  split at h
  · dsimp only at h
    split at h
    · rename_i line hline
      obtain ⟨before, after, happ, hlength, -⟩ := slice?_eq_some_iff.1 hline
      obtain ⟨hidden, hvisible⟩ := exists_visible line
      obtain ⟨inner, outer, hinner, hbytes⟩ := exists_bytesBefore (visible line) p.character
      refine ⟨before ++ inner, outer ++ (hidden ++ after), ?_, ?_⟩
      · rw [happ, hvisible, hinner]
        simp only [List.append_assoc]
      · rw [byteLength_append, hlength, hbytes]
        exact Option.some.inj h
    · cases h
  · cases h

theorem offset?_eq_some_iff {index : LineIndex} {p : Position} {n : Nat} :
    index.offset? p = some n ↔ index.offset p = .ok n := by
  rw [offset?]
  cases index.offset p <;> simp [Except.toOption]

theorem offset_eq_noLine_iff {index : LineIndex} {p : Position} :
    index.offset p = .error .noLine ↔ index.lineCount ≤ p.line := by
  unfold offset
  split
  · rename_i hlt
    refine ⟨fun h => ?_, fun h => absurd hlt (Nat.not_lt.2 h)⟩
    dsimp only at h
    split at h <;> cases h
  · rename_i hle
    exact ⟨fun _ => Nat.not_lt.1 hle, fun _ => rfl⟩

/-! ## Texts whose bytes offsets can count -/

section
variable {text : String} (hsize : text.utf8ByteSize ≤ Span.maxOffset)

include hsize

/-- The ends of a line that an index keeps are those of the line. -/
theorem capped_lineStart {n : Nat} {line : List Char} (hline : (ofText text).lines[n]? = some line) :
    Span.capped ((ofText text).lineStart n) = (ofText text).lineStart n ∧
      (ofText text).lineStop n = (ofText text).lineStart n + byteLength line := by
  obtain ⟨hn, hget⟩ := List.getElem?_eq_some_iff.1 hline
  have hwhole := lineBytes_splitLines text.toList
  have hsplit : (ofText text).lines =
      (ofText text).lines.take n ++ line :: (ofText text).lines.drop (n + 1) := by
    rw [← hget, ← List.drop_eq_getElem_cons hn, List.take_append_drop]
  have hnext : (ofText text).lineStart (n + 1) =
      (ofText text).lineStart n + byteLength line + 1 := by
    rw [lineStart, lineStart, List.take_add_one, hline, lineBytes_append]
    rfl
  rw [utf8ByteSize_eq] at hsize
  rw [show splitLines text.toList = (ofText text).lines from rfl, hsplit, lineBytes_append,
    List.foldr_cons] at hwhole
  -- What is left behind the line holds a line of its own, unless the line is the last.
  have hrest : n + 1 < (ofText text).lineCount →
      0 < ((ofText text).lines.drop (n + 1)).foldr
        (fun line bytes => byteLength line + 1 + bytes) 0 := by
    intro hlt
    rw [List.drop_eq_getElem_cons hlt, List.foldr_cons]
    omega
  have htext : byteLength (ofText text).text = byteLength text.toList :=
    congrArg byteLength (joinLines_splitLines _)
  have hstart : (ofText text).lineStart n + byteLength line ≤ byteLength text.toList := by
    rw [lineStart]
    omega
  refine ⟨Span.capped_eq (by omega), ?_⟩
  rw [lineStop, htext, hnext]
  split
  · rename_i hlt
    have := hrest hlt
    rw [Span.capped_eq (by rw [lineStart]; omega), Nat.add_sub_cancel]
  · rename_i hlast
    have hnone : (ofText text).lines.drop (n + 1) = [] :=
      List.drop_eq_nil_of_le (Nat.not_lt.1 hlast)
    rw [hnone, List.foldr_nil] at hwhole
    rw [Span.capped_eq hsize, lineStart]
    omega

/-- The offset of a position is the start of its line and the bytes before its column. -/
theorem offset_eq {p : Position} {line : List Char}
    (hline : (ofText text).lines[p.line]? = some line) :
    (ofText text).offset p =
      .ok ((ofText text).lineStart p.line + bytesBefore (visible line) p.character) := by
  obtain ⟨hstart, hstop⟩ := capped_lineStart hsize hline
  obtain ⟨before, after, happ, hlength⟩ := exists_line hline
  have hslice : slice? (ofText text).text ((ofText text).lineStart p.line)
      ((ofText text).lineStart p.line + byteLength line) = some line :=
    slice?_eq_some_iff.2 ⟨before, after, (joinLines_splitLines _).trans happ, hlength, rfl⟩
  have hlt : p.line < (ofText text).lineCount := (List.getElem?_eq_some_iff.1 hline).1
  rw [offset, if_pos hlt]
  dsimp only
  rw [hstart, hstop, hslice]

theorem offset?_eq (p : Position) :
    (ofText text).offset? p = (ofText text).lines[p.line]?.map fun line =>
      (ofText text).lineStart p.line + bytesBefore (visible line) p.character := by
  rw [offset?]
  cases hline : (ofText text).lines[p.line]? with
  | none => rw [offset_eq_noLine_iff.2 (List.getElem?_eq_none_iff.1 hline)]; rfl
  | some line => rw [offset_eq hsize hline]; rfl

/-- Every line can be cut out of the text. -/
theorem offset_ne_notCut (p : Position) : (ofText text).offset p ≠ .error .notCut := by
  cases hline : (ofText text).lines[p.line]? with
  | none => rw [offset_eq_noLine_iff.2 (List.getElem?_eq_none_iff.1 hline)]; exact nofun
  | some line => rw [offset_eq hsize hline]; exact nofun

end

/-- Where every character takes two bytes and offsets cannot count them all, the last offset there is
lies in a character. -/
theorem offset_start_of_wide {text : String} (hwide : ∀ c ∈ text.toList, c.utf8Size = 2)
    (hsize : Span.maxOffset < text.utf8ByteSize) :
    (ofText text).offset ⟨0, 0⟩ = .error .notCut := by
  have hline : '\n' ∉ text.toList := fun h => absurd (hwide _ h) (by decide)
  have hcount : (ofText text).lineCount = 1 := by
    have hlines := @splitLines_append text.toList [] [] [] hline rfl
    rw [List.append_nil] at hlines
    rw [lineCount, ofText, hlines]
    rfl
  have hstop : (ofText text).lineStop 0 = Span.maxOffset := by
    rw [Text.utf8ByteSize_eq] at hsize
    rw [lineStop, if_neg (by omega), text_ofText]
    exact Nat.min_eq_right hsize.le
  have hnone : slice? text.toList 0 Span.maxOffset = none := by
    rw [Option.eq_none_iff_forall_ne_some]
    intro line hslice
    obtain ⟨as, bs, happ, hstart, hlength⟩ := slice?_eq_some_iff.1 hslice
    have heven : ∀ c ∈ line, c.utf8Size = 2 := fun c hc => hwide c (by simp [happ, hc])
    rw [Nat.zero_add, byteLength_eq_mul heven] at hlength
    have hodd : Span.maxOffset % 2 = 1 := by decide
    omega
  rw [offset, if_pos (by rw [hcount]; exact Nat.one_pos)]
  have hstart : Span.capped (lineStart (ofText text) 0) = 0 := rfl
  dsimp only
  rw [text_ofText, hstart, hstop, hnone]

/-! ## Boundaries by their positions -/

variable {text : String}

theorem bytesBefore_unitLength (as bs : List Char) :
    bytesBefore (as ++ bs) (unitLength as) = byteLength as := by
  induction as with
  | nil => cases bs <;> simp [bytesBefore]
  | cons c as ih =>
    have hpos : 0 < Text.unitsOf c := by unfold Text.unitsOf; split <;> omega
    rw [List.cons_append, bytesBefore, if_neg (by rw [unitLength_cons]; omega), unitLength_cons,
      Nat.add_sub_cancel_left, ih, byteLength_cons]

/-- The characters before a boundary are complete lines and a part of one more. -/
theorem exists_lastLine (as : List Char) :
    ∃ head l, as = head ++ l ∧ '\n' ∉ l ∧ (head = [] ∨ ∃ pre, head = pre ++ ['\n']) := by
  induction as using List.reverseRecOn with
  | nil => exact ⟨[], [], rfl, by simp, .inl rfl⟩
  | append_singleton as c ih =>
    obtain ⟨head, l, rfl, hl, hhead⟩ := ih
    by_cases hc : c = '\n'
    · exact ⟨head ++ l ++ [c], [], by simp, by simp, .inr ⟨head ++ l, by rw [hc]⟩⟩
    · exact ⟨head, l ++ [c], by simp, by simp [hl, Ne.symm hc], hhead⟩

theorem foldl_advance_line {l : List Char} (p : Position) (hl : '\n' ∉ l) :
    l.foldl Position.advance p = ⟨p.line, p.character + unitLength l⟩ := by
  induction l generalizing p with
  | nil => simp
  | cons c l ih =>
    rw [List.mem_cons, not_or] at hl
    rw [List.foldl_cons, ih _ hl.2, Position.advance, if_neg (Ne.symm hl.1), unitLength_cons,
      Nat.add_assoc]

theorem foldl_advance_lines (pre : List Char) (p : Position) :
    ((pre ++ ['\n']).foldl Position.advance p) = ⟨p.line + (splitLines pre).length, 0⟩ := by
  induction pre generalizing p with
  | nil => rfl
  | cons c pre ih =>
    rw [List.cons_append, List.foldl_cons, ih]
    by_cases hc : c = '\n'
    · subst hc
      rw [splitLines_newline, List.length_cons, Position.advance, if_pos rfl, Nat.add_right_comm]
      simp [Nat.add_assoc]
    · obtain ⟨line, rest, h⟩ := List.exists_cons_of_ne_nil (splitLines_ne_nil pre)
      rw [splitLines_cons hc h, h, Position.advance, if_neg hc]
      simp

theorem visible_append {l line : List Char} (h : line ≠ [] ∨ l.getLast? ≠ some '\r') :
    ∃ line', visible (l ++ line) = l ++ line' := by
  unfold visible
  split
  · rename_i hlast
    rcases List.eq_nil_or_concat line with rfl | ⟨init, c, rfl⟩
    · rw [List.append_nil] at hlast
      exact absurd hlast (h.resolve_left (by simp))
    · refine ⟨init, ?_⟩
      rw [List.concat_eq_append, ← List.append_assoc, List.dropLast_concat]
  · exact ⟨line, rfl⟩

/-- A boundary is found again by its position, unless a carriage return before it ends its line. -/
theorem offset?_endPosition (hsize : text.utf8ByteSize ≤ Span.maxOffset) {as bs : List Char}
    (h : text.toList = as ++ bs)
    (hvis : as.getLast? ≠ some '\r' ∨ ∃ c cs, bs = c :: cs ∧ c ≠ '\n') :
    (ofText text).offset? (endPosition as) = some (byteLength as) := by
  obtain ⟨head, l, rfl, hl, hhead⟩ := exists_lastLine as
  obtain ⟨line, rest, hbs⟩ := List.exists_cons_of_ne_nil (splitLines_ne_nil bs)
  have hlast := splitLines_append hl hbs
  have hline : line ≠ [] ∨ l.getLast? ≠ some '\r' := by
    rcases hvis with hr | ⟨c, cs, rfl, hc⟩
    · right
      intro hl'
      apply hr
      rw [List.getLast?_append, hl']
      rfl
    · left
      obtain ⟨line', rest', h'⟩ := List.exists_cons_of_ne_nil (splitLines_ne_nil cs)
      rw [splitLines_cons hc h', List.cons.injEq] at hbs
      rw [← hbs.1]
      simp
  obtain ⟨line', hvisible⟩ := visible_append hline
  rcases hhead with rfl | ⟨pre, rfl⟩
  · have hpos : endPosition ([] ++ l) = ⟨0, unitLength l⟩ := by
      simpa [endPosition] using foldl_advance_line ⟨0, 0⟩ hl
    rw [hpos, offset?_eq hsize, ofText, h, List.nil_append, hlast]
    simp [lineStart, hvisible, bytesBefore_unitLength]
  · have hpos : endPosition (pre ++ ['\n'] ++ l) = ⟨(splitLines pre).length, unitLength l⟩ := by
      rw [endPosition, List.foldl_append, foldl_advance_lines, foldl_advance_line _ hl]
      simp
    have hlines : splitLines text.toList = splitLines pre ++ ((l ++ line) :: rest) := by
      rw [h, List.append_assoc, List.append_assoc, List.singleton_append,
        splitLines_append_newline, hlast]
    have hnewline : '\n'.utf8Size = 1 := by decide
    rw [hpos, offset?_eq hsize, ofText, hlines]
    simp only [lineStart, List.take_left', List.getElem?_append_right, Nat.le_refl,
      Nat.sub_self, List.getElem?_cons_zero, Option.map_some, lineBytes_splitLines, hvisible,
      bytesBefore_unitLength, byteLength_append, byteLength_cons, byteLength_nil, hnewline]

end Xref.LineIndex
