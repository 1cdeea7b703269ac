import Xref.Proofs.Text.Offsets

/-!
# Positions and offsets

A line of a text lies between two newlines or at an end of the text, and what positions address of it
is its content, all but one final carriage return. A line index converts between positions and
offsets without drift (`LineIndex.converts`): a position leads to the first boundary in the content
of its line whose column is large enough, and every boundary in a content is found again.
-/

namespace Xref.LineIndex

open Text

/-! ## Lines and their contents -/

/-- Whether `line` is the line of a text with number `n`: before it are the lines with smaller
numbers, each with its newline, and behind it there is a newline or nothing. -/
structure IsLine (cs : List Char) (n : Nat) (before line behind : List Char) : Prop where
  whole : cs = before ++ (line ++ behind)
  number : before.count '\n' = n
  starts : before = [] ∨ before.getLast? = some '\n'
  stops : behind = [] ∨ behind.head? = some '\n'
  unbroken : '\n' ∉ line

/-- Whether `content` is a line less one final carriage return. -/
def IsContent (line content : List Char) : Prop :=
  line = content ++ ['\r'] ∨ line = content ∧ content.getLast? ≠ some '\r'

/-- Whether the first boundary in a content whose column is at least `column` lies behind `part`. If
there is none, it is the end of the content. -/
structure IsFirstFrom (content : List Char) (column : Nat) (part : List Char) : Prop where
  inside : part <+: content
  reaches : column ≤ unitLength part ∨ part = content
  first : ∀ earlier, earlier <+: content → earlier.length < part.length →
    unitLength earlier < column

/-- Whether the line index of a text converts between positions and offsets without drift. -/
structure Converts (text : String) : Prop where
  /-- There are as many lines as newlines, and one more. -/
  exists_line : ∀ n ≤ text.toList.count '\n', ∃ before line behind content,
    IsLine text.toList n before line behind ∧ IsContent line content
  /-- A position without a line has no offset. -/
  none_iff : ∀ p : Position,
    (ofText text).offset? p = none ↔ text.toList.count '\n' < p.line
  /-- A position leads to the first boundary in its line whose column is large enough. -/
  offset : ∀ (p : Position) {before line behind content : List Char},
    IsLine text.toList p.line before line behind → IsContent line content →
    ∃ part, IsFirstFrom content p.character part ∧
      (ofText text).offset? p = some (byteLength before + byteLength part) ∧
      ((ofText text).position (byteLength before + byteLength part)).line = p.line
  /-- The column of a boundary counts the units between the start of its line and the boundary. -/
  position : ∀ {n : Nat} {before line behind part : List Char},
    IsLine text.toList n before line behind → part <+: line →
      (ofText text).position (byteLength before + byteLength part) = ⟨n, unitLength part⟩
  /-- A boundary in the content of a line is found again by its position. -/
  back : ∀ {n : Nat} {before line behind content part : List Char},
    IsLine text.toList n before line behind → IsContent line content → part <+: content →
      (ofText text).offset? ((ofText text).position (byteLength before + byteLength part)) =
        some (byteLength before + byteLength part)
  /-- Of two boundaries of a text the one at the smaller offset comes first. -/
  increasing : ∀ {as bs as' bs' : List Char}, text.toList = as ++ bs → text.toList = as' ++ bs' →
    byteLength as < byteLength as' →
      ((ofText text).position (byteLength as)).Before ((ofText text).position (byteLength as'))
  /-- Behind the end of a text is the end. -/
  clamped : ∀ offset, text.utf8ByteSize ≤ offset →
    (ofText text).position offset = (ofText text).position text.utf8ByteSize

variable {cs before line behind content part : List Char} {n : Nat} {text : String}

theorem exists_isContent (line : List Char) : ∃ content, IsContent line content := by
  by_cases h : line.getLast? = some '\r'
  · obtain ⟨content, rfl⟩ := List.getLast?_eq_some_iff.1 h
    exact ⟨content, .inl rfl⟩
  · exact ⟨line, .inr ⟨rfl, h⟩⟩

theorem IsContent.visible_eq (h : IsContent line content) : visible line = content := by
  rcases h with rfl | ⟨rfl, hlast⟩
  · rw [visible, if_pos List.getLast?_concat, List.dropLast_concat]
  · rw [visible, if_neg hlast]

theorem IsContent.isPrefix (h : IsContent line content) : content <+: line := by
  rcases h with rfl | ⟨rfl, -⟩
  · exact List.prefix_append _ _
  · exact List.prefix_rfl

/-- A text starts with a line that reaches up to its first newline. -/
theorem exists_firstLine (cs : List Char) : ∃ line behind, cs = line ++ behind ∧
    (behind = [] ∨ behind.head? = some '\n') ∧ '\n' ∉ line := by
  induction cs with
  | nil => exact ⟨[], [], rfl, .inl rfl, by simp⟩
  | cons c cs ih =>
    by_cases hc : c = '\n'
    · exact ⟨[], c :: cs, rfl, .inr (by rw [hc]; rfl), by simp⟩
    · obtain ⟨line, behind, rfl, hstops, hunbroken⟩ := ih
      exact ⟨c :: line, behind, rfl, hstops, by simp [hunbroken, Ne.symm hc]⟩

theorem exists_isLine (h : n ≤ cs.count '\n') :
    ∃ before line behind, IsLine cs n before line behind := by
  induction n with
  | zero =>
    obtain ⟨line, behind, hwhole, hstops, hunbroken⟩ := exists_firstLine cs
    exact ⟨[], line, behind, hwhole, rfl, .inl rfl, hstops, hunbroken⟩
  | succ n ih =>
    obtain ⟨before, line, behind, hline⟩ := ih (Nat.le_of_succ_le h)
    have hcount : cs.count '\n' = n + behind.count '\n' := by
      rw [hline.whole, List.count_append, List.count_append, hline.number,
        List.count_eq_zero.2 hline.unbroken, Nat.zero_add]
    -- The next line starts behind the newline that ends this one.
    rcases hline.stops with rfl | hnewline
    · rw [hcount] at h
      exact absurd h (Nat.not_succ_le_self n)
    · obtain ⟨rest, rfl⟩ := List.head?_eq_some_iff.1 hnewline
      obtain ⟨next, behind, rfl, hstops, hunbroken⟩ := exists_firstLine rest
      refine ⟨before ++ line ++ ['\n'], next, behind, ?_, ?_, .inr List.getLast?_concat, hstops,
        hunbroken⟩
      · rw [hline.whole]
        simp
      · rw [List.count_append, List.count_append, hline.number,
          List.count_eq_zero.2 hline.unbroken]
        rfl

/-! ## Lines of an index -/

theorem length_splitLines (cs : List Char) : (splitLines cs).length = cs.count '\n' + 1 := by
  induction cs with
  | nil => rfl
  | cons c cs ih =>
    by_cases hc : c = '\n'
    · rw [hc, splitLines_newline, List.length_cons, ih, List.count_cons_self]
    · obtain ⟨line, rest, h⟩ := List.exists_cons_of_ne_nil (splitLines_ne_nil cs)
      rw [h, List.length_cons] at ih
      rw [splitLines_cons hc h, List.length_cons, ih, List.count_cons_of_ne hc]

/-- A line up to its newline is the first of the lines from there on. -/
theorem exists_splitLines (hstops : behind = [] ∨ behind.head? = some '\n')
    (hunbroken : '\n' ∉ line) : ∃ rest, splitLines (line ++ behind) = line :: rest := by
  have halone : splitLines line = [line] := by
    have hnil : splitLines [] = [[]] := rfl
    simpa using splitLines_append hunbroken hnil
  rcases hstops with rfl | hnewline
  · exact ⟨[], by rw [List.append_nil, halone]⟩
  · obtain ⟨rest, rfl⟩ := List.head?_eq_some_iff.1 hnewline
    exact ⟨splitLines rest, by rw [splitLines_append_newline, halone, List.singleton_append]⟩

namespace IsLine

variable (h : IsLine cs n before line behind)

include h

/-- What lies before a line is no line at all, or it ends with the newline of the line before. -/
theorem before_cases :
    before = [] ∧ n = 0 ∨ ∃ head, before = head ++ ['\n'] ∧ n = (splitLines head).length := by
  rcases h.starts with rfl | hlast
  · exact .inl ⟨rfl, h.number.symm⟩
  · obtain ⟨head, rfl⟩ := List.getLast?_eq_some_iff.1 hlast
    refine .inr ⟨head, rfl, ?_⟩
    rw [length_splitLines, ← h.number, List.count_append]
    rfl

/-- A line stands at its number in the line index, behind the bytes of what is before it. -/
theorem exists_lines : ∃ head rest, splitLines cs = head ++ line :: rest ∧ head.length = n ∧
    head.foldr (fun line bytes => byteLength line + 1 + bytes) 0 = byteLength before := by
  obtain ⟨rest, hrest⟩ := exists_splitLines h.stops h.unbroken
  have hsize : '\n'.utf8Size = 1 := by decide
  rcases h.before_cases with ⟨rfl, rfl⟩ | ⟨head, rfl, rfl⟩
  · exact ⟨[], rest, by rw [h.whole, List.nil_append, hrest]; rfl, rfl, rfl⟩
  · refine ⟨splitLines head, rest, ?_, rfl, ?_⟩
    · rw [h.whole, List.append_assoc, List.singleton_append, splitLines_append_newline, hrest]
    · rw [lineBytes_splitLines, byteLength_append, byteLength_cons, byteLength_nil, hsize]

theorem endPosition_eq (hpart : '\n' ∉ part) : endPosition (before ++ part) = ⟨n, unitLength part⟩ := by
  rcases h.before_cases with ⟨rfl, rfl⟩ | ⟨head, rfl, rfl⟩
  · rw [List.nil_append, endPosition, foldl_advance_line _ hpart, Nat.zero_add]
  · rw [endPosition, List.foldl_append, foldl_advance_lines, foldl_advance_line _ hpart,
      Nat.zero_add, Nat.zero_add]

end IsLine

section
variable (h : IsLine text.toList n before line behind)

include h

theorem position_of_isLine (hpart : part <+: line) :
    (ofText text).position (byteLength before + byteLength part) = ⟨n, unitLength part⟩ := by
  obtain ⟨more, rfl⟩ := hpart
  have hwhole : text.toList = (before ++ part) ++ (more ++ behind) := by
    rw [h.whole]
    simp
  rw [← byteLength_append, position_ofText hwhole]
  exact h.endPosition_eq fun hmem => h.unbroken (List.mem_append_left _ hmem)

theorem offset?_of_isLine (hsize : text.utf8ByteSize ≤ Span.maxOffset)
    (hcontent : IsContent line content) (column : Nat) :
    (ofText text).offset? ⟨n, column⟩ =
      some (byteLength before + bytesBefore content column) := by
  obtain ⟨head, rest, hlines, rfl, hbytes⟩ := h.exists_lines
  rw [offset?_eq hsize, ofText, hlines]
  simp only [lineStart, List.take_left', List.getElem?_append_right, Nat.le_refl, Nat.sub_self,
    List.getElem?_cons_zero, Option.map_some, hbytes, hcontent.visible_eq]

end

/-! ## The first boundary from a column on -/

/-- Counting bytes up to a column comes to the first boundary from there on. -/
theorem exists_isFirstFrom (content : List Char) (column : Nat) : ∃ part,
    IsFirstFrom content column part ∧ bytesBefore content column = byteLength part := by
  induction content generalizing column with
  | nil => exact ⟨[], ⟨List.prefix_rfl, .inr rfl, fun _ _ hlt => nomatch hlt⟩, rfl⟩
  | cons c content ih =>
    by_cases hzero : column = 0
    · refine ⟨[], ⟨List.nil_prefix, .inl (hzero ▸ Nat.zero_le _), fun _ _ hlt => nomatch hlt⟩, ?_⟩
      rw [bytesBefore, if_pos hzero, byteLength_nil]
    · obtain ⟨part, hpart, hbytes⟩ := ih (column - Text.unitsOf c)
      refine ⟨c :: part, ⟨(List.prefix_cons_inj c).2 hpart.inside, ?_, ?_⟩, ?_⟩
      · rw [unitLength_cons]
        rcases hpart.reaches with hle | rfl
        · exact .inl (by omega)
        · exact .inr rfl
      · intro earlier hearlier hlt
        cases earlier with
        | nil => exact Nat.pos_of_ne_zero hzero
        | cons d earlier =>
          obtain ⟨rfl, hinside⟩ := List.cons_prefix_cons.1 hearlier
          have hless := hpart.first earlier hinside (Nat.lt_of_succ_lt_succ hlt)
          rw [unitLength_cons]
          omega
      · rw [bytesBefore, if_neg hzero, hbytes, byteLength_cons]

/-! ## Behind the end -/

/-- All offsets from the end of the last line on are at one position. -/
theorem seek_clamped (lines : List (List Char)) (n : Nat) {offset : Nat}
    (h : lines.foldr (fun line bytes => byteLength line + 1 + bytes) 0 ≤ offset + 1) :
    seek lines n offset =
      seek lines n (lines.foldr (fun line bytes => byteLength line + 1 + bytes) 0 - 1) := by
  induction lines generalizing n offset with
  | nil => rfl
  | cons line rest ih =>
    cases rest with
    | nil =>
      rw [List.foldr_cons, List.foldr_nil] at h
      rw [seek, seek, List.foldr_cons, List.foldr_nil, Nat.min_eq_right (by omega),
        Nat.min_eq_right (by omega)]
    | cons next rest =>
      have hpos : 0 < (next :: rest).foldr (fun line bytes => byteLength line + 1 + bytes) 0 := by
        rw [List.foldr_cons]
        omega
      rw [List.foldr_cons] at h
      rw [seek, seek, if_neg (by omega), List.foldr_cons, if_neg (by omega), ih _ (by omega)]
      congr 1
      omega

/-! ## Both ways -/

/-- **A line index converts between positions and offsets without drift,** if offsets can count the
bytes of its text. -/
theorem converts (hsize : text.utf8ByteSize ≤ Span.maxOffset) : Converts text where
  exists_line n hn := by
    obtain ⟨before, line, behind, hline⟩ := exists_isLine hn
    obtain ⟨content, hcontent⟩ := exists_isContent line
    exact ⟨before, line, behind, content, hline, hcontent⟩
  none_iff p := by
    rw [offset?_eq hsize, Option.map_eq_none_iff, List.getElem?_eq_none_iff, ofText,
      length_splitLines, Nat.succ_le_iff]
  offset p before line behind content hline hcontent := by
    obtain ⟨part, hpart, hbytes⟩ := exists_isFirstFrom content p.character
    refine ⟨part, hpart, ?_, ?_⟩
    · rw [← hbytes]
      exact offset?_of_isLine hline hsize hcontent p.character
    · rw [position_of_isLine hline (hpart.inside.trans hcontent.isPrefix)]
  position hline hpart := position_of_isLine hline hpart
  back hline hcontent hpart := by
    rw [position_of_isLine hline (hpart.trans hcontent.isPrefix),
      offset?_of_isLine hline hsize hcontent]
    obtain ⟨more, rfl⟩ := hpart
    rw [bytesBefore_unitLength]
  increasing h h' hlt := position_before h h' hlt
  clamped offset hoffset := by
    have hbytes := lineBytes_splitLines text.toList
    rw [← utf8ByteSize_eq] at hbytes
    have hbehind := seek_clamped (splitLines text.toList) 0
      (Nat.le_trans (Nat.le_of_eq hbytes) (Nat.succ_le_succ hoffset))
    rw [hbytes, Nat.add_sub_cancel] at hbehind
    exact hbehind

theorem converts_surrogates :
    "a𝕏\r\nb".utf8ByteSize ≤ Span.maxOffset ∧ Converts "a𝕏\r\nb" :=
  have hsize : "a𝕏\r\nb".utf8ByteSize ≤ Span.maxOffset := by decide
  ⟨hsize, converts hsize⟩

/-- A column within a character that takes two units means the end of this character, and one behind
the visible part of a line the end of this part. -/
example : (ofText "a𝕏\r\nb").offset? ⟨0, 2⟩ = some 5 ∧ (ofText "a𝕏\r\nb").offset? ⟨0, 9⟩ = some 5 ∧
    (ofText "a𝕏\r\nb").position 6 = ⟨0, 4⟩ := by decide

end Xref.LineIndex
