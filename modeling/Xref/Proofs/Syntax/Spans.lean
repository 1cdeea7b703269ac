import Xref.Proofs.Syntax.Locating
import Xref.Proofs.Text.Offsets
import Xref.Project.Documents

/-!
# Spans of tokens

The tokens of a source text lie one behind the other (`span_stop_le`), each at its characters
(`exists_split`). If offsets can count the bytes of the text, the range of a word leads back to its
span (`spanOf?_range`), as neither of its ends lies between the two characters of a line end.
-/

namespace Xref

section
variable {source : String} {t t' : Token}

/-! ## Numbers -/

theorem getElem?_sourceTokens (i : Nat) :
    (sourceTokens source)[i]? =
      (lex source)[i]?.map fun l => ⟨i, bytesOf ((lex source).take i), l⟩ := by
  rw [sourceTokens, getElem?_tokensFrom]
  simp only [Place.start, Nat.zero_add]

/-- The number of a token is its place among the tokens. -/
theorem mem_sourceTokens : t ∈ sourceTokens source ↔ (sourceTokens source)[t.id]? = some t := by
  refine ⟨fun h => ?_, List.mem_of_getElem?⟩
  obtain ⟨i, hi⟩ := List.getElem?_of_mem h
  have hnumber := hi
  rw [getElem?_sourceTokens, Option.map_eq_some_iff] at hnumber
  obtain ⟨l, -, rfl⟩ := hnumber
  exact hi

theorem eq_of_id_eq (h : t ∈ sourceTokens source) (h' : t' ∈ sourceTokens source)
    (hid : t.id = t'.id) : t = t' := by
  rw [mem_sourceTokens] at h h'
  rw [hid, h'] at h
  exact (Option.some.inj h).symm

theorem pairwise_id_sourceTokens : (sourceTokens source).Pairwise fun t t' => t.id < t'.id := by
  refine List.pairwise_iff_getElem.2 fun i j hi hj hij => ?_
  have hgeti := List.getElem?_eq_getElem hi
  have hgetj := List.getElem?_eq_getElem hj
  rw [getElem?_sourceTokens] at hgeti hgetj
  obtain ⟨l, -, hl⟩ := Option.map_eq_some_iff.1 hgeti
  obtain ⟨l', -, hl'⟩ := Option.map_eq_some_iff.1 hgetj
  rw [← hl, ← hl']
  exact hij

theorem nodup_ids_sourceTokens : ((sourceTokens source).map Token.id).Nodup :=
  List.pairwise_map.2 (pairwise_id_sourceTokens.imp Nat.ne_of_lt)

theorem lexeme_of_mem (h : t ∈ sourceTokens source) :
    (lex source)[t.id]? = some t.lexeme ∧ t.offset = bytesOf ((lex source).take t.id) := by
  rw [mem_sourceTokens, getElem?_sourceTokens, Option.map_eq_some_iff] at h
  obtain ⟨l, hl, h⟩ := h
  rw [← h]
  exact ⟨hl, rfl⟩

/-- The token with a number in the tree of a text. -/
theorem Tree.token?_ofSource (h : t ∈ sourceTokens source) :
    (Tree.ofSource source).token? t.id = some t := by
  show (sourceTokens source).toArray[t.id]? = some t
  rw [List.getElem?_toArray]
  exact mem_sourceTokens.1 h

/-! ## Order -/

theorem span_in_fullSpan (t : Token) :
    t.fullSpan.start ≤ t.span.start ∧ t.span.stop ≤ t.fullSpan.stop ∧
      t.span.stop = t.span.start + t.text.utf8ByteSize := by
  simp only [Token.fullSpan, Token.span, Lexeme.source, String.utf8ByteSize_append,
    Token.leadingText, Token.text]
  refine ⟨?_, ?_, trivial⟩ <;> omega

theorem bytesOf_take_le (ls : List Lexeme) {i j : Nat} (h : i ≤ j) :
    bytesOf (ls.take i) ≤ bytesOf (ls.take j) := by
  have hsplit := List.take_append_drop i (ls.take j)
  rw [List.take_take, Nat.min_eq_left h] at hsplit
  rw [← hsplit, bytesOf_append]
  omega

theorem fullSpan_stop_le (h : t ∈ sourceTokens source) (h' : t' ∈ sourceTokens source)
    (hlt : t.id < t'.id) : t.fullSpan.stop ≤ t'.fullSpan.start := by
  obtain ⟨hl, hoffset⟩ := lexeme_of_mem h
  obtain ⟨-, hoffset'⟩ := lexeme_of_mem h'
  have hnext : bytesOf ((lex source).take (t.id + 1)) =
      bytesOf ((lex source).take t.id) + t.lexeme.source.utf8ByteSize := by
    rw [List.take_add_one, hl, bytesOf_append]
    rfl
  show t.offset + t.lexeme.source.utf8ByteSize ≤ t'.offset
  rw [hoffset, hoffset', ← hnext]
  exact bytesOf_take_le _ hlt

/-- Tokens lie one behind the other. -/
theorem span_stop_le (h : t ∈ sourceTokens source) (h' : t' ∈ sourceTokens source)
    (hlt : t.id < t'.id) : t.span.stop ≤ t'.span.start :=
  ((span_in_fullSpan t).2.1.trans (fullSpan_stop_le h h' hlt)).trans (span_in_fullSpan t').1

/-- Only the last token is the end of the file. -/
theorem kind_ne_of_lt (h : t ∈ sourceTokens source) (h' : t' ∈ sourceTokens source)
    (hlt : t.id < t'.id) : t.kind ≠ .endOfFile := by
  have hl := (lexeme_of_mem h).1
  obtain ⟨hlength, -⟩ := List.getElem?_eq_some_iff.1 (lexeme_of_mem h').1
  rw [lex, List.length_append, List.length_singleton] at hlength
  rw [lex, List.getElem?_append_left (Nat.lt_of_lt_of_le hlt (Nat.le_of_lt_succ hlength))] at hl
  exact (kind_ne_of_mem_lexemes (List.mem_of_getElem? hl)).2

/-! ## Characters -/

theorem byteLength_flatMap_chars (ls : List Lexeme) :
    Text.byteLength (ls.flatMap Lexeme.chars) = bytesOf ls := by
  induction ls with
  | nil => rfl
  | cons l ls ih =>
    rw [List.flatMap_cons, Text.byteLength_append, ih, bytesOf_cons, Lexeme.chars,
      Text.utf8ByteSize_eq]

/-- **A token lies at its characters.** -/
theorem exists_split (h : t ∈ sourceTokens source) :
    ∃ as bs, source.toList = as ++ (t.text.toList ++ bs) ∧ Text.byteLength as = t.span.start := by
  obtain ⟨hl, hoffset⟩ := lexeme_of_mem h
  have hsplit : lex source =
      (lex source).take t.id ++ (t.lexeme :: (lex source).drop (t.id + 1)) := by
    obtain ⟨hlt, hget⟩ := List.getElem?_eq_some_iff.1 hl
    rw [← hget, ← List.drop_eq_getElem_cons hlt, List.take_append_drop]
  refine ⟨((lex source).take t.id).flatMap Lexeme.chars ++ t.leadingText.toList,
    t.trailingText.toList ++ ((lex source).drop (t.id + 1)).flatMap Lexeme.chars, ?_, ?_⟩
  · rw [← flatMap_chars_lex source]
    conv_lhs => rw [hsplit, List.flatMap_append, List.flatMap_cons, Lexeme.chars_eq]
    simp only [List.append_assoc]
    rfl
  · rw [Text.byteLength_append, byteLength_flatMap_chars, ← hoffset, ← Text.utf8ByteSize_eq]
    rfl

/-! ## Names -/

theorem text_ne_of_kind (h : t ∈ sourceTokens source) (hkind : t.kind ≠ .endOfFile) :
    t.text ≠ "" := by
  have hmem : t.lexeme ∈ lex source := List.mem_of_getElem? (lexeme_of_mem h).1
  rw [lex, List.mem_append, List.mem_singleton] at hmem
  rcases hmem with hmem | hmem
  · exact (kind_ne_of_mem_lexemes hmem).1
  · rw [Token.kind, hmem] at hkind
    exact absurd rfl hkind

theorem isWord_of_mem (h : t ∈ sourceTokens source) (hkind : t.kind = .identifier) :
    isWord t.text ∧ wordKind t.text = .identifier :=
  isWord_of_mem_lex (List.mem_of_getElem? (lexeme_of_mem h).1) hkind

theorem span_start_lt (h : t ∈ sourceTokens source) (hkind : t.kind ≠ .endOfFile) :
    t.span.start < t.span.stop := by
  have hpos : 0 < Text.byteLength t.text.toList :=
    Text.byteLength_pos fun hnil => text_ne_of_kind h hkind (by simpa using hnil)
  rw [(span_in_fullSpan t).2.2, Text.utf8ByteSize_eq]
  omega

/-- Tokens that start at one place are the same token. -/
theorem eq_of_start_eq (h : t ∈ sourceTokens source) (h' : t' ∈ sourceTokens source)
    (heq : t.span.start = t'.span.start) : t = t' := by
  have hlt : ∀ {t t' : Token}, t ∈ sourceTokens source → t' ∈ sourceTokens source →
      t.id < t'.id → t.span.start < t'.span.start := fun h h' hlt =>
    Nat.lt_of_lt_of_le (span_start_lt h (kind_ne_of_lt h h' hlt)) (span_stop_le h h' hlt)
  rcases Nat.lt_trichotomy t.id t'.id with hid | hid | hid
  · exact absurd heq (hlt h h' hid).ne
  · exact eq_of_id_eq h h' hid
  · exact absurd heq.symm (hlt h' h hid).ne

/-- The start of a token is found again by its position. -/
theorem offset?_start (hsize : source.utf8ByteSize ≤ Span.maxOffset) (h : t ∈ sourceTokens source)
    (hkind : t.kind ≠ .endOfFile) :
    (LineIndex.ofText source).offset? ((LineIndex.ofText source).position t.span.start) =
      some t.span.start := by
  obtain ⟨as, bs, hsplit, hstart⟩ := exists_split h
  have hmem : t.lexeme ∈ lex source := List.mem_of_getElem? (lexeme_of_mem h).1
  have hlexeme : t.lexeme ∈ (scan source).1 := by
    rw [lex, List.mem_append, List.mem_singleton] at hmem
    refine hmem.resolve_right fun hend => hkind ?_
    rw [Token.kind, hend]
    rfl
  obtain ⟨c, rest, htext, hc⟩ := head_of_mem_lexemes (trivium?_trivia _) hlexeme
  rw [← hstart, LineIndex.position_ofText hsplit]
  exact LineIndex.offset?_endPosition hsize hsplit
    (.inr ⟨c, rest ++ bs, by rw [Token.text, htext]; rfl, hc⟩)

theorem ne_newline_of_continuesWord {c : Char} (h : continuesWord c) : c ≠ '\n' ∧ c ≠ '\r' := by
  constructor <;> rintro rfl <;> exact absurd h (by decide)

/-- A word is not the end of the file. -/
theorem kind_ne_of_isWord (h : t ∈ sourceTokens source) (hword : isWord t.text) :
    t.kind ≠ .endOfFile := by
  have hmem : t.lexeme ∈ lex source := List.mem_of_getElem? (lexeme_of_mem h).1
  rw [lex, List.mem_append, List.mem_singleton] at hmem
  rcases hmem with hmem | hmem
  · exact (kind_ne_of_mem_lexemes hmem).2
  · rw [Token.text, hmem] at hword
    exact absurd (show isWord "" from hword) (by decide)

/-- Both ends of a word are found again by their positions. -/
theorem offset?_position (hsize : source.utf8ByteSize ≤ Span.maxOffset)
    (h : t ∈ sourceTokens source) (hword : isWord t.text) :
    let index := LineIndex.ofText source
    index.offset? (index.position t.span.start) = some t.span.start ∧
      index.offset? (index.position t.span.stop) = some t.span.stop := by
  refine ⟨offset?_start hsize h (kind_ne_of_isWord h hword), ?_⟩
  obtain ⟨as, bs, hsplit, hstart⟩ := exists_split h
  obtain ⟨c, cs, htext, -, -⟩ := toList_of_isWord hword
  have hsplit' : source.toList = (as ++ t.text.toList) ++ bs := by rw [hsplit, List.append_assoc]
  have hstop : Text.byteLength (as ++ t.text.toList) = t.span.stop := by
    rw [Text.byteLength_append, hstart, (span_in_fullSpan t).2.2, Text.utf8ByteSize_eq]
  rw [← hstop, LineIndex.position_ofText hsplit']
  refine LineIndex.offset?_endPosition hsize hsplit' (.inl ?_)
  have hne : t.text.toList ≠ [] := by rw [htext]; exact List.cons_ne_nil _ _
  rw [List.getLast?_append_of_ne_nil _ hne]
  intro hlast
  have hmem := List.mem_of_getLast? hlast
  exact (ne_newline_of_continuesWord (continuesWord_of_isWord hword hmem)).2 rfl

/-- The range of a word leads back to its span. -/
theorem spanOf?_range (hsize : source.utf8ByteSize ≤ Span.maxOffset) (h : t ∈ sourceTokens source)
    (hword : isWord t.text) :
    let index := LineIndex.ofText source
    Documents.spanOf? index (index.range t.span) = some t.span := by
  obtain ⟨hstart, hstop⟩ := offset?_position hsize h hword
  have hle : t.span.start ≤ t.span.stop := by
    rw [(span_in_fullSpan t).2.2]
    exact Nat.le_add_right _ _
  simp only [Documents.spanOf?, LineIndex.range, hstart, hstop, if_pos hle]

/-! ## Positions -/

/-- The range of a token starts before those of all tokens behind it. -/
theorem range_start_before (h : t ∈ sourceTokens source) (h' : t' ∈ sourceTokens source)
    (hlt : t.id < t'.id) :
    ((LineIndex.ofText source).range t.span).start.Before
      ((LineIndex.ofText source).range t'.span).start := by
  obtain ⟨as, bs, hsplit, hstart⟩ := exists_split h
  obtain ⟨as', bs', hsplit', hstart'⟩ := exists_split h'
  have := span_start_lt h (kind_ne_of_lt h h' hlt)
  have := span_stop_le h h' hlt
  simp only [LineIndex.range]
  rw [← hstart, ← hstart']
  exact LineIndex.position_before hsplit hsplit' (by omega)

/-- Tokens at one range are the same token. -/
theorem eq_of_range_eq (h : t ∈ sourceTokens source) (h' : t' ∈ sourceTokens source)
    (heq : (LineIndex.ofText source).range t.span = (LineIndex.ofText source).range t'.span) :
    t = t' := by
  rcases Nat.lt_trichotomy t.id t'.id with hlt | hid | hlt
  · exact absurd (congrArg Range.start heq) (range_start_before h h' hlt).ne
  · exact eq_of_id_eq h h' hid
  · exact absurd (congrArg Range.start heq).symm (range_start_before h' h hlt).ne

/-- Tokens at one span are the same token. -/
theorem eq_of_span_eq (h : t ∈ sourceTokens source) (h' : t' ∈ sourceTokens source)
    (heq : t.span = t'.span) : t = t' :=
  eq_of_range_eq h h' (congrArg _ heq)

end

end Xref
