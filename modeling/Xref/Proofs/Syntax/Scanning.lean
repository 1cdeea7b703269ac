import Mathlib.Data.List.TakeWhile
import Xref.Syntax.Scan

/-!
# What scanning keeps

The lexemes of a text make up the text (`join_lex`), and an identifier is a word that the language
does not keep for itself (`isWord_of_mem_lex`). No token is empty or starts a new line.
-/

namespace Xref

/-! ## The characters of lexemes -/

@[simp] theorem Trivia.toList_join (ts : List Trivia) :
    (Trivia.join ts).toList = ts.flatMap fun t => t.text.toList := by
  rw [Trivia.join, String.toList_join, List.flatMap_map]

namespace Lexeme

/-- The characters that a lexeme stands for. -/
def chars (l : Lexeme) : List Char := l.source.toList

theorem chars_eq (l : Lexeme) :
    l.chars = (Trivia.join l.leading).toList ++ l.text.toList ++ (Trivia.join l.trailing).toList := by
  rw [chars, source, String.toList_append, String.toList_append]

end Lexeme

/-- The pieces of trivia at the front of a text make up what is cut off. -/
theorem trivia_append (oneLine : Bool) (cs : List Char) :
    (Trivia.join (trivia oneLine cs).1).toList ++ (trivia oneLine cs).2 = cs := by
  fun_induction trivia oneLine cs with
  | case1 => rfl
  | case2 cs p h hlt piece =>
    simpa [piece] using (trivium?_wholeOf h).1
  | case3 cs p h hlt piece _ more ih =>
    rw [Trivia.toList_join, List.flatMap_cons, List.append_assoc, ← Trivia.toList_join, ih]
    simpa [piece] using (trivium?_wholeOf h).1

/-- The lexemes of a text and the trivia that are left make up the text, with the trivia that
stood before it. -/
theorem lexemes_append (leading : List Trivia) (cs : List Char) :
    (lexemes leading cs).1.flatMap Lexeme.chars ++ (Trivia.join (lexemes leading cs).2).toList =
      (Trivia.join leading).toList ++ cs := by
  fun_induction lexemes leading cs with
  | case1 leading => simp
  | case2 leading c cs head trailing next hle more ih =>
    have htoken : head.text ++ head.rest = c :: cs := (token_wholeOf c cs).1
    have htrailing := trivia_append true head.rest
    have hnext := trivia_append false trailing.2
    rw [List.flatMap_cons, List.append_assoc, ih, Lexeme.chars_eq, hnext, String.toList_ofList,
      List.append_assoc, List.append_assoc, htrailing, htoken]

/-- **Scanning loses nothing.** -/
theorem flatMap_chars_lex (source : String) : (lex source).flatMap Lexeme.chars = source.toList := by
  have hfound := lexemes_append (trivia false source.toList).1 (trivia false source.toList).2
  rw [trivia_append false source.toList] at hfound
  refine Eq.trans ?_ hfound
  rw [lex, scan, List.flatMap_append]
  simp [Lexeme.chars_eq]

theorem join_lex (source : String) : String.join ((lex source).map Lexeme.source) = source := by
  apply String.toList_injective
  rw [String.toList_join, List.flatMap_map, ← flatMap_chars_lex source]
  rfl

/-! ## Words -/

theorem not_of_head?_dropWhile {p : Char → Bool} {cs : List Char} {d : Char}
    (hd : d ∈ (cs.dropWhile p).head?) : p d = false := by
  have hnot := List.head?_dropWhile_not p cs
  rw [Option.mem_def.1 hd] at hnot
  simpa using hnot

theorem continuesWord_of_startsWord {c : Char} (h : startsWord c) : continuesWord c := by
  unfold startsWord continuesWord Char.isAlphanum at *
  cases hα : c.isAlpha <;> simp_all

theorem isAlpha_of_startsWord {c : Char} (h : startsWord c) : c.isAlpha ∨ c = '_' := by
  simpa [startsWord] using h

theorem isDigit_of_startsWord {c : Char} (h : startsWord c) : c.isDigit = false := by
  rcases isAlpha_of_startsWord h with h | rfl
  · rw [Bool.eq_false_iff]
    intro hdigit
    delta Char.isAlpha Char.isUpper Char.isLower at h
    delta Char.isDigit at hdigit
    simp only [Bool.or_eq_true, Bool.and_eq_true, decide_eq_true_eq, ge_iff_le,
      UInt32.le_iff_toNat_le] at h hdigit
    have : '9'.val.toNat = 57 := rfl
    have : 'A'.val.toNat = 65 := rfl
    have : 'a'.val.toNat = 97 := rfl
    omega
  · decide

theorem isWord_ofList {c : Char} {cs : List Char} :
    isWord (String.ofList (c :: cs)) = (startsWord c && cs.all continuesWord) := by
  rw [isWord, String.toList_ofList]

theorem toList_of_isWord {w : String} (h : isWord w) :
    ∃ c cs, w.toList = c :: cs ∧ startsWord c ∧ cs.all continuesWord := by
  unfold isWord at h
  split at h
  · cases h
  · rename_i c cs heq
    exact ⟨c, cs, heq, by simpa using h⟩

theorem continuesWord_of_isWord {w : String} (h : isWord w) {c : Char} (hc : c ∈ w.toList) :
    continuesWord c := by
  obtain ⟨d, ds, hw, hd, hds⟩ := toList_of_isWord h
  rw [hw, List.mem_cons] at hc
  rcases hc with rfl | hc
  · exact continuesWord_of_startsWord hd
  · exact List.all_eq_true.1 hds c hc

theorem wordKind_eq_identifier {x : String} (hkeyword : x ∉ keywords) (hliteral : x ∉ literalWords) :
    wordKind x = .identifier := by
  rw [wordKind, if_neg (by simpa using hliteral), if_neg (by simpa using hkeyword)]

theorem token_of_startsWord {c : Char} {cs : List Char} (hc : startsWord c) :
    token c cs = ⟨wordKind (String.ofList (c :: cs.takeWhile continuesWord)),
      c :: cs.takeWhile continuesWord, cs.dropWhile continuesWord⟩ := by
  unfold token
  rw [if_pos hc]

/-- A token that does not start like a word is a literal, a mark or a single other character. A mark
has two characters, or what follows makes no double one of it. -/
theorem token_of_not_startsWord {c : Char} (hc : ¬ startsWord c) (cs : List Char) :
    (token c cs).kind = .literal ∨ (token c cs).kind = .unknown ∨
      (token c cs).kind = .punctuation ∧ ((∃ d, (token c cs).text = [c, d]) ∨
        (token c cs).rest = cs ∧ ∀ d ∈ cs.head?, (c, d) ∉ doublePunctuation) := by
  unfold token
  rw [if_neg hc]
  split
  · exact .inl rfl
  split
  · refine .inl ?_
    dsimp only
    split <;> rfl
  split
  · rename_i hdouble
    refine .inr (.inr ⟨rfl, .inl ?_⟩)
    cases cs with
    | nil => cases hdouble
    | cons d cs => exact ⟨d, rfl⟩
  · rename_i hdouble
    split
    · refine .inr (.inr ⟨rfl, .inr ⟨rfl, fun d hd hmem => hdouble ?_⟩⟩)
      rw [Option.mem_def.1 hd]
      exact List.contains_iff_mem.2 hmem
    · exact .inr (.inl rfl)

/-- A word is a token of its own, as far as no character that could go on with it follows. -/
theorem token_word {c : Char} {cs rest : List Char} (hc : startsWord c)
    (hcs : cs.all continuesWord) (hrest : ∀ d ∈ rest.head?, ¬ continuesWord d) :
    token c (cs ++ rest) = ⟨wordKind (String.ofList (c :: cs)), c :: cs, rest⟩ := by
  have htake : (cs ++ rest).takeWhile continuesWord = cs := by
    rw [List.takeWhile_append_of_pos (by simpa using hcs)]
    cases rest with
    | nil => simp
    | cons d rest => simp [hrest d rfl]
  have hdrop : (cs ++ rest).dropWhile continuesWord = rest := by
    rw [List.dropWhile_append_of_pos (by simpa using hcs)]
    cases rest with
    | nil => rfl
    | cons d rest => simp [hrest d rfl]
  rw [token_of_startsWord hc, htake, hdrop]

/-- Only a token that starts like a word is an identifier. -/
theorem startsWord_of_token {c : Char} {cs : List Char} (h : (token c cs).kind = .identifier) :
    startsWord c := by
  by_contra hc
  rcases token_of_not_startsWord hc cs with hkind | hkind | ⟨hkind, -⟩
  all_goals
    rw [hkind] at h
    cases h

theorem isWord_of_token {c : Char} {cs : List Char} (h : (token c cs).kind = .identifier) :
    isWord (String.ofList (token c cs).text) ∧
      wordKind (String.ofList (token c cs).text) = .identifier := by
  have hc := startsWord_of_token h
  rw [token_of_startsWord hc] at h ⊢
  refine ⟨?_, h⟩
  rw [isWord_ofList, hc, Bool.true_and, List.all_eq_true]
  exact fun d hd => List.mem_takeWhile_imp hd

/-- The text of every identifier has the form of a name and is no word of the language. -/
theorem isWord_of_mem_lexemes {leading : List Trivia} {cs : List Char} {l : Lexeme}
    (hl : l ∈ (lexemes leading cs).1) (h : l.kind = .identifier) :
    isWord l.text ∧ wordKind l.text = .identifier := by
  fun_induction lexemes leading cs with
  | case1 => cases hl
  | case2 leading c cs head trailing next hle more ih =>
    rcases List.mem_cons.1 hl with rfl | hl
    · exact isWord_of_token h
    · exact ih hl

theorem isWord_of_mem_lex {source : String} {l : Lexeme} (hl : l ∈ lex source)
    (h : l.kind = .identifier) : isWord l.text ∧ wordKind l.text = .identifier := by
  rw [lex, List.mem_append, List.mem_singleton] at hl
  rcases hl with hl | rfl
  · exact isWord_of_mem_lexemes hl h
  · cases h

/-! ## No token is empty -/

theorem wordKind_cases (w : String) :
    wordKind w = .literal ∨ wordKind w = .keyword ∨ wordKind w = .identifier := by
  unfold wordKind
  split
  · exact .inl rfl
  split
  · exact .inr (.inl rfl)
  · exact .inr (.inr rfl)

theorem token_kind_ne (c : Char) (cs : List Char) : (token c cs).kind ≠ .endOfFile := by
  intro hkind
  by_cases hc : startsWord c
  · rw [token_of_startsWord hc] at hkind
    rcases wordKind_cases (String.ofList (c :: cs.takeWhile continuesWord)) with h | h | h
    all_goals
      rw [h] at hkind
      cases hkind
  · rcases token_of_not_startsWord hc cs with h | h | ⟨h, -⟩
    all_goals
      rw [h] at hkind
      cases hkind

theorem kind_ne_of_mem_lexemes {leading : List Trivia} {cs : List Char} {l : Lexeme}
    (hl : l ∈ (lexemes leading cs).1) : l.text ≠ "" ∧ l.kind ≠ .endOfFile := by
  fun_induction lexemes leading cs with
  | case1 => cases hl
  | case2 leading c cs head trailing next hle more ih =>
    rcases List.mem_cons.1 hl with rfl | hl
    · refine ⟨fun h => (token_wholeOf c cs).2 ?_, token_kind_ne c cs⟩
      exact String.ofList_injective (h.trans String.ofList_nil.symm)
    · exact ih hl

/-! ## No token starts a line -/

/-- Where trivia end no more of them start. -/
theorem trivium?_trivia (cs : List Char) : trivium? (trivia false cs).2 = none := by
  generalize honeLine : false = oneLine
  fun_induction trivia oneLine cs with
  | case1 cs h => exact h
  | case2 cs p h hlt piece hline =>
    subst honeLine
    cases hline
  | case3 cs p h hlt piece _ more ih => exact ih

/-- No token starts with a newline. -/
theorem head_of_mem_lexemes {leading : List Trivia} {cs : List Char} {l : Lexeme}
    (hcs : trivium? cs = none) (hl : l ∈ (lexemes leading cs).1) :
    ∃ c rest, l.text.toList = c :: rest ∧ c ≠ '\n' := by
  fun_induction lexemes leading cs with
  | case1 => cases hl
  | case2 leading c cs head trailing next hle more ih =>
    rcases List.mem_cons.1 hl with rfl | hl
    · obtain ⟨htext, hne⟩ := token_wholeOf c cs
      obtain ⟨d, rest, hd⟩ := List.exists_cons_of_ne_nil hne
      rw [hd, List.cons_append, List.cons.injEq] at htext
      refine ⟨d, rest, ?_, ?_⟩
      · rw [String.toList_ofList]
        exact hd
      · rintro rfl
        rw [← htext.1] at hcs
        cases hcs
    · exact ih (trivium?_trivia _) hl

end Xref
