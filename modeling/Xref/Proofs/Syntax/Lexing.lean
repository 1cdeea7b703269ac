import Xref.Proofs.Syntax.Scanning
import Xref.Proofs.Text.Bytes
import Xref.Proofs.Text.Replacements

/-!
# The lexemes of a text

Scanning gives a text its lexemes one after the other (`Scanned`), so what is said of a lexeme is
said of the token that is cut off the front of what is left of the text. Every text has lexemes that
make it up, of which the last one alone is the end of the file, and no token could be longer
(`lex_lexed`).
-/

namespace Xref

/-- The pieces of a source that a lexeme stands for, in order. -/
def Lexeme.pieces (l : Lexeme) : List String :=
  l.leading.map Trivia.text ++ l.text :: l.trailing.map Trivia.text

/-- The characters behind the token of a lexeme that others come after. -/
def Lexeme.behind (l : Lexeme) (after : List Lexeme) : List Char :=
  (Trivia.join l.trailing).toList ++ after.flatMap Lexeme.chars

/-- Whether a token cannot be longer than it is, given the characters behind it. -/
structure Maximal (kind : TokenKind) (text : String) (behind : List Char) : Prop where
  /-- A word ends where no name could go on. -/
  word (hword : isWord text) : ∀ d ∈ behind.head?, ¬ continuesWord d
  /-- A number ends where no digit follows. -/
  number (hne : text ≠ "") (hdigits : text.toList.all Char.isDigit) :
    ∀ d ∈ behind.head?, ¬ d.isDigit
  /-- A single mark is no part of a double one and starts no comment. -/
  punctuation {c : Char} (hkind : kind = .punctuation) (htext : text.toList = [c]) :
    ∀ d ∈ behind.head?, (c, d) ∉ doublePunctuation ∧ ¬ (c = '/' ∧ (d = '/' ∨ d = '*'))

theorem Maximal.of_nil {kind : TokenKind} {text : String} : Maximal kind text [] where
  word _ _ hd := nomatch hd
  number _ _ _ hd := nomatch hd
  punctuation _ _ _ hd := nomatch hd

/-- What the lexemes of a source are like. What is said of a lexeme and of those after it is said
of any end of the list. -/
structure Lexed (source : String) (ls : List Lexeme) : Prop where
  /-- Nothing is lost and nothing changes its place. -/
  join : String.join (ls.map Lexeme.source) = source
  /-- Every piece ends between two characters. -/
  boundary (n : Nat) :
    IsBoundary source.toList (String.join ((ls.flatMap Lexeme.pieces).take n)).utf8ByteSize
  /-- The last lexeme is the end of the file, and no other one is. -/
  ending : ∃ found last, ls = found ++ [last] ∧
    last.kind = .endOfFile ∧ last.text = "" ∧ last.trailing = [] ∧
    ∀ l ∈ found, l.kind ≠ .endOfFile ∧ l.text ≠ ""
  trivia_ne : ∀ l ∈ ls, ∀ t ∈ l.leading ++ l.trailing, t.text ≠ ""
  /-- The trivia behind a token end with the first newline. -/
  newline_last : ∀ l ∈ ls, ∀ t ∈ l.trailing.dropLast, t.kind ≠ .newline
  /-- Where they end without a newline nothing is left for the next token. -/
  leading_eq_nil (l m : Lexeme) (after : List Lexeme) (hsuffix : l :: m :: after <:+ ls)
    (hline : ∀ t ∈ l.trailing.getLast?, t.kind ≠ .newline) : m.leading = []
  /-- The identifiers are the words that the language does not keep for itself. -/
  identifier_iff : ∀ l ∈ ls,
    l.kind = .identifier ↔ isWord l.text ∧ l.text ∉ keywords ∧ l.text ∉ literalWords
  maximal (l : Lexeme) (after : List Lexeme) (hsuffix : l :: after <:+ ls) :
    Maximal l.kind l.text (l.behind after)

/-! ## Trivia -/

theorem text_ne_of_mem_trivia {oneLine : Bool} {cs : List Char} {t : Trivia}
    (ht : t ∈ (trivia oneLine cs).1) : t.text ≠ "" := by
  have hpiece {cs : List Char} {p : Piece TriviaKind} (h : trivium? cs = some p) :
      String.ofList p.text ≠ "" := fun htext =>
    (trivium?_wholeOf h).2 (String.ofList_injective (htext.trans String.ofList_nil.symm))
  fun_induction trivia oneLine cs with
  | case1 => cases ht
  | case2 cs p h hlt piece =>
    rw [List.mem_singleton.1 ht]
    exact hpiece h
  | case3 cs p h hlt piece _ more ih =>
    rcases List.mem_cons.1 ht with rfl | ht
    · exact hpiece h
    · exact ih ht

/-- Of the trivia behind a token only the last piece can be a newline. -/
theorem kind_ne_of_mem_dropLast_trivia {cs : List Char} {t : Trivia}
    (ht : t ∈ (trivia true cs).1.dropLast) : t.kind ≠ .newline := by
  generalize honeLine : true = oneLine at ht
  fun_induction trivia oneLine cs with
  | case1 => cases ht
  | case2 => cases ht
  | case3 cs p h hlt piece hline more ih =>
    subst honeLine
    cases hmore : more.1 with
    | nil =>
      rw [hmore] at ht
      cases ht
    | cons u us =>
      rw [hmore, List.dropLast_cons_of_ne_nil (List.cons_ne_nil u us), ← hmore] at ht
      rcases List.mem_cons.1 ht with rfl | ht
      · simpa using hline
      · exact ih ht

/-- The trivia behind a token that end without a newline end where no more of them start. -/
theorem trivium?_trivia_true {cs : List Char}
    (hline : ∀ t ∈ (trivia true cs).1.getLast?, t.kind ≠ .newline) :
    trivium? (trivia true cs).2 = none := by
  generalize true = oneLine at hline
  fun_induction trivia oneLine cs with
  | case1 cs h => exact h
  | case2 cs p h hlt piece hnewline =>
    rw [Bool.and_eq_true] at hnewline
    exact absurd (eq_of_beq hnewline.2) (hline piece rfl)
  | case3 cs p h hlt piece _ more ih =>
    refine ih fun t ht => hline t ?_
    rw [Option.mem_def] at ht ⊢
    rw [List.getLast?_cons, ht]
    rfl

theorem trivia_eq_of_trivium? {oneLine : Bool} {cs : List Char} (h : trivium? cs = none) :
    trivia oneLine cs = ([], cs) := by
  rw [trivia]
  split
  · rfl
  · rename_i hsome
    rw [h] at hsome
    cases hsome

/-- A single piece of trivia. -/
theorem trivia_of_trivium? {oneLine : Bool} {cs : List Char} {p : Piece TriviaKind}
    (h : trivium? cs = some p) (hkind : p.kind ≠ .newline) (hrest : trivium? p.rest = none) :
    trivia oneLine cs = ([⟨p.kind, String.ofList p.text⟩], p.rest) := by
  rw [trivia]
  split
  · rename_i hnone
    rw [h] at hnone
    cases hnone
  · rename_i q hq
    obtain rfl := Option.some.inj (h.symm.trans hq)
    rw [trivia_eq_of_trivium? hrest, beq_false_of_ne hkind, Bool.and_false]
    rfl

/-- What is scanned of a text that starts with a token and the trivia behind it. -/
theorem lexemes_of_token {leading trailing : List Trivia} {c : Char} {cs rest : List Char}
    {p : Piece TokenKind} (htoken : token c cs = p)
    (htrailing : trivia true p.rest = (trailing, rest)) (hrest : trivium? rest = none) :
    lexemes leading (c :: cs) = (⟨p.kind, String.ofList p.text, leading, trailing⟩ ::
      (lexemes [] rest).1, (lexemes [] rest).2) := by
  rw [lexemes, htoken]
  simp only [htrailing, trivia_eq_of_trivium? hrest]

/-! ## Tokens -/

section
variable {c : Char} {cs : List Char}

/-- A token starts with the character at the front. -/
theorem exists_token_text (c : Char) (cs : List Char) : ∃ more, (token c cs).text = c :: more := by
  obtain ⟨htext, hne⟩ := token_wholeOf c cs
  obtain ⟨d, more, hd⟩ := List.exists_cons_of_ne_nil hne
  rw [hd, List.cons_append, List.cons.injEq] at htext
  exact ⟨more, by rw [hd, htext.1]⟩

/-- Only a token that starts like a word is one. -/
theorem startsWord_of_isWord (h : isWord (String.ofList (token c cs).text)) : startsWord c := by
  obtain ⟨more, hmore⟩ := exists_token_text c cs
  rw [hmore, isWord_ofList, Bool.and_eq_true] at h
  exact h.1

theorem wordKind_eq_identifier_iff {w : String} :
    wordKind w = .identifier ↔ w ∉ keywords ∧ w ∉ literalWords := by
  refine ⟨fun h => ?_, fun h => wordKind_eq_identifier h.1 h.2⟩
  unfold wordKind at h
  split at h
  · cases h
  · split at h
    · cases h
    · rename_i hliteral hkeyword
      exact ⟨by simpa using hkeyword, by simpa using hliteral⟩

theorem token_kind_eq_identifier_iff : (token c cs).kind = .identifier ↔
    isWord (String.ofList (token c cs).text) ∧
      String.ofList (token c cs).text ∉ keywords ∧
      String.ofList (token c cs).text ∉ literalWords := by
  constructor
  · intro h
    obtain ⟨hword, hkind⟩ := isWord_of_token h
    exact ⟨hword, wordKind_eq_identifier_iff.1 hkind⟩
  · rintro ⟨hword, hfree⟩
    have hkind := wordKind_eq_identifier_iff.2 hfree
    have hc := startsWord_of_isWord hword
    rw [token_of_startsWord hc] at hkind ⊢
    exact hkind

/-- A single mark is cut off where no double one starts. -/
theorem token_punctuation (hkind : (token c cs).kind = .punctuation)
    (htext : (token c cs).text = [c]) :
    (token c cs).rest = cs ∧ ∀ d ∈ cs.head?, (c, d) ∉ doublePunctuation := by
  by_cases hc : startsWord c
  · rw [token_of_startsWord hc] at hkind
    rcases wordKind_cases (String.ofList (c :: cs.takeWhile continuesWord)) with h | h | h
    all_goals
      rw [h] at hkind
      cases hkind
  · rcases token_of_not_startsWord hc cs with hother | hother | ⟨-, ⟨d, hdouble⟩ | hsingle⟩
    · rw [hother] at hkind
      cases hkind
    · rw [hother] at hkind
      cases hkind
    · rw [hdouble] at htext
      cases htext
    · exact hsingle

/-- **A token at a place where no trivia start cannot be longer.** -/
theorem token_maximal (hstart : trivium? (c :: cs) = none) :
    Maximal (token c cs).kind (String.ofList (token c cs).text) (token c cs).rest := by
  obtain ⟨more, hmore⟩ := exists_token_text c cs
  constructor
  case word =>
    intro hword d hd
    have hc := startsWord_of_isWord hword
    rw [token_of_startsWord hc] at hd
    exact Bool.eq_false_iff.1 (not_of_head?_dropWhile hd)
  case number =>
    intro _ hdigits d hd
    rw [String.toList_ofList, hmore, List.all_cons, Bool.and_eq_true] at hdigits
    have hc : ¬ startsWord c := fun hc => by
      rw [isDigit_of_startsWord hc] at hdigits
      cases hdigits.1
    unfold token at hd
    rw [if_neg hc, if_pos hdigits.1] at hd
    exact Bool.eq_false_iff.1 (not_of_head?_dropWhile hd)
  case punctuation =>
    intro e hkind htext d hd
    rw [String.toList_ofList, hmore] at htext
    obtain ⟨rfl, rfl⟩ := List.cons.inj htext
    obtain ⟨hrest, hdouble⟩ := token_punctuation hkind hmore
    rw [hrest] at hd
    refine ⟨hdouble d hd, ?_⟩
    rintro ⟨rfl, hcomment⟩
    obtain ⟨cs, rfl⟩ := List.head?_eq_some_iff.1 hd
    rcases hcomment with rfl | rfl <;> cases hstart

end

/-! ## Lexemes -/

/-- The lexemes of a text whose first token comes after the trivia `leading`. -/
inductive Scanned : List Trivia → List Char → List Lexeme → Prop
  | endOfFile (leading : List Trivia) : Scanned leading [] [⟨.endOfFile, "", leading, []⟩]
  | token (leading : List Trivia) {c : Char} {cs : List Char} {ls : List Lexeme}
      (hstart : trivium? (c :: cs) = none)
      (hrest : Scanned (trivia false (trivia true (Xref.token c cs).rest).2).1
        (trivia false (trivia true (Xref.token c cs).rest).2).2 ls) :
      Scanned leading (c :: cs) (⟨(Xref.token c cs).kind, String.ofList (Xref.token c cs).text,
        leading, (trivia true (Xref.token c cs).rest).1⟩ :: ls)

theorem scanned_lexemes {leading : List Trivia} {cs : List Char} (hstart : trivium? cs = none) :
    Scanned leading cs
      ((lexemes leading cs).1 ++ [⟨.endOfFile, "", (lexemes leading cs).2, []⟩]) := by
  fun_induction lexemes leading cs with
  | case1 leading => exact .endOfFile leading
  | case2 leading c cs head trailing next hle more ih =>
    exact .token leading hstart (ih (trivium?_trivia _))

theorem scanned_lex (source : String) :
    Scanned (trivia false source.toList).1 (trivia false source.toList).2 (lex source) :=
  scanned_lexemes (trivium?_trivia _)

namespace Scanned

variable {leading : List Trivia} {cs : List Char} {l m : Lexeme} {ls after : List Lexeme}

/-- The lexemes at the end are those of what is left of the text. -/
theorem suffix (h : Scanned leading cs ls) (hsuffix : l :: after <:+ ls) :
    ∃ cs', Scanned l.leading cs' (l :: after) := by
  induction h with
  | endOfFile leading =>
    rcases List.suffix_cons_iff.1 hsuffix with heq | hnil
    · rw [heq, (List.cons.inj heq).1]
      exact ⟨[], .endOfFile leading⟩
    · cases List.suffix_nil.1 hnil
  | token leading hstart hrest ih =>
    rcases List.suffix_cons_iff.1 hsuffix with heq | hsuffix
    · rw [heq, (List.cons.inj heq).1]
      exact ⟨_, .token leading hstart hrest⟩
    · exact ih hsuffix

theorem leading_eq (h : Scanned leading cs (l :: after)) : l.leading = leading := by
  cases h <;> rfl

theorem eq_lexemes (h : Scanned leading cs ls) :
    ls = (lexemes leading cs).1 ++ [⟨.endOfFile, "", (lexemes leading cs).2, []⟩] := by
  induction h with
  | endOfFile leading =>
    rw [lexemes]
    rfl
  | token leading hstart hrest ih =>
    rw [lexemes, List.cons_append, ← ih]

theorem flatMap_chars (h : Scanned leading cs ls) :
    ls.flatMap Lexeme.chars = (Trivia.join leading).toList ++ cs := by
  rw [h.eq_lexemes, ← lexemes_append leading cs]
  simp [Lexeme.chars_eq]

/-- Behind a token stands what remains once it is cut off. -/
theorem behind_eq {c : Char} {cs : List Char} (h : Scanned leading (c :: cs) (l :: after)) :
    l.behind after = (Xref.token c cs).rest := by
  cases h with
  | token _ hstart hrest =>
    rw [Lexeme.behind, hrest.flatMap_chars, trivia_append, trivia_append]

theorem maximal (h : Scanned leading cs (l :: after)) :
    Maximal l.kind l.text (l.behind after) := by
  cases h with
  | endOfFile leading => exact Maximal.of_nil
  | token _ hstart hrest =>
    rw [behind_eq (.token leading hstart hrest)]
    exact token_maximal hstart

theorem leading_eq_nil (h : Scanned leading cs (l :: m :: after))
    (hline : ∀ t ∈ l.trailing.getLast?, t.kind ≠ .newline) : m.leading = [] := by
  cases h with
  | token _ hstart hrest =>
    rw [hrest.leading_eq, trivia_eq_of_trivium? (trivium?_trivia_true hline)]

theorem trivia_ne (h : Scanned leading cs ls) (hleading : ∀ t ∈ leading, t.text ≠ "") :
    ∀ l ∈ ls, ∀ t ∈ l.leading ++ l.trailing, t.text ≠ "" := by
  induction h with
  | endOfFile leading =>
    rw [List.forall_mem_singleton, List.append_nil]
    exact hleading
  | token leading hstart hrest ih =>
    refine List.forall_mem_cons.2 ⟨?_, ih fun t => text_ne_of_mem_trivia⟩
    exact List.forall_mem_append.2 ⟨hleading, fun t => text_ne_of_mem_trivia⟩

theorem newline_last (h : Scanned leading cs (l :: after)) :
    ∀ t ∈ l.trailing.dropLast, t.kind ≠ .newline := by
  cases h with
  | endOfFile => exact fun _ ht => nomatch ht
  | token => exact fun _ ht => kind_ne_of_mem_dropLast_trivia ht

theorem identifier_iff (h : Scanned leading cs (l :: after)) :
    l.kind = .identifier ↔ isWord l.text ∧ l.text ∉ keywords ∧ l.text ∉ literalWords := by
  cases h with
  | endOfFile => exact iff_of_false TokenKind.noConfusion (by simp [isWord])
  | token => exact token_kind_eq_identifier_iff

end Scanned

/-! ## Pieces -/

theorem Lexeme.join_pieces (l : Lexeme) : String.join l.pieces = l.source := by
  rw [pieces, source, Trivia.join, Trivia.join, String.append_assoc]
  simp

/-- Behind any number of pieces the source can be cut. -/
theorem boundary_pieces (source : String) (n : Nat) : IsBoundary source.toList
    (String.join (((lex source).flatMap Lexeme.pieces).take n)).utf8ByteSize := by
  have hpieces : String.join ((lex source).flatMap Lexeme.pieces) = source := by
    refine Eq.trans (String.toList_injective ?_) (join_lex source)
    rw [String.toList_join, String.toList_join, List.flatMap_assoc, List.flatMap_map]
    refine List.flatMap_congr fun l _ => ?_
    rw [← String.toList_join, l.join_pieces]
  refine ⟨_, (String.join (((lex source).flatMap Lexeme.pieces).drop n)).toList, ?_,
    (Text.utf8ByteSize_eq _).symm⟩
  rw [← String.toList_append, ← String.join_append, List.take_append_drop, hpieces]

/-- **The structure of scanned texts.** -/
theorem lex_lexed (source : String) : Lexed source (lex source) := by
  have hscanned := scanned_lex source
  have hmem {l : Lexeme} (hl : l ∈ lex source) :
      ∃ cs after, Scanned l.leading cs (l :: after) := by
    obtain ⟨before, after, hsplit⟩ := List.append_of_mem hl
    obtain ⟨cs, h⟩ := hscanned.suffix (hsplit ▸ List.suffix_append before (l :: after))
    exact ⟨cs, after, h⟩
  constructor
  case join => exact join_lex source
  case boundary => exact boundary_pieces source
  case ending =>
    exact ⟨_, _, rfl, rfl, rfl, rfl, fun l hl => (kind_ne_of_mem_lexemes hl).symm⟩
  case trivia_ne => exact hscanned.trivia_ne fun t => text_ne_of_mem_trivia
  case newline_last =>
    intro l hl
    obtain ⟨cs, after, h⟩ := hmem hl
    exact h.newline_last
  case leading_eq_nil =>
    intro l m after hsuffix
    obtain ⟨cs, h⟩ := hscanned.suffix hsuffix
    exact h.leading_eq_nil
  case identifier_iff =>
    intro l hl
    obtain ⟨cs, after, h⟩ := hmem hl
    exact h.identifier_iff
  case maximal =>
    intro l after hsuffix
    obtain ⟨cs, h⟩ := hscanned.suffix hsuffix
    exact h.maximal

end Xref
