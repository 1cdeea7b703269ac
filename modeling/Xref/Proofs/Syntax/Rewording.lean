import Xref.Proofs.Syntax.Replacing

/-!
# Texts with other words

Where identifiers of a text give way to other identifiers, the new text falls into the same lexemes
with the new words in their places (`lex_replaceTokens`): no piece of a text depends on more of what
follows it than whether a word starts there.
-/

namespace Xref

/-- Whether two texts agree, or agree up to a place where a word starts in both. -/
inductive Agree : List Char → List Char → Prop
  | refl (cs : List Char) : Agree cs cs
  | word {c d : Char} (cs ds : List Char) : startsWord c → startsWord d → Agree (c :: cs) (d :: ds)
  | cons (c : Char) {cs ds : List Char} : Agree cs ds → Agree (c :: cs) (c :: ds)

variable {cs ds rest : List Char} {c d : Char}

namespace Agree

theorem append (as : List Char) (h : Agree cs ds) : Agree (as ++ cs) (as ++ ds) := by
  induction as with
  | nil => exact h
  | cons a as ih => exact .cons a ih

/-- Texts that agree start with the same character, or both with a word. -/
theorem head (h : Agree cs ds) (hd : d ∈ ds.head?) :
    d ∈ cs.head? ∨ startsWord d ∧ ∃ c ∈ cs.head?, startsWord c := by
  cases h with
  | refl => exact .inl hd
  | word _ _ hc hd' => exact .inr ⟨by cases hd; exact hd', _, rfl, hc⟩
  | cons c _ => exact .inl hd

/-- A test that no two starts of words fail to agree on stays false at the front of the text. -/
theorem head_false {q : Char → Bool} (h : Agree cs ds)
    (hq : ∀ c d, startsWord c → startsWord d → q c = q d) (hcs : ∀ c ∈ cs.head?, q c = false) :
    ∀ d ∈ ds.head?, q d = false := by
  intro d hd
  rcases h.head hd with hd | ⟨hword, c, hc, hcword⟩
  · exact hcs d hd
  · rw [← hq c d hcword hword, hcs c hc]

theorem nil (h : Agree [] ds) : ds = [] := by
  cases h
  rfl

/-- Behind a character with which no word starts texts go on to agree. -/
theorem tail (h : Agree (c :: cs) ds) (hc : startsWord c = false) :
    ∃ es, ds = c :: es ∧ Agree cs es := by
  cases h with
  | refl => exact ⟨cs, rfl, .refl cs⟩
  | word _ _ hword => rw [hc] at hword; cases hword
  | cons _ h => exact ⟨_, rfl, h⟩

theorem symm (h : Agree cs ds) : Agree ds cs := by
  induction h with
  | refl cs => exact .refl cs
  | word _ _ hc hd => exact .word _ _ hd hc
  | cons c _ ih => exact .cons c ih

theorem head_ne (h : Agree cs ds) (hc : startsWord c = false) (hne : cs.head? ≠ some c) :
    ds.head? ≠ some c := by
  intro hd
  rcases h.head hd with hd | ⟨hword, -⟩
  · exact hne hd
  · rw [hc] at hword
    cases hword

theorem head_eq_iff (h : Agree cs ds) (hc : startsWord c = false) :
    ds.head? = some c ↔ cs.head? = some c := by
  constructor
  · exact fun hd => by_contra fun hne => h.head_ne hc hne hd
  · exact fun hd => by_contra fun hne => h.symm.head_ne hc hne hd

end Agree

/-! ## Runs of characters -/

/-- A run of characters ends where one comes that does not belong to it. -/
theorem span_append {q : Char → Bool} {as : List Char} (has : ∀ a ∈ as, q a)
    (hrest : ∀ d ∈ rest.head?, q d = false) :
    (as ++ rest).takeWhile q = as ∧ (as ++ rest).dropWhile q = rest := by
  rw [List.takeWhile_append_of_pos has, List.dropWhile_append_of_pos has]
  cases rest with
  | nil => exact ⟨List.append_nil as, rfl⟩
  | cons d rest => simp [hrest d rfl]

/-- What comes after a run may be replaced by what agrees with it. -/
theorem span_agree {q : Char → Bool} (hq : ∀ c d, startsWord c → startsWord d → q c = q d)
    (h : Agree (cs.dropWhile q) ds) :
    (cs.takeWhile q ++ ds).takeWhile q = cs.takeWhile q ∧
      (cs.takeWhile q ++ ds).dropWhile q = ds := by
  apply span_append
  · exact fun a ha => List.mem_takeWhile_imp ha
  · exact h.head_false hq fun d hd => not_of_head?_dropWhile hd

/-- A character with which no word starts is not one with which a word starts. -/
theorem ne_of_startsWord (hc : startsWord c) (hd : startsWord d = false) : c ≠ d := by
  rintro rfl
  rw [hc] at hd
  cases hd

theorem isLineBlank_of_startsWord (h : startsWord c) : isLineBlank c = false := by
  simp [isLineBlank, ne_of_startsWord h (d := ' ') (by decide),
    ne_of_startsWord h (d := '\t') (by decide), ne_of_startsWord h (d := '\r') (by decide)]

theorem continuesLineComment_of_startsWord (h : startsWord c) : continuesLineComment c := by
  simp [continuesLineComment, ne_of_startsWord h (d := '\n') (by decide),
    ne_of_startsWord h (d := '\r') (by decide)]

theorem continuesString_of_startsWord (h : startsWord c) : continuesString c := by
  simp [continuesString, ne_of_startsWord h (d := '"') (by decide),
    ne_of_startsWord h (d := '\n') (by decide)]

/-! ## Trivia -/

/-- The piece of trivia at the front of a text, by its first two characters. -/
theorem trivium?_cons (c : Char) (cs : List Char) : trivium? (c :: cs) =
    if c = '\r' ∧ cs.head? = some '\n' then some ⟨.newline, ['\r', '\n'], cs.tail⟩
    else if c = '\n' then some ⟨.newline, ['\n'], cs⟩
    else if c = '/' ∧ cs.head? = some '/' then
      some ⟨.lineComment, '/' :: '/' :: cs.tail.takeWhile continuesLineComment,
        cs.tail.dropWhile continuesLineComment⟩
    else if c = '/' ∧ cs.head? = some '*' then
      some ⟨.blockComment, '/' :: '*' :: (closeComment cs.tail).1, (closeComment cs.tail).2⟩
    else blanks? (c :: cs) := by
  unfold trivium?
  split
  · rename_i heq
    obtain ⟨rfl, rfl⟩ := List.cons.inj heq
    simp
  · rename_i heq
    obtain ⟨rfl, rfl⟩ := List.cons.inj heq
    simp
  · rename_i heq
    obtain ⟨rfl, rfl⟩ := List.cons.inj heq
    simp
  · rename_i heq
    obtain ⟨rfl, rfl⟩ := List.cons.inj heq
    simp
  · rename_i hreturn hnewline hline hblock
    rw [if_neg, if_neg, if_neg, if_neg]
    · rintro ⟨rfl, hhead⟩
      obtain ⟨es, rfl⟩ := List.head?_eq_some_iff.1 hhead
      exact hblock es rfl
    · rintro ⟨rfl, hhead⟩
      obtain ⟨es, rfl⟩ := List.head?_eq_some_iff.1 hhead
      exact hline es rfl
    · rintro rfl
      exact hnewline cs rfl
    · rintro ⟨rfl, hhead⟩
      obtain ⟨es, rfl⟩ := List.head?_eq_some_iff.1 hhead
      exact hreturn es rfl

theorem blanks?_of_not_isLineBlank (hc : isLineBlank c = false) : blanks? (c :: cs) = none := by
  simp [blanks?, hc]

/-- A blank starts a run of blanks, unless it belongs to a newline. -/
theorem isLineBlank_of_blanks? (h : blanks? (c :: cs) = none)
    (hnewline : ¬(c = '\r' ∧ cs.head? = some '\n')) : isLineBlank c = false := by
  rw [Bool.eq_false_iff]
  intro hc
  rw [blanks?, List.takeWhile_cons_of_pos hc, List.dropWhile_cons_of_pos hc] at h
  split at h
  · rename_i hlast
    obtain ⟨hreturn, hhead⟩ := hlast
    cases hrun : cs.takeWhile isLineBlank with
    | nil =>
      have hdrop := List.takeWhile_append_dropWhile (p := isLineBlank) (l := cs)
      rw [hrun, List.nil_append] at hdrop
      rw [hrun] at hreturn
      rw [hdrop] at hhead
      exact hnewline ⟨by simpa using hreturn, hhead⟩
    | cons d run =>
      rw [hrun] at h
      simp at h
  · simp at h

/-- A run of blanks is a piece of trivia. -/
theorem trivium?_of_blanks? {p : Piece TriviaKind} (h : blanks? cs = some p) :
    trivium? cs = some p := by
  cases cs with
  | nil => cases h
  | cons c cs =>
    have hc : isLineBlank c := by
      by_contra hc
      rw [blanks?_of_not_isLineBlank (Bool.eq_false_iff.2 hc)] at h
      cases h
    have hne : ∀ {d : Char}, isLineBlank d = false → c ≠ d := by
      rintro d hd rfl
      rw [hc] at hd
      cases hd
    rw [trivium?_cons, if_neg, if_neg (hne (by decide)), if_neg fun h => hne (by decide) h.1,
      if_neg fun h => hne (by decide) h.1]
    · exact h
    · rintro ⟨rfl, hhead⟩
      obtain ⟨es, rfl⟩ := List.head?_eq_some_iff.1 hhead
      rw [show blanks? ('\r' :: '\n' :: es) = none from rfl] at h
      cases h

theorem trivium?_agree_none (h : Agree cs ds) (hcs : trivium? cs = none) : trivium? ds = none := by
  cases h with
  | refl => exact hcs
  | @word _ d _ ds _ hd =>
    rw [trivium?_cons, if_neg fun h => ne_of_startsWord hd (by decide) h.1,
      if_neg (ne_of_startsWord hd (by decide)), if_neg fun h => ne_of_startsWord hd (by decide) h.1,
      if_neg fun h => ne_of_startsWord hd (by decide) h.1]
    exact blanks?_of_not_isLineBlank (isLineBlank_of_startsWord hd)
  | @cons c cs ds h =>
    rw [trivium?_cons] at hcs ⊢
    simp only [h.head_eq_iff (c := '\n') (by decide), h.head_eq_iff (c := '/') (by decide),
      h.head_eq_iff (c := '*') (by decide)]
    split at hcs
    · cases hcs
    rename_i hnewline
    split at hcs
    · cases hcs
    rename_i hline
    split at hcs
    · cases hcs
    rename_i hcomment
    split at hcs
    · cases hcs
    rename_i hblock
    rw [if_neg hnewline, if_neg hline, if_neg hcomment, if_neg hblock]
    exact blanks?_of_not_isLineBlank (isLineBlank_of_blanks? hcs hnewline)

theorem closeComment_ne_nil (c : Char) (cs : List Char) : (closeComment (c :: cs)).1 ≠ [] := by
  unfold closeComment
  split
  · rename_i heq
    cases heq
  · exact List.cons_ne_nil _ _
  · exact List.cons_ne_nil _ _

/-- What comes after a closed comment does not matter, and nothing comes after one that is not. -/
theorem closeComment_agree (h : Agree (closeComment cs).2 ds) :
    closeComment ((closeComment cs).1 ++ ds) = ((closeComment cs).1, ds) := by
  fun_induction closeComment cs with
  | case1 =>
    rw [h.nil]
    rfl
  | case2 => rfl
  | case3 c cs hopen parts ih =>
    have hrest := ih h
    have hcs : parts.1 ++ parts.2 = cs := closeComment_append cs
    rw [List.cons_append, closeComment, hrest]
    rintro es rfl heq
    cases hinside : parts.1 with
    | nil =>
      have hparts : parts.2 = cs := by rw [← hcs, hinside, List.nil_append]
      cases cs with
      | nil =>
        have hnil : Agree [] ds := h
        rw [hinside, hnil.nil] at heq
        cases heq
      | cons d cs => exact absurd hinside (closeComment_ne_nil d cs)
    | cons d inside =>
      rw [hinside] at heq hcs
      obtain ⟨rfl, -⟩ := List.cons.inj heq
      exact hopen _ rfl hcs.symm

theorem blanks?_agree {p : Piece TriviaKind} (hp : blanks? cs = some p) (h : Agree p.rest ds) :
    blanks? (p.text ++ ds) = some { p with rest := ds } := by
  have hblank : ∀ a ∈ cs.takeWhile isLineBlank, isLineBlank a := fun a ha => List.mem_takeWhile_imp ha
  have hdrop : ∀ d ∈ (cs.dropWhile isLineBlank).head?, isLineBlank d = false := by
    intro d hd
    have := List.head?_dropWhile_not isLineBlank cs
    rw [Option.mem_def.1 hd] at this
    simpa using this
  unfold blanks? at hp
  generalize cs.takeWhile isLineBlank = run at hp hblank
  generalize cs.dropWhile isLineBlank = rest at hp hdrop
  dsimp only at hp
  split at hp
  · rename_i hlast
    split at hp
    · cases hp
    · rename_i hne
      obtain rfl := Option.some.inj hp
      obtain ⟨es, rfl, hes⟩ := h.tail (by decide)
      have hhead : es.head? = some '\n' := (hes.head_eq_iff (by decide)).2 hlast.2
      obtain ⟨init, rfl⟩ := List.getLast?_eq_some_iff.1 hlast.1
      rw [List.dropLast_concat] at hne ⊢
      have hends : ∀ d ∈ es.head?, isLineBlank d = false := fun d hd => by
        rw [hhead] at hd
        cases hd
        rfl
      have hspan := span_append hblank hends
      have hsplit : init ++ '\r' :: es = init ++ ['\r'] ++ es := by simp
      rw [blanks?, hsplit, hspan.1, hspan.2]
      simp [hhead, hne]
  · rename_i hlast
    split at hp
    · cases hp
    · rename_i hne
      obtain rfl := Option.some.inj hp
      have hspan := span_append hblank (h.head_false (fun c d hc hd => by
        rw [isLineBlank_of_startsWord hc, isLineBlank_of_startsWord hd]) hdrop)
      rw [blanks?, hspan.1, hspan.2]
      dsimp only
      rw [if_neg, if_neg hne]
      rintro ⟨hreturn, hhead⟩
      exact hlast ⟨hreturn, (h.head_eq_iff (by decide)).1 hhead⟩

theorem trivium?_agree {p : Piece TriviaKind} (hp : trivium? cs = some p) (h : Agree p.rest ds) :
    trivium? (p.text ++ ds) = some { p with rest := ds } := by
  unfold trivium? at hp
  split at hp
  · obtain rfl := Option.some.inj hp
    rfl
  · obtain rfl := Option.some.inj hp
    rfl
  · rename_i cs
    obtain rfl := Option.some.inj hp
    have hspan := span_agree (fun c d hc hd => by
      rw [continuesLineComment_of_startsWord hc, continuesLineComment_of_startsWord hd]) h
    simp only [List.cons_append]
    rw [trivium?, hspan.1, hspan.2]
  · rename_i cs
    obtain rfl := Option.some.inj hp
    simp only [List.cons_append]
    rw [trivium?, closeComment_agree h]
  · exact trivium?_of_blanks? (blanks?_agree hp h)

/-! ## Trivia between tokens -/

theorem trivia_of_none {oneLine : Bool} (h : trivium? cs = none) : trivia oneLine cs = ([], cs) := by
  rw [trivia]
  split
  · rfl
  · rename_i p hp
    rw [h] at hp
    cases hp

theorem trivia_of_some {oneLine : Bool} {p : Piece TriviaKind} (h : trivium? cs = some p) :
    trivia oneLine cs =
      if oneLine && p.kind == .newline then ([⟨p.kind, String.ofList p.text⟩], p.rest)
      else (⟨p.kind, String.ofList p.text⟩ :: (trivia oneLine p.rest).1,
        (trivia oneLine p.rest).2) := by
  rw [trivia]
  split
  · rename_i hp
    rw [h] at hp
    cases hp
  · rename_i p' hp
    obtain rfl := Option.some.inj (h.symm.trans hp)
    rfl

/-- The trivia at the front of a text do not depend on more of what follows them. -/
theorem trivia_agree (oneLine : Bool) (h : Agree (trivia oneLine cs).2 ds) :
    trivia oneLine ((Trivia.join (trivia oneLine cs).1).toList ++ ds) =
      ((trivia oneLine cs).1, ds) := by
  fun_induction trivia oneLine cs with
  | case1 cs hnone => exact trivia_of_none (trivium?_agree_none h hnone)
  | case2 cs p hp hlt piece hone =>
    have hnext := trivium?_agree hp h
    have hchars : (Trivia.join [piece]).toList = p.text := by simp [piece]
    rw [hchars, trivia_of_some hnext, if_pos hone]
  | case3 cs p hp hlt piece hmore more ih =>
    have hrest := ih h
    have hagree : Agree p.rest ((Trivia.join more.1).toList ++ ds) := by
      rw [← trivia_append oneLine p.rest]
      exact h.append _
    have hchars : (Trivia.join (piece :: more.1)).toList ++ ds =
        p.text ++ ((Trivia.join more.1).toList ++ ds) := by simp [piece]
    rw [hchars, trivia_of_some (trivium?_agree hp hagree), if_neg hmore, hrest]

/-! ## Tokens -/

theorem not_doublePunctuation_of_startsWord (c : Char) (hd : startsWord d) :
    doublePunctuation.contains (c, d) = false := by
  simp [doublePunctuation, ne_of_startsWord hd (d := '>') (by decide),
    ne_of_startsWord hd (d := '=') (by decide), ne_of_startsWord hd (d := '&') (by decide),
    ne_of_startsWord hd (d := '|') (by decide)]

/-- A character makes no pair with what follows if it makes none with what agrees with that. -/
theorem not_double_agree (h : Agree cs ds)
    (hcs : ¬cs.head?.any fun d => doublePunctuation.contains (c, d)) :
    ¬ds.head?.any fun d => doublePunctuation.contains (c, d) := by
  have hhead := h.head_false (q := fun d => doublePunctuation.contains (c, d))
    (fun a b ha hb => by
      rw [not_doublePunctuation_of_startsWord c ha, not_doublePunctuation_of_startsWord c hb])
    (fun d hd => by
      rw [Option.mem_def.1 hd] at hcs
      simpa using hcs)
  cases ds with
  | nil => exact Bool.false_ne_true
  | cons d ds =>
    rw [List.head?_cons, Option.any_some, hhead d rfl]
    exact Bool.false_ne_true

/-- The literal at a quote, which goes on to the next quote or else to the end of the line. -/
theorem token_quote (cs : List Char) : token '"' cs =
    match cs.dropWhile continuesString with
    | '"' :: rest => ⟨.literal, '"' :: (cs.takeWhile continuesString ++ ['"']), rest⟩
    | rest => ⟨.literal, '"' :: cs.takeWhile continuesString, rest⟩ := rfl

theorem token_quote_agree (h : Agree (token '"' cs).rest ds) :
    ∃ inside, (token '"' cs).text = '"' :: inside ∧
      token '"' (inside ++ ds) = ⟨(token '"' cs).kind, '"' :: inside, ds⟩ := by
  rw [token_quote] at h ⊢
  split
  · rename_i rest hrest
    rw [hrest] at h
    have hinside : ∀ a ∈ cs.takeWhile continuesString, continuesString a :=
      fun a ha => List.mem_takeWhile_imp ha
    have hends : ∀ d ∈ ('"' :: ds).head?, continuesString d = false :=
      fun d hd => by cases hd; rfl
    have hspan := span_append hinside hends
    refine ⟨_, rfl, ?_⟩
    rw [List.append_assoc, List.singleton_append, token_quote, hspan.1, hspan.2]
    rfl
  · rename_i hopen
    have hrest : Agree (cs.dropWhile continuesString) ds := by
      split at h
      · rename_i heq
        exact absurd heq (hopen _)
      · exact h
    have hspan := span_agree (fun c d hc hd => by
      rw [continuesString_of_startsWord hc, continuesString_of_startsWord hd]) hrest
    refine ⟨_, rfl, ?_⟩
    rw [token_quote, hspan.1, hspan.2]
    -- The literal has not been closed, and what follows does not close it.
    have hhead := hrest.head_ne (c := '"') (by decide) fun hhead => by
      obtain ⟨es, hes⟩ := List.head?_eq_some_iff.1 hhead
      exact hopen es hes
    split
    · exact absurd rfl hhead
    · rfl

/-- A token does not depend on more of what follows it. -/
theorem token_agree (h : Agree (token c cs).rest ds) :
    ∃ inside, (token c cs).text = c :: inside ∧
      token c (inside ++ ds) = ⟨(token c cs).kind, c :: inside, ds⟩ := by
  by_cases hquote : c = '"'
  · subst hquote
    exact token_quote_agree h
  unfold token at h ⊢
  split
  · rename_i hword
    rw [if_pos hword] at h
    have hspan := span_agree (fun c d hc hd => by
      rw [continuesWord_of_startsWord hc, continuesWord_of_startsWord hd]) h
    exact ⟨_, rfl, by rw [hspan.1, hspan.2]⟩
  rename_i hword
  rw [if_neg hword] at h
  split
  · rename_i hdigit
    rw [if_pos hdigit] at h
    have hspan := span_agree (fun c d hc hd => by
      rw [isDigit_of_startsWord hc, isDigit_of_startsWord hd]) h
    exact ⟨_, rfl, by rw [hspan.1, hspan.2]⟩
  rename_i hdigit
  rw [if_neg hdigit, if_neg hquote] at h
  split
  · rename_i hdouble
    rw [if_pos hdouble] at h
    cases cs with
    | nil => cases hdouble
    | cons d cs =>
      have hsame : (d :: ds).head?.any fun d => doublePunctuation.contains (c, d) := hdouble
      refine ⟨[d], rfl, ?_⟩
      rw [List.singleton_append, if_pos hsame]
      rfl
  rename_i hdouble
  rw [if_neg hdouble] at h
  split
  · rename_i hsingle
    rw [if_pos hsingle] at h
    exact ⟨[], rfl, by rw [List.nil_append, if_neg (not_double_agree h hdouble)]⟩
  · rename_i hsingle
    rw [if_neg hsingle] at h
    exact ⟨[], rfl, by rw [List.nil_append, if_neg (not_double_agree h hdouble)]⟩

/-- Behind an identifier comes nothing that a word goes on with. -/
theorem not_continuesWord_rest (h : (token c cs).kind = .identifier) :
    ∀ d ∈ (token c cs).rest.head?, continuesWord d = false := by
  have hc := startsWord_of_token h
  unfold token
  rw [if_pos hc]
  intro d hd
  have := List.head?_dropWhile_not continuesWord cs
  rw [Option.mem_def.1 hd] at this
  simpa using this

/-! ## Lexemes -/

/-- Whether a lexeme is another one, or an identifier that has been given the text of an
identifier. -/
def Lexeme.Reworded (l l' : Lexeme) : Prop :=
  l' = l ∨ l.kind = .identifier ∧
    ∃ new, isWord new ∧ wordKind new = .identifier ∧ l' = l.withText new

/-- Lexemes with other words are the lexemes of the text that they make up. -/
theorem lexemes_reworded {leading : List Trivia} {ls' : List Lexeme}
    (h : List.Forall₂ Lexeme.Reworded (lexemes leading cs).1 ls') :
    ∃ ds, Agree cs ds ∧ lexemes leading ds = (ls', (lexemes leading cs).2) := by
  fun_induction lexemes leading cs generalizing ls' with
  | case1 leading =>
    cases h
    exact ⟨[], .refl [], by rw [lexemes]⟩
  | case2 leading c cs head trailing next hle more =>
    rename_i ih
    cases h with
    | @cons _ l' _ ls' hl hls =>
    obtain ⟨ds, hds, hmore⟩ := ih hls
    -- What follows the token agrees with what followed it, so the same trivia come off it.
    have htrailing : Agree trailing.2 ((Trivia.join next.1).toList ++ ds) := by
      rw [← trivia_append false trailing.2]
      exact hds.append _
    have hrest : Agree head.rest
        ((Trivia.join trailing.1).toList ++ ((Trivia.join next.1).toList ++ ds)) := by
      rw [← trivia_append true head.rest]
      exact htrailing.append _
    have hnext := trivia_agree false hds
    have hafter := trivia_agree true htrailing
    generalize htail : (Trivia.join next.1).toList ++ ds = tail at *
    generalize hbehind : (Trivia.join trailing.1).toList ++ tail = behind at *
    have hcut : ∀ {d : Char} {inside : List Char} {kind : TokenKind},
        token d (inside ++ behind) = ⟨kind, d :: inside, behind⟩ →
        lexemes leading (d :: (inside ++ behind)) =
          (⟨kind, String.ofList (d :: inside), leading, trailing.1⟩ :: ls', (lexemes next.1 next.2).2) := by
      intro d inside kind htoken
      rw [lexemes, htoken]
      dsimp only
      rw [hafter]
      dsimp only
      rw [hnext]
      dsimp only
      rw [hmore]
    rcases hl with rfl | ⟨hidentifier, new, hword, hkind, rfl⟩
    · obtain ⟨inside, htext, htoken⟩ := token_agree hrest
      refine ⟨c :: (inside ++ behind), ?_, ?_⟩
      · rw [← (token_wholeOf c cs).1, htext]
        exact hrest.append _
      · rw [hcut htoken, ← htext]
    · obtain ⟨d, inside, hnew, hd, hinside⟩ := toList_of_isWord hword
      have hbehind := hrest.head_false (fun a b ha hb => by
        rw [continuesWord_of_startsWord ha, continuesWord_of_startsWord hb])
        (not_continuesWord_rest hidentifier)
      have htoken := token_word hd hinside fun a ha => by
        rw [hbehind a ha]
        exact Bool.false_ne_true
      refine ⟨d :: (inside ++ behind), .word _ _ (startsWord_of_token hidentifier) hd, ?_⟩
      rw [hcut htoken, ← hnew, String.ofList_toList, hkind]
      have hsame : head.kind = .identifier := hidentifier
      rw [Lexeme.withText, hsame]

/-- A text that lexemes with other words make up falls into these lexemes. -/
theorem scan_of_reworded {source source' : String} {ls' : List Lexeme}
    (h : List.Forall₂ Lexeme.Reworded (scan source).1 ls')
    (hsource : source'.toList = ls'.flatMap Lexeme.chars ++ (scan source).2.chars) :
    scan source' = (ls', (scan source).2) := by
  obtain ⟨ds, hds, hlexemes⟩ := lexemes_reworded h
  have hall := lexemes_append (trivia false source.toList).1 ds
  rw [hlexemes] at hall
  have htext : source'.toList = (Trivia.join (trivia false source.toList).1).toList ++ ds := by
    rw [hsource, ← hall, scan]
    simp [Lexeme.chars_eq]
  rw [scan, htext, trivia_agree false hds, scan]
  dsimp only
  rw [hlexemes]

/-- Whether new texts are for identifiers of a source text only, and are texts of identifiers. -/
def Respells (ρ : Token → Option String) (source : String) : Prop :=
  ∀ t ∈ sourceTokens source, ∀ new ∈ ρ t,
    t.kind = .identifier ∧ isWord new ∧ wordKind new = .identifier

section
variable {ρ : Token → Option String} {source : String} (hρ : Respells ρ source)

include hρ

/-- The end of the file never gets a new text. -/
theorem map_respelled_sourceTokens : (sourceTokens source).map (Token.respelled ρ) =
    (tokensFrom .start (scan source).1).map (Token.respelled ρ) ++ [(scan source).2] := by
  have hend : ∀ t ∈ sourceTokens source, t.lexeme = (scan source).2 →
      t.respelled ρ = (scan source).2 := fun t ht heq => by
    rw [Token.respelled]
    cases hnew : ρ t with
    | none => exact heq
    | some new =>
      have hkind := (hρ t ht new hnew).1
      rw [Token.kind, heq] at hkind
      cases hkind
  rw [sourceTokens, lex, tokensFrom_append] at hend ⊢
  rw [List.map_append, tokensFrom, tokensFrom, List.map_singleton,
    hend _ (List.mem_append_right _ (List.mem_singleton_self _)) rfl]

theorem forall₂_reworded : List.Forall₂ Lexeme.Reworded (scan source).1
    ((tokensFrom .start (scan source).1).map (Token.respelled ρ)) := by
  have hforall : List.Forall₂ Lexeme.Reworded
      ((tokensFrom .start (scan source).1).map Token.lexeme)
      ((tokensFrom .start (scan source).1).map (Token.respelled ρ)) := by
    rw [List.forall₂_map_left_iff, List.forall₂_map_right_iff, List.forall₂_same]
    intro t ht
    rw [Token.respelled]
    cases hnew : ρ t with
    | none => exact .inl rfl
    | some new =>
      have hmem : t ∈ sourceTokens source := by
        rw [sourceTokens, lex, tokensFrom_append]
        exact List.mem_append_left _ ht
      obtain ⟨hkind, hword, hwordKind⟩ := hρ t hmem new hnew
      exact .inr ⟨hkind, new, hword, hwordKind, rfl⟩
  rwa [map_lexeme_tokensFrom] at hforall

/-- **Where identifiers give way to others,** the new text falls into the same lexemes with the new
words in their places. -/
theorem scan_respelled {source' : String} (hsource : source'.toList =
    ((sourceTokens source).map (Token.respelled ρ)).flatMap Lexeme.chars) :
    scan source' =
      ((tokensFrom .start (scan source).1).map (Token.respelled ρ), (scan source).2) := by
  refine scan_of_reworded (forall₂_reworded hρ) ?_
  rw [hsource, map_respelled_sourceTokens hρ, List.flatMap_append, List.flatMap_singleton]

theorem lex_respelled {source' : String} (hsource : source'.toList =
    ((sourceTokens source).map (Token.respelled ρ)).flatMap Lexeme.chars) :
    lex source' = (sourceTokens source).map (Token.respelled ρ) := by
  rw [lex, scan_respelled hρ hsource, map_respelled_sourceTokens hρ]

end

section
variable {p : Token → Bool} {new source : String}
  (hp : ∀ t ∈ sourceTokens source, p t → t.kind = .identifier) (hword : isWord new)
  (hkind : wordKind new = .identifier)

include hp hword hkind

theorem respells_oneText : Respells (oneText p new) source := by
  intro t ht text htext
  rw [oneText, Option.mem_def, Option.ite_none_right_eq_some] at htext
  obtain ⟨hpt, htext⟩ := htext
  rw [← Option.some.inj htext]
  exact ⟨hp t ht hpt, hword, hkind⟩

theorem lex_replaceTokens :
    lex (replaceTokens p new source) = replaced p new (sourceTokens source) := by
  rw [replaced_eq]
  refine lex_respelled (respells_oneText hp hword hkind) ?_
  rw [← replaced_eq, toList_replaceTokens]

end

end Xref
