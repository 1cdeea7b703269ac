import Xref.Grammar.CallStack
import Xref.Proofs.Syntax.Lexing
import Xref.Proofs.Syntax.Lossless
import Xref.Proofs.Text.Bytes

/-!
# Parsing on a call stack is total where blocks nest little

Parsing gives every text its tree exactly if the call stack has room for the blocks that nest in it
(`parseOn_lossless`). It has room where blocks that are in each other, with no if statement between,
take no more of the stack than is free and than is left when the stack does not grow. Braces that open
in each other exhaust every stack if there are enough of them (`parseOn_openBraces`).
-/

namespace Xref

/-! ## Blocks in each other -/

namespace Phrase

mutual

/-- The most blocks in each other with no if statement between them, if `above` of them are around a
phrase. -/
def nesting (above : Nat) : Phrase → Nat
  | ⟨kind, slots⟩ =>
    match kind with
    | .functionBody => nestingAll (above + 1) slots
    | .blockStatement => nestingAll (above + 1) slots
    | .ifElseStatement => max above (nestingAll 0 slots)
    | _ => nestingAll above slots

/-- The most blocks in each other in several slots. -/
def nestingAll (above : Nat) : List Part → Nat
  | [] => above
  | .node p :: rest => max (p.nesting above) (nestingAll above rest)
  | .token _ :: rest => nestingAll above rest
  | .missing :: rest => nestingAll above rest

end

theorem le_nestingAll (above : Nat) (slots : List Part) : above ≤ nestingAll above slots := by
  induction slots with
  | nil => exact Nat.le_refl _
  | cons slot rest ih =>
    cases slot with
    | node p => exact Nat.le_trans ih (Nat.le_max_right _ _)
    | token l => exact ih
    | missing => exact ih

end Phrase

namespace CallStack

variable {s : CallStack} {above most : Nat}

/-- Whether a stack in `above` blocks has room for `most` blocks in each other, here and wherever it
has grown. -/
structure Holds (s : CallStack) (above most : Nat) : Prop where
  here : most * s.frame ≤ s.free + above * s.frame
  grown : most * s.frame ≤ redZone

theorem Holds.grown' (h : s.Holds above most) : s.grown.Holds 0 most := by
  have hgrown := h.grown
  unfold CallStack.grown
  split
  · exact ⟨by simp only [segment, redZone] at *; omega, hgrown⟩
  · exact ⟨by omega, hgrown⟩

theorem Holds.enter (h : s.Holds above most) (hmost : above + 1 ≤ most) :
    s.frame ≤ s.free ∧ (⟨s.free - s.frame, s.frame⟩ : CallStack).Holds (above + 1) most := by
  have hframes : (above + 1) * s.frame ≤ most * s.frame := Nat.mul_le_mul_right _ hmost
  have hhere := h.here
  rw [Nat.succ_mul] at hframes
  refine ⟨by omega, ?_, h.grown⟩
  show most * s.frame ≤ s.free - s.frame + (above + 1) * s.frame
  rw [Nat.succ_mul]
  omega

end CallStack

namespace Phrase

variable {s : CallStack} {above most : Nat}

/-- A block needs room for itself, and then for what is in it. -/
theorem fits_block {kind : NodeKind} (hkind : kind = .functionBody ∨ kind = .blockStatement)
    (slots : List Part) : fits s ⟨kind, slots⟩ ↔
      s.frame ≤ s.free ∧ fitsAll ⟨s.free - s.frame, s.frame⟩ slots := by
  have hinside : s.inside? kind = s.enter? := by rcases hkind with rfl | rfl <;> rfl
  rw [fits, hinside, CallStack.enter?]
  by_cases hroom : s.frame ≤ s.free
  · rw [if_pos hroom, and_iff_right hroom]
  · rw [if_neg hroom]
    exact iff_of_false Bool.false_ne_true fun h => hroom h.1

mutual

/-- A stack with room for the blocks of a phrase has room for parsing it. -/
theorem fits_of_holds : ∀ (p : Phrase) {s : CallStack} {above : Nat}, s.Holds above most →
    p.nesting above ≤ most → p.fits s
  | ⟨kind, slots⟩, s, above, h, hmost => by
    have hblock : kind = .functionBody ∨ kind = .blockStatement →
        nestingAll (above + 1) slots ≤ most → fits s ⟨kind, slots⟩ := by
      intro hkind hmost
      obtain ⟨hroom, hinner⟩ := h.enter ((le_nestingAll _ slots).trans hmost)
      exact (fits_block hkind slots).2 ⟨hroom, fitsAll_of_holds slots hinner hmost⟩
    have hother := fitsAll_of_holds slots h
    have hgrown := fitsAll_of_holds slots h.grown'
    unfold nesting at hmost
    cases kind
    case functionBody => exact hblock (.inl rfl) hmost
    case blockStatement => exact hblock (.inr rfl) hmost
    case ifElseStatement => exact hgrown ((Nat.le_max_right _ _).trans hmost)
    all_goals exact hother hmost

theorem fitsAll_of_holds : ∀ (slots : List Part) {s : CallStack} {above : Nat},
    s.Holds above most → nestingAll above slots ≤ most → fitsAll s slots
  | [], _, _, _, _ => rfl
  | .node p :: rest, s, above, h, hmost => by
    rw [nestingAll] at hmost
    rw [fitsAll, Bool.and_eq_true]
    exact ⟨fits_of_holds p h ((Nat.le_max_left _ _).trans hmost),
      fitsAll_of_holds rest h ((Nat.le_max_right _ _).trans hmost)⟩
  | .token _ :: rest, _, _, h, hmost => fitsAll_of_holds rest h hmost
  | .missing :: rest, _, _, h, hmost => fitsAll_of_holds rest h hmost

end

end Phrase

/-- **Parsing on a call stack** gives a text its tree, which keeps all of the text, if the blocks that
nest in each other take no more than is free and than is left where the stack does not grow. It does
so exactly if the stack has room for the text, and else exhausts the stack. -/
theorem parseOn_lossless (s : CallStack) {source : String}
    (hsize : source.utf8ByteSize ≤ Span.maxOffset) :
    ((Phrase.ofSource source).nesting 0 * s.frame ≤ min s.free CallStack.redZone →
      ∃ tree, parseOn s source = .ok tree ∧ tree.Lossless source) ∧
    ((∃ tree, parseOn s source = .ok tree ∧ tree.Lossless source) ↔
      (Phrase.ofSource source).fits s) ∧
    (parseOn s source = .error .stackExhausted ↔ ¬ (Phrase.ofSource source).fits s) := by
  obtain ⟨tree, htree, hlossless, -⟩ := parse_lossless hsize
  have hparsed : (Phrase.ofSource source).fits s → parseOn s source = .ok tree := fun h => by
    rw [parseOn, if_pos h, htree]
    rfl
  have hexhausted : ¬ (Phrase.ofSource source).fits s →
      parseOn s source = .error .stackExhausted := fun h => if_neg h
  refine ⟨fun h => ?_, ⟨?_, fun h => ⟨tree, hparsed h, hlossless⟩⟩, fun h hfits => ?_, hexhausted⟩
  · have hholds : s.Holds 0 ((Phrase.ofSource source).nesting 0) :=
      ⟨by omega, h.trans (Nat.min_le_right _ _)⟩
    exact ⟨tree, hparsed (Phrase.fits_of_holds _ hholds (Nat.le_refl _)), hlossless⟩
  · rintro ⟨tree', htree', -⟩
    by_contra h
    cases (hexhausted h).symm.trans htree'
  · cases (hparsed hfits).symm.trans h

theorem parseOn_lossless_nestedBlocks :
    (∃ tree, parseOn ⟨200, 100⟩ "fn f(){{}}" = .ok tree ∧ tree.Lossless "fn f(){{}}") ∧
    parseOn ⟨199, 100⟩ "fn f(){{}}" = .error .stackExhausted := by
  have hsize : "fn f(){{}}".utf8ByteSize ≤ Span.maxOffset := by decide
  obtain ⟨hparsed, -⟩ := parseOn_lossless ⟨200, 100⟩ hsize
  obtain ⟨-, -, hexhausted⟩ := parseOn_lossless ⟨199, 100⟩ hsize
  exact ⟨hparsed (by decide +kernel), hexhausted.2 (by decide +kernel)⟩

/-! ## Open braces -/

/-- A function whose body opens `n` blocks, each in the one before, and closes none. -/
def openBraces (n : Nat) : String := "fn f()" ++ String.ofList (List.replicate (n + 1) '{')

theorem toList_openBraces (n : Nat) : (openBraces n).toList =
    'f' :: 'n' :: ' ' :: 'f' :: '(' :: ')' :: List.replicate (n + 1) '{' := by
  rw [openBraces, String.toList_append, String.toList_ofList, String.toList_ofList]
  rfl

theorem utf8ByteSize_openBraces (n : Nat) : (openBraces n).utf8ByteSize = n + 7 := by
  have hone : ∀ c ∈ (openBraces n).toList, c.utf8Size = 1 := by
    rw [toList_openBraces]
    simp only [List.forall_mem_cons, List.forall_mem_replicate]
    exact ⟨rfl, rfl, rfl, rfl, rfl, rfl, .inr rfl⟩
  rw [Text.utf8ByteSize_eq, Text.byteLength_eq_mul hone, toList_openBraces]
  simp

/-- A mark of one character, with no trivia. -/
def Lexeme.mark (c : Char) : Lexeme := ⟨.punctuation, String.ofList [c], [], []⟩

/-- The lexemes in front of the body. -/
def openHeader : List Lexeme :=
  [⟨.keyword, "fn", [], [⟨.whitespace, " "⟩]⟩, ⟨.identifier, "f", [], []⟩, .mark '(', .mark ')']

theorem lexemes_braces (n : Nat) :
    lexemes [] (List.replicate n '{') = (List.replicate n (.mark '{'), []) := by
  have hgap : ∀ n, trivium? (List.replicate n '{') = none := fun n => by cases n <;> rfl
  induction n with
  | zero =>
    rw [List.replicate_zero, lexemes]
    rfl
  | succ n ih =>
    have htoken : token '{' (List.replicate n '{') =
        ⟨.punctuation, ['{'], List.replicate n '{'⟩ := by cases n <;> rfl
    rw [List.replicate_succ, lexemes_of_token htoken (trivia_eq_of_trivium? (hgap n)) (hgap n), ih]
    rfl

theorem scan_openBraces (n : Nat) : scan (openBraces n) =
    (openHeader ++ List.replicate (n + 1) (.mark '{'), ⟨.endOfFile, "", [], []⟩) := by
  have hmarks : lexemes [] ('(' :: ')' :: List.replicate (n + 1) '{') =
      (.mark '(' :: .mark ')' :: List.replicate (n + 1) (.mark '{'), []) := by
    rw [lexemes_of_token (p := ⟨.punctuation, ['('], ')' :: List.replicate (n + 1) '{'⟩) rfl
        (trivia_eq_of_trivium? rfl) rfl,
      lexemes_of_token (p := ⟨.punctuation, [')'], List.replicate (n + 1) '{'⟩) rfl
        (trivia_eq_of_trivium? rfl) rfl, lexemes_braces]
    rfl
  have hgap : trivium? ('(' :: ')' :: List.replicate (n + 1) '{') = none := rfl
  have hend : ∀ d ∈ ('(' :: ')' :: List.replicate (n + 1) '{').head?, ¬ continuesWord d := by
    simp
    rfl
  rw [scan, toList_openBraces]
  generalize '(' :: ')' :: List.replicate (n + 1) '{' = body at hmarks hgap hend
  have hkeyword : token 'f' ('n' :: ' ' :: 'f' :: body) =
      ⟨.keyword, ['f', 'n'], ' ' :: 'f' :: body⟩ :=
    @token_word 'f' ['n'] _ rfl rfl (by simp; rfl)
  have hspace : trivia true (' ' :: 'f' :: body) = ([⟨.whitespace, " "⟩], 'f' :: body) :=
    trivia_of_trivium? (p := ⟨.whitespace, [' '], 'f' :: body⟩) rfl (by simp) rfl
  have hname : token 'f' body = ⟨.identifier, ['f'], body⟩ :=
    @token_word 'f' [] body rfl rfl hend
  rw [trivia_eq_of_trivium? rfl, lexemes_of_token hkeyword hspace rfl,
    lexemes_of_token hname (trivia_eq_of_trivium? hgap) hgap, hmarks]
  rfl

namespace Phrase

/-- The phrase of blocks that open in each other, `n` of them in the first. -/
def openBlock (kind : NodeKind) : Nat → Phrase
  | 0 => ⟨kind, [.token (.mark '{'), .missing]⟩
  | n + 1 => ⟨kind, [.token (.mark '{'), .node (openBlock .blockStatement n), .missing]⟩

/-- The phrase of the function whose body is in these slots. -/
def openFunction (body : List Part) : Phrase :=
  ⟨.functionDefinition, .token ⟨.keyword, "fn", [], [⟨.whitespace, " "⟩]⟩ ::
    .token ⟨.identifier, "f", [], []⟩ ::
    .node ⟨.parameterList, [.token (.mark '('), .token (.mark ')')]⟩ :: body⟩

/-- Blocks that open in each other need room for each of them. -/
theorem fits_openBlock {s : CallStack} {kind : NodeKind} (n : Nat)
    (hkind : kind = .functionBody ∨ kind = .blockStatement) :
    (openBlock kind n).fits s ↔ (n + 1) * s.frame ≤ s.free := by
  induction n generalizing s kind with
  | zero =>
    rw [openBlock, fits_block hkind, Nat.zero_add, Nat.one_mul]
    exact and_iff_left rfl
  | succ n ih =>
    rw [openBlock, fits_block hkind, Nat.succ_mul]
    simp only [fitsAll, Bool.and_true, ih (.inr rfl)]
    omega

end Phrase

section

open Production Grammar

/-- A production that leaves nothing is not repeated. -/
theorem Production.repeated_once {test : Lookahead} {p : Production} {n : Nat} {ls : List Lexeme}
    {found : List Part} (htest : test ls) (hend : ¬ test []) (hp : p ls = (found, [])) :
    repeated test p (n + 1) ls = (found, []) := by
  have hnone : repeated test p n [] = ([], []) := by
    cases n with
    | zero => rfl
    | succ n => exact if_neg hend
  rw [repeated, Production.optional, choose, if_pos htest]
  simp only [Production.sequence, nothing, hp, hnone, List.append_nil]

theorem block_openBraces {m n : Nat} (kind : NodeKind) (h : n ≤ m) :
    block kind (statement m) m (List.replicate (n + 1) (.mark '{')) =
      ([.node (Phrase.openBlock kind n)], []) := by
  induction n generalizing kind m with
  | zero => cases m <;> rfl
  | succ n ih =>
    cases m with
    | zero => exact absurd h (Nat.not_succ_le_zero n)
    | succ m =>
      have hinner : statement (m + 1) (List.replicate (n + 1) (.mark '{')) =
          ([.node (Phrase.openBlock .blockStatement n)], []) :=
        ih .blockStatement (Nat.le_of_succ_le_succ h)
      have hbody := @repeated_once insideBlock _ m _ _ rfl (by decide) hinner
      rw [List.replicate_succ, block, node, extend]
      simp only [Production.sequence, take, hbody]
      rfl

theorem ofSource_openBraces (n : Nat) : Phrase.ofSource (openBraces n) =
    ⟨.modulePart, [.node (.openFunction [.node (.openBlock .functionBody n)]),
      .token ⟨.endOfFile, "", [], []⟩]⟩ := by
  have hlength : (openHeader ++ List.replicate (n + 1) (Lexeme.mark '{')).length = n + 5 := by
    rw [List.length_append, List.length_replicate, Nat.add_comm]
    rfl
  have hfunction : item (n + 5) (openHeader ++ List.replicate (n + 1) (.mark '{')) =
      ([.node (.openFunction [.node (.openBlock .functionBody n)])], []) := by
    let body := block .functionBody (statement (n + 5)) (n + 5) (List.replicate (n + 1) (.mark '{'))
    have hbody : body = _ := block_openBraces .functionBody (Nat.le_add_right n 5)
    have hread : item (n + 5) (openHeader ++ List.replicate (n + 1) (.mark '{')) =
        ([.node (.openFunction (body.1 ++ []))], body.2) := rfl
    rw [hread, hbody]
    rfl
  rw [Phrase.ofSource, scan_openBraces, modulePhrase]
  dsimp only
  rw [hlength, items, repeated_once rfl (by decide) hfunction]
  rfl

end

/-- **Open braces exhaust the stack** exactly if it has no room for all of their blocks. -/
theorem parseOn_openBraces (s : CallStack) (n : Nat) :
    parseOn s (openBraces n) = .error .stackExhausted ↔ s.free < (n + 1) * s.frame := by
  have hfits : (Phrase.ofSource (openBraces n)).fits s ↔ (n + 1) * s.frame ≤ s.free := by
    rw [ofSource_openBraces, ← Phrase.fits_openBlock n (.inl rfl)]
    show ((Phrase.openBlock .functionBody n).fits s && true) && true ↔ _
    rw [Bool.and_true, Bool.and_true]
  rw [parseOn, ← Nat.not_le, ← hfits]
  split
  · rename_i hroom
    refine iff_of_false ?_ (not_not_intro hroom)
    cases parse (openBraces n) <;> rintro ⟨⟩
  · rename_i hroom
    exact iff_of_true rfl hroom

/-- A million open braces are a small text, and they exhaust eight mebibytes however little a block
takes. -/
theorem not_parsed_openBraces : (openBraces 1000000).utf8ByteSize ≤ Span.maxOffset ∧
    ∀ frame, 9 ≤ frame →
      parseOn ⟨8 * 1024 * 1024, frame⟩ (openBraces 1000000) = .error .stackExhausted := by
  refine ⟨by rw [utf8ByteSize_openBraces]; decide, fun frame hframe => ?_⟩
  refine (parseOn_openBraces _ _).2 ?_
  show 8 * 1024 * 1024 < (1000000 + 1) * frame
  omega

end Xref
