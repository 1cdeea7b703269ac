import Xref.Grammar.Expressions
import Xref.Grammar.Types
import Xref.Proofs.Syntax.Accepting

/-!
# The language of types and expressions

The productions for types and expressions accept the rules of the grammar. A type or an expression
ends where a closer follows (`closers`), and none of these can go on with what came before.

The grammar says nothing about the strength of operators. The loop over operators takes all that are
strong enough, and the right side of each takes the stronger ones behind it. So the operators of an
expression are the same sequence, divided in another way (`exists_split_operations`).
-/

namespace Xref

namespace Grammar

open Production

variable {k m n : Nat} {f : Lookahead} {inner : Production}

/-- What may follow a type or an expression. -/
def closers : List Pattern := [";", "=", ",", ")", openBrace].map (.exactly .punctuation)

/-- A list in brackets, of what the test finds and what ends at a closer. -/
theorem accepts_bracketed {test : Lookahead} {fs : List Pattern} {r : Rule} {p : Production}
    (htest : Looks test fs) (hr : r.begins fs)
    (hapart : Pattern.allApart [.exactly .punctuation ")"] fs)
    (hp : Accepts n test r (atAny closers) p) :
    Accepts (n + 1) (atPunctuation "(") (.row [.punctuation "(", .commaList r, .punctuation ")"]) f
      (sequence [take, separated test p n, punctuation ")"]) := by
  have hlist : Accepts n always (.commaList r) (atAny [.exactly .punctuation ")"])
      (separated test p n) := by
    refine .separated htest hr hp ?_ (fun ls hls => ?_) (Nat.le_refl n)
    · exact (looks_punctuation ",").atAny (by decide)
    · exact ⟨htest.not_of_atAny hapart ls hls,
        (looks_punctuation ",").not_of_atAny (by decide) ls hls, atAny_mono (by decide) hls⟩
  exact .take_cons (looks_punctuation "(").tests <|
    hlist.cons (.first (by decide)) (.last (.punctuation ")"))

/-! ## Types -/

theorem accepts_typeReference :
    Accepts k always (.row [.identifier, .optional (.row [.punctuation ":", .identifier])])
      (atAny closers) typeReference := by
  have hmodule : Accepts (k + 2) (both (atPunctuation ":") (after 1 atIdentifier))
      (.row [.punctuation ":", .identifier]) (atAny closers) (sequence [take, take]) :=
    .take_cons_of (looks_punctuation ":").tests (fun ls hls => (both_iff.1 hls).1)
      (fun l ls hls => (both_iff.1 hls).2) (.last (.take looks_identifier.tests))
  have hname := hmodule.optional_of (fun ls rest hread => ?_) fun ls hls htest =>
    (looks_punctuation ":").not_of_atAny (by decide) ls hls (both_iff.1 htest).1
  · refine .expect looks_identifier rfl (.node (by decide) ?_)
    exact (Accepts.take_cons looks_identifier.tests hname.last).mono (by omega)
  · -- A colon is taken for the one of a type only if a name follows it.
    obtain ⟨mid, hcolon, hread⟩ := reads_row_cons.1 hread
    obtain ⟨_, hidentifier, -⟩ := reads_row_cons.1 hread
    obtain ⟨l, rfl, hl⟩ := (looks_punctuation ":").tests.reads _ _ |>.1 hcolon
    exact both_iff.2 ⟨hl, looks_identifier.of_reads hidentifier rfl⟩

theorem accepts_typeDescriptor (n : Nat) :
    Accepts n always (.the .type) (atAny closers) (typeDescriptor n) := by
  induction n with
  | zero => exact Accepts.absent.zero (k := 0) (s := always) (f := always) rfl rfl
  | succ n ih =>
    have hfield : Accepts n atIdentifier (.the .field) always
        (node .recordField [take, punctuation ":", typeDescriptor n, punctuation ";"]) := by
      refine .the (.node (by decide) (.mono (.take_cons looks_identifier.tests ?_) (Nat.le_succ n)))
      exact .cons_free (.punctuation ":") (ih.cons (.first (by decide)) (.last (.punctuation ";")))
    have hfields : Accepts n always (.star (.the .field))
        (atAny [.exactly .punctuation closeBrace])
        (repeated atIdentifier
          (node .recordField [take, punctuation ":", typeDescriptor n, punctuation ";"]) n) :=
      hfield.repeated rfl (fun ls rest hread => ⟨looks_identifier.of_reads hread (by decide), rfl⟩)
        (fun ls hls => ⟨looks_identifier.not_of_atAny (by decide) ls hls, rfl⟩) (Nat.le_refl n)
    refine .the (.choose (looks_keyword "record") (by decide) (by decide)
      (.the (.node (by decide) ?_)) accepts_typeReference.orNever)
    exact .take_cons (looks_keyword "record").tests <| .cons_free (.punctuation openBrace) <|
      hfields.cons (.first (by decide)) (.last (.punctuation closeBrace))

/-! ## Expressions -/

theorem looks_literal : Looks atLiteral [.ofKind .literal] := by
  intro ls
  cases ls with
  | nil => rfl
  | cons l ls => exact (Bool.or_false _).symm

theorem looks_sign : Looks atSign [.exactly .punctuation "-", .exactly .punctuation "!"] :=
  (looks_punctuation "-").either (looks_punctuation "!")

theorem looks_expression : Looks atExpression (Nonterminal.first .expr) :=
  looks_identifier.either (looks_literal.either ((looks_punctuation "(").either looks_sign))

/-- What may follow an expression without operators. -/
def behindUnary : List Pattern := Nonterminal.first .operator ++ closers

/-- What may follow an operand. -/
def behindOperand : List Pattern := .exactly .punctuation "." :: behindUnary

section
variable (h : Accepts n always (.the .expr) (atAny closers) inner)

include h

theorem accepts_argumentList :
    Accepts (n + 1) (atPunctuation "(") (.the .arguments) f (argumentList inner n) := by
  have hargument : Accepts n atExpression (.the .expr) (atAny closers)
      (node .positionalArgument [inner]) := (h.wrap (by decide)).restrict fun _ _ => rfl
  exact .the <| .node (by decide) <|
    accepts_bracketed looks_expression (by decide) (by decide) hargument

omit h in
/-- A name is taken together with the module name before it. -/
theorem accepts_nameReference (hf : ∀ ls, f ls → ¬ atPunctuation ":" ls) :
    Accepts k atIdentifier (.the .name) f nameReference := by
  have hcolon := (looks_punctuation ":").tests
  have hqualified : Accepts (k + 3)
      (both atIdentifier (both (after 1 (atPunctuation ":")) (after 2 atIdentifier)))
      (.row [.identifier, .punctuation ":", .identifier]) f (sequence [take, take, take]) := by
    refine .take_cons_of (t := both (atPunctuation ":") (after 1 atIdentifier))
      looks_identifier.tests (fun ls hls => (both_iff.1 hls).1)
      (fun l ls hls => (both_iff.1 hls).2) ?_
    exact .take_cons_of hcolon (fun ls hls => (both_iff.1 hls).1)
      (fun l ls hls => (both_iff.1 hls).2) (.last (.take looks_identifier.tests))
  have hsimple : Accepts k atIdentifier (.row [.identifier]) f (sequence [take]) :=
    .last (.take looks_identifier.tests)
  refine .the ((Accepts.choose_of (.node (by decide) (hqualified.mono (by omega)))
    (.node (by decide) hsimple) (fun ls hls htest => both_iff.2 ⟨hls, htest⟩)
    (fun ls hls _ => hls) (fun ls rest _ hread _ => ?_) fun ls rest _ hread hrest htest => ?_).congr
      fun ls rest _ => ?_)
  · obtain ⟨_, hname, hbehind⟩ := reads_row_cons.1 hread
    obtain ⟨_, hmark, hlast⟩ := reads_row_cons.1 hbehind
    obtain ⟨l, rfl, -⟩ := (looks_identifier.tests.reads _ _).1 hname
    obtain ⟨l', rfl, hl'⟩ := (hcolon.reads _ _).1 hmark
    exact both_iff.2 ⟨hl', looks_identifier.of_reads hlast rfl⟩
  · obtain ⟨_, hname, hend⟩ := reads_row_cons.1 hread
    obtain ⟨l, rfl, -⟩ := (looks_identifier.tests.reads _ _).1 hname
    obtain rfl := reads_row_nil.1 hend
    exact hf _ hrest (both_iff.1 htest).1
  · simp [Nonterminal.rule, and_or_left, exists_or]

theorem accepts_operand : Accepts (n + 1) always
    (.oneOf [.row [.the .name, .optional (.the .arguments)], .literal,
      .row [.punctuation "(", .the .expr, .punctuation ")"]])
    (atAny behindOperand) (operand inner n) := by
  have hcall : AcceptsStep n always (.optional (.the .arguments)) (atAny behindOperand)
      fun name => choose (atPunctuation "(") (.extend name .functionCall [argumentList inner n])
        fun ls => (name, ls) :=
    .optional (looks_punctuation "(") (by decide)
      ((looks_punctuation "(").not_of_atAny (by decide))
      (.extend (by decide) ((accepts_argumentList h).mono (Nat.le_succ n)).single)
  have hname : Accepts (n + 1) atIdentifier (.the .name)
      (atAny (.exactly .punctuation "(" :: behindOperand)) nameReference :=
    accepts_nameReference ((looks_punctuation ":").not_of_atAny (by decide))
  have hcalled : Accepts (n + 1) atIdentifier (.row [.the .name, .optional (.the .arguments)])
      (atAny behindOperand)
      (nameReference.andThen fun name =>
        choose (atPunctuation "(") (extend name .functionCall [argumentList inner n])
          fun ls => (name, ls)) :=
    (hname.andThen rfl (.first_or (by decide) (by decide)) hcall).congr fun ls rest _ => by simp
  have hbraced : Accepts (n + 1) (atPunctuation "(")
      (.row [.punctuation "(", .the .expr, .punctuation ")"]) (atAny behindOperand)
      (node .bracedExpression [take, inner, punctuation ")"]) :=
    .node (by decide) <| .take_cons (looks_punctuation "(").tests <|
      h.cons (.first (by decide)) (.last (.punctuation ")"))
  refine .choose looks_identifier (by decide) (by decide) hcalled ?_
  refine .choose looks_literal (by decide) (by decide) ?_ ?_
  · exact .wrap (by decide) (.take looks_literal.tests)
  · exact (Accepts.expect (looks_punctuation "(") (by decide) hbraced).orNever

theorem accepts_member :
    AcceptsStep n atMember (.the .suffix) (atAny behindOperand) (member inner n) := by
  have hdot := (looks_punctuation ".").tests
  have hmethod : Accepts (n + 3) (both atMember (after 2 (atPunctuation "(")))
      (.row [.punctuation ".", .identifier, .the .arguments]) (atAny behindOperand)
      (sequence [take, take, argumentList inner n]) := by
    refine .take_cons_of (t := both atIdentifier (after 1 (atPunctuation "("))) hdot
      (fun ls hls => ?_) (fun l ls hls => ?_) <|
        .take_cons_of looks_identifier.tests (fun ls hls => (both_iff.1 hls).1)
          (fun l ls hls => (both_iff.1 hls).2) (accepts_argumentList h).last
    · exact (both_iff.1 (both_iff.1 hls).1).1
    · exact both_iff.2 ⟨(both_iff.1 (both_iff.1 hls).1).2, (both_iff.1 hls).2⟩
  have hfield : Accepts (n + 2) atMember (.row [.punctuation ".", .identifier])
      (atAny behindOperand) (sequence [take, take]) :=
    .take_cons_of hdot (fun ls hls => (both_iff.1 hls).1)
      (fun l ls hls => (both_iff.1 hls).2) (.last (.take looks_identifier.tests))
  have hcall : AcceptsStep n (both atMember (after 2 (atPunctuation "(")))
      (.row [.punctuation ".", .identifier, .the .arguments]) (atAny behindOperand)
      fun left => .extend left .methodCall [take, take, argumentList inner n] :=
    .extend (by decide) (hmethod.mono (by omega))
  have haccess : AcceptsStep n atMember (.row [.punctuation ".", .identifier])
      (atAny behindOperand) fun left => .extend left .fieldAccess [take, take] :=
    .extend (by decide) (hfield.mono (by omega))
  refine (hcall.choose_of haccess (fun ls hls htest => both_iff.2 ⟨hls, htest⟩)
    (fun ls hls _ => hls) (fun ls rest _ hread _ => ?_) fun ls rest _ hread hrest => ?_).congr
      fun ls rest _ => ?_
  · obtain ⟨_, hmark, hbehind⟩ := reads_row_cons.1 hread
    obtain ⟨_, hname, hlast⟩ := reads_row_cons.1 hbehind
    obtain ⟨l, rfl, -⟩ := (hdot.reads _ _).1 hmark
    obtain ⟨l', rfl, -⟩ := (looks_identifier.tests.reads _ _).1 hname
    exact (looks_punctuation "(").of_reads hlast (by decide)
  · obtain ⟨_, hmark, hbehind⟩ := reads_row_cons.1 hread
    obtain ⟨_, hname, hend⟩ := reads_row_cons.1 hbehind
    obtain ⟨l, rfl, -⟩ := (hdot.reads _ _).1 hmark
    obtain ⟨l', rfl, -⟩ := (looks_identifier.tests.reads _ _).1 hname
    obtain rfl := reads_row_nil.1 hend
    exact (looks_punctuation "(").not_of_atAny (by decide) _ hrest
  · simp [reads_the, Nonterminal.rule, and_or_left, exists_or]

theorem accepts_memberChain :
    Accepts (n + 1) always (.the .chain) (atAny behindUnary) (memberChain inner n) := by
  have hmembers : AcceptsStep n always (.star (.the .suffix)) (atAny behindUnary)
      (growing atMember (member inner n) n) := by
    refine (accepts_member h).growing rfl (fun ls rest hread => ⟨?_, hread.atAny (by decide)⟩)
      (fun ls hls => ⟨fun htest => ?_, atAny_mono (by decide) hls⟩) (Nat.le_refl n)
    · obtain ⟨_, hmark, hbehind⟩ := reads_row_cons.1 (reads_the.1 hread)
      obtain ⟨l, rfl, hl⟩ := ((looks_punctuation ".").tests.reads _ _).1 hmark
      exact both_iff.2 ⟨hl, looks_identifier.of_reads hbehind (by decide)⟩
    · exact (looks_punctuation ".").not_of_atAny (by decide) ls hls (both_iff.1 htest).1
  refine .the (((accepts_operand h).andThen rfl (.first_or (by decide) (by decide)) hmembers).congr
    fun ls rest _ => ?_)
  simp [Nonterminal.rule]

theorem accepts_signed (hm : m ≤ n + 1) :
    Accepts m always (.the .unary) (atAny behindUnary) (signed inner n m) := by
  induction m with
  | zero => exact (accepts_memberChain h).zero rfl rfl
  | succ m ih =>
    have hsigned : Accepts (m + 1) atSign
        (.row [.oneOf [.punctuation "-", .punctuation "!"], .the .unary]) (atAny behindUnary)
        (node .unaryExpression [take, expect atExpression (signed inner n m)]) :=
      .node (by decide) <| .take_cons looks_sign.tests_oneOf <| .last <|
        .expect looks_expression (by decide) ((ih (Nat.le_of_succ_le hm)).restrict fun _ _ => rfl)
    exact .the (.choose looks_sign (by decide) (by decide) hsigned
      ((accepts_memberChain h).mono hm).orNever)

end

/-! ### Operators -/

/-- The operators at least as strong as `least`. -/
def strongOperators (least : Nat) : List Pattern :=
  (operators.filter (least ≤ ·.2)).map fun o => .exactly .punctuation o.1

/-- What may follow an expression of operators at least as strong as `least`. -/
def behindOperation (least : Nat) : Lookahead :=
  either (atAny closers) (next fun l => (strength? l).any (· < least))

/-- Operators at least as strong as `least`, each with what stands right of it. -/
def operations (least : Nat) : Rule :=
  .star (.seq (.oneOf ((strongOperators least).map .token)) (.the .unary))

/-- An expression of operators at least as strong as `least`. -/
def operation (least : Nat) : Rule := .seq (.the .unary) (operations least)

theorem any_lookup {α β : Type} [BEq α] [LawfulBEq α] {es : List (α × β)}
    (hnodup : (es.map Prod.fst).Nodup) (a : α) (p : β → Bool) :
    (es.lookup a).any p = es.any fun e => a == e.1 && p e.2 := by
  induction es with
  | nil => rfl
  | cons e es ih =>
    rw [List.map_cons, List.nodup_cons] at hnodup
    rw [List.lookup_cons, List.any_cons, ← ih hnodup.2]
    cases ha : a == e.1 with
    | false => simp
    | true =>
      obtain rfl := eq_of_beq ha
      have hnone : es.lookup e.1 = none := by
        refine List.lookup_eq_none_iff.2 fun e' he' => bne_iff_ne.2 fun heq => ?_
        exact hnodup.1 (heq ▸ List.mem_map_of_mem he')
      simp [hnone]

theorem looks_operator (least : Nat) : Looks (atOperator least) (strongOperators least) := by
  intro ls
  cases ls with
  | nil => rfl
  | cons l ls =>
    have hpatterns : (strongOperators least).any (·.fits l.terminal) =
        operators.any fun o => l.kind == .punctuation && (l.text == o.1 && least ≤ o.2) := by
      rw [strongOperators, List.any_map, List.any_filter]
      congr 1
      funext o
      simp only [Function.comp, Pattern.fits, Lexeme.terminal]
      ac_rfl
    show (strength? l).any _ = (strongOperators least).any _
    rw [hpatterns, strength?]
    split
    · rename_i hkind
      rw [any_lookup (by decide), hkind]
      rfl
    · rename_i hkind
      simp [hkind]

section
variable {least s : Nat} {l : Lexeme} {ls mid rest : List Lexeme}

theorem atOperator_cons :
    atOperator least (l :: ls) ↔ ∃ s, strength? l = some s ∧ least ≤ s := by
  simp [atOperator, next, Option.any_eq_true]

/-- What is read as an operator is one lexeme of that strength. -/
theorem reads_operator : Reads (.oneOf ((strongOperators least).map .token)) ls rest ↔
    ∃ l, ls = l :: rest ∧ ∃ s, strength? l = some s ∧ least ≤ s := by
  rw [(looks_operator least).tests_oneOf.reads]
  refine exists_congr fun l => and_congr_right ?_
  rintro rfl
  exact atOperator_cons

theorem behindOperation_cons : behindOperation least (l :: ls) ↔
    atAny closers (l :: ls) ∨ ∃ s, strength? l = some s ∧ s < least := by
  simp [behindOperation, either, next, Option.any_eq_true]

theorem reads_operations_mono (h : Reads (operations s) ls rest) (hle : least ≤ s) :
    Reads (operations least) ls rest := by
  refine h.star_mono fun ls mid hround => ?_
  obtain ⟨_, hoperator, hunary⟩ := reads_seq.1 hround
  obtain ⟨l, rfl, u, hu, hs⟩ := reads_operator.1 hoperator
  exact reads_seq.2 ⟨_, reads_operator.2 ⟨l, rfl, u, hu, Nat.le_trans hle hs⟩, hunary⟩

/-- What follows an expression follows its operands. -/
theorem behindUnary_of_behindOperation (h : behindOperation least ls) : atAny behindUnary ls := by
  cases ls with
  | nil => cases h
  | cons l ls =>
    rcases behindOperation_cons.1 h with hls | ⟨s, hs, -⟩
    · exact atAny_mono (by decide) hls
    · exact (looks_operator 0).atAny (by decide) _ (atOperator_cons.2 ⟨s, hs, Nat.zero_le s⟩)

theorem not_atOperator_of_behindOperation (h : behindOperation least ls) :
    ¬ atOperator least ls := by
  cases ls with
  | nil => cases h
  | cons l ls =>
    intro hls
    obtain ⟨s, hs, hle⟩ := atOperator_cons.1 hls
    rcases behindOperation_cons.1 h with hcloser | ⟨s', hs', hlt⟩
    · exact (looks_operator 0).not_of_atAny (by decide) _ hcloser
        (atOperator_cons.2 ⟨s, hs, Nat.zero_le s⟩)
    · cases hs.symm.trans hs'
      omega

/-- **The stronger operators at the front form the right side of a weaker one.** -/
theorem exists_split_operations (h : Reads (operations least) ls rest) (hle : least ≤ s)
    (hrest : behindOperation least rest) :
    ∃ mid, Reads (operations (s + 1)) ls mid ∧ Reads (operations least) mid rest ∧
      behindOperation (s + 1) mid := by
  refine h.star_induction (motive := fun ls => ∃ mid, Reads (operations (s + 1)) ls mid ∧
    Reads (operations least) mid rest ∧ behindOperation (s + 1) mid) ?_ ?_
  · refine ⟨rest, .star_nil, .star_nil, ?_⟩
    cases rest with
    | nil => cases hrest
    | cons l rest =>
      refine behindOperation_cons.2 ((behindOperation_cons.1 hrest).imp_right ?_)
      rintro ⟨u, hu, hlt⟩
      exact ⟨u, hu, by omega⟩
  · intro ls next hround hmore ih
    obtain ⟨_, hoperator, hunary⟩ := reads_seq.1 hround
    obtain ⟨l, rfl, u, hu, -⟩ := reads_operator.1 hoperator
    by_cases hstrong : s + 1 ≤ u
    · obtain ⟨mid, hright, hothers, hmid⟩ := ih
      have hfirst := reads_seq.2 ⟨_, reads_operator.2 ⟨l, rfl, u, hu, hstrong⟩, hunary⟩
      exact ⟨mid, hfirst.star_cons hright, hothers, hmid⟩
    · exact ⟨_, .star_nil, hround.star_cons hmore,
        behindOperation_cons.2 (.inr ⟨u, hu, Nat.lt_of_not_le hstrong⟩)⟩

/-- An operator, and right of it an expression of operators stronger than `s`. -/
def operatorRule (s : Nat) : Rule :=
  .seq (.oneOf ((strongOperators 0).map .token)) (operation (s + 1))

/-- An operator with a right side of stronger ones stands for as many operators. -/
theorem reads_operations_of_rule (hs : strength? l = some s) (hle : least ≤ s)
    (h : Reads (operatorRule s) (l :: ls) mid) (hmore : Reads (operations least) mid rest) :
    Reads (operations least) (l :: ls) rest := by
  obtain ⟨_, hoperator, hright⟩ := reads_seq.1 h
  obtain ⟨_, hl, -⟩ := reads_operator.1 hoperator
  obtain rfl := List.tail_eq_of_cons_eq hl
  obtain ⟨_, hunary, hstronger⟩ := reads_seq.1 hright
  have hfirst := reads_seq.2 ⟨_, reads_operator.2 ⟨l, rfl, s, hs, hle⟩, hunary⟩
  have hbehind := reads_operations_mono hstronger (Nat.le_succ_of_le hle)
  exact hfirst.star_cons (hbehind.star_append hmore)

/-- Operators are none, or the first of them has a right side of stronger ones. -/
theorem exists_operatorRule (h : Reads (operations least) ls rest)
    (hrest : behindOperation least rest) :
    ls = rest ∨ ∃ l more s mid, ls = l :: more ∧ strength? l = some s ∧ least ≤ s ∧
      Reads (operatorRule s) ls mid ∧ behindOperation (s + 1) mid ∧
      Reads (operations least) mid rest := by
  rcases reads_star.1 h with rfl | ⟨next, hfirst, hmore⟩
  · exact .inl rfl
  · obtain ⟨_, hoperator, hunary⟩ := reads_seq.1 hfirst
    obtain ⟨l, rfl, s, hs, hle⟩ := reads_operator.1 hoperator
    obtain ⟨mid, hright, hothers, hmid⟩ := exists_split_operations hmore hle hrest
    have hrule := reads_seq.2 ⟨_, reads_operator.2 ⟨l, rfl, s, hs, Nat.zero_le s⟩,
      reads_seq.2 ⟨_, hunary, hright⟩⟩
    exact .inr ⟨l, _, s, mid, rfl, hs, hle, hrule, hmid, hothers⟩

end

/-- One round of the loop over the operators. -/
def operatorRound (n : Nat) (left : List Part) : Production := fun ls =>
  extend left .binaryExpression [take, expressionAbove n (nextStrength ls + 1)] ls

section
variable {least : Nat} (h : ∀ least, Accepts n always (operation least) (behindOperation least)
  (expressionAbove n least))

include h

theorem accepts_operatorRound (s : Nat) :
    AcceptsStep (n + 1) (next fun l => strength? l = some s) (operatorRule s)
      (behindOperation (s + 1)) (operatorRound n) := by
  have hextend : AcceptsStep (n + 1) (atOperator 0) (operatorRule s) (behindOperation (s + 1))
      fun left => extend left .binaryExpression [take, expressionAbove n (s + 1)] :=
    .extend (by decide) (.take_cons (looks_operator 0).tests_oneOf (h (s + 1)).single)
  refine ⟨fun left hleft => ?_, fun _ _ hclean => (partsClean_append.1 hclean.1.2).1⟩
  refine ((hextend.accepts left hleft).restrict fun ls hls => ?_).same fun ls hls => ?_
  · cases ls with
    | nil => cases hls
    | cons l ls => exact atOperator_cons.2 ⟨s, of_decide_eq_true hls, Nat.zero_le s⟩
  · cases ls with
    | nil => cases hls
    | cons l ls =>
      have hs : nextStrength (l :: ls) = s := by simp [nextStrength, of_decide_eq_true hls]
      rw [operatorRound, hs]

/-- **The loop over the operators** accepts them, each with a right side of stronger ones. -/
theorem accepts_operations (hm : m ≤ n) :
    AcceptsStep m always (operations least) (behindOperation least)
      (growing (atOperator least) (operatorRound n) m) := by
  induction m with
  | zero =>
    exact ⟨fun _ hleft => Accepts.keep_zero hleft fun _ => .star_nil, fun _ _ hclean => hclean⟩
  | succ m ih =>
    have ih := ih (Nat.le_of_succ_le hm)
    have hround : ∀ left ls, growing (atOperator least) (operatorRound n) (m + 1) left ls =
        if atOperator least ls then growing (atOperator least) (operatorRound n) m
          (operatorRound n left ls).1 (operatorRound n left ls).2 else (left, ls) :=
      fun _ _ => rfl
    refine ⟨fun left hleft => ⟨fun ls hls _ hclean => ?_, fun ls rest hls _ hread hrest => ?_⟩,
      fun left ls hclean => ?_⟩
    · rw [hround] at hclean ⊢
      by_cases htest : atOperator least ls
      · rw [if_pos htest] at hclean ⊢
        obtain ⟨l, more, rfl⟩ : ∃ l more, ls = l :: more := by
          cases ls with
          | nil => cases htest
          | cons l more => exact ⟨l, more, rfl⟩
        obtain ⟨s, hs, hle⟩ := atOperator_cons.1 htest
        have hgrown := ih.keeps _ _ hclean
        have hrule := ((accepts_operatorRound h s).accepts left hleft).sound (l :: more) (by omega)
          (decide_eq_true hs) hgrown
        have hlength := hrule.length_lt rfl
        exact reads_operations_of_rule hs hle hrule
          ((ih.accepts _ hgrown).sound _ (by omega) rfl hclean)
      · rw [if_neg htest]
        exact .star_nil
    · rw [hround]
      obtain rfl | ⟨l, more, s, mid, rfl, hs, hle, hrule, hmid, hmore⟩ :=
        exists_operatorRule hread hrest
      · rw [if_neg (not_atOperator_of_behindOperation hrest)]
        exact ⟨hleft, rfl⟩
      · rw [if_pos (atOperator_cons.2 ⟨s, hs, hle⟩)]
        have hlength := hrule.length_lt rfl
        obtain ⟨hgrown, rfl⟩ := ((accepts_operatorRound h s).accepts left hleft).complete
          (l :: more) mid (by omega) (decide_eq_true hs) hrule hmid
        exact (ih.accepts _ hgrown).complete _ rest (by omega) rfl hmore hrest
    · rw [hround] at hclean
      split at hclean
      · exact (accepts_operatorRound h 0).keeps _ _ (ih.keeps _ _ hclean)
      · exact hclean

end

/-- The operators of the grammar are those with a strength. -/
theorem reads_expr {ls rest : List Lexeme} :
    Reads (.the .expr) ls rest ↔ Reads (operation 0) ls rest := by
  have hround : ∀ ls rest, Reads (.row [.the .operator, .the .unary]) ls rest ↔
      Reads (.seq (.oneOf ((strongOperators 0).map .token)) (.the .unary)) ls rest := by
    intro ls rest
    simp only [reads_row_cons, reads_row_nil, exists_eq_right, reads_seq, reads_the]
    rfl
  have hrounds : ∀ ls rest, Reads (.star (.row [.the .operator, .the .unary])) ls rest ↔
      Reads (operations 0) ls rest := fun ls rest =>
    ⟨fun h => h.star_mono fun ls rest => (hround ls rest).1,
      fun h => h.star_mono fun ls rest => (hround ls rest).2⟩
  rw [reads_the, Nonterminal.rule, operation, reads_seq]
  simp only [reads_row_cons, reads_row_nil, exists_eq_right, hrounds]

theorem accepts_expr {p : Production}
    (h : Accepts n always (operation 0) (behindOperation 0) p) :
    Accepts n always (.the .expr) (atAny closers) p :=
  (h.before fun _ hls => either_iff.2 (.inl hls)).congr fun _ _ _ => reads_expr

theorem accepts_expressionAbove (n least : Nat) :
    Accepts n always (operation least) (behindOperation least) (expressionAbove n least) := by
  induction n generalizing least with
  | zero => exact Accepts.absent.zero (k := 0) (s := always) (f := always) rfl rfl
  | succ n ih =>
    have hunary := (accepts_signed (accepts_expr (ih 0)) (Nat.le_refl (n + 1))).restrict
      (t := atExpression) fun _ _ => rfl
    have hlead : Leads (operations least) (behindOperation least) (atAny behindUnary) := by
      refine .star (fun ls rest hread => ?_) fun ls hls => behindUnary_of_behindOperation hls
      obtain ⟨_, hoperator, -⟩ := reads_seq.1 hread
      obtain ⟨l, rfl, s, hs, -⟩ := reads_operator.1 hoperator
      exact (looks_operator 0).atAny (by decide) _ (atOperator_cons.2 ⟨s, hs, Nat.zero_le s⟩)
    exact .expect looks_expression rfl
      (hunary.andThen rfl hlead (accepts_operations ih (Nat.le_refl n)))

theorem accepts_expression (n : Nat) :
    Accepts n always (.the .expr) (atAny closers) (expression n) :=
  accepts_expr (accepts_expressionAbove n 0)

end Grammar

end Xref
