import Xref.Proofs.Syntax.Bounds
import Xref.Proofs.Syntax.OperatorTrees
import Xref.Proofs.Syntax.Placement

/-!
# Precedence

Expressions are parsed by going on from what has been built: the loop at a strength takes operators
at least that strong, and the right side of an operator is parsed by the loop at the next strength.
So when the loop goes on, either the next operator is no stronger than the last one, or the last one
has no right side (`Grammar.Built`). Every node of a tree is therefore grouped by the strength of
operators (`parse_grouped`), and an operator tree in it is the only one for its chain.

The grammar bounds how often the loop goes round. The law of a production here is about as many
lexemes ahead as its bound (`Production.Grouping`), so that the loop stops because no operator is
ahead.
-/

namespace Xref

/-! ## Parts whose nodes are grouped -/

/-- Whether every node of several parts is grouped, wherever they are placed. -/
def Standing (parts : List Part) : Prop :=
  ∀ p, ∀ n ∈ Node.preorderOf (placedParts parts p).1, n.Grouped

/-- Whether nodes of this kind group nothing by the strength of operators. -/
def NodeKind.isLoose (k : NodeKind) : Bool := !k.isTight && k != .binaryExpression

namespace Standing

variable {ps qs : List Part} {kind : NodeKind} {slots : List Part}

theorem nil : Standing [] := by
  intro p n hn
  cases hn

theorem token (l : Lexeme) : Standing [.token l] := by
  intro p n hn
  cases hn

theorem missing : Standing [.missing] := by
  intro p n hn
  cases hn

theorem append (hps : Standing ps) (hqs : Standing qs) : Standing (ps ++ qs) := by
  intro p n hn
  rw [placedParts_append, Node.preorderOf_eq, List.filterMap_append, List.flatMap_append,
    ← Node.preorderOf_eq, ← Node.preorderOf_eq] at hn
  rcases List.mem_append.1 hn with hn | hn
  · exact hps p n hn
  · exact hqs _ n hn

/-- A node stands if it is grouped and what is below it stands. -/
theorem node (hgrouped : ∀ p, ((Phrase.mk kind slots).placed p).1.Grouped)
    (hslots : Standing slots) : Standing [.node ⟨kind, slots⟩] := by
  intro p n hn
  rcases List.mem_append.1 hn with hn | hn
  · rcases List.mem_cons.1 hn with rfl | hn
    · exact hgrouped p
    · exact hslots p n hn
  · cases hn

theorem loose (hkind : kind.isLoose) (hslots : Standing slots) :
    Standing [.node ⟨kind, slots⟩] := by
  have hloose : kind.isTight = false ∧ kind ≠ .binaryExpression := by
    simpa [NodeKind.isLoose] using hkind
  refine node (fun p => ⟨fun h => absurd h hloose.2, fun h => ?_⟩) hslots
  exact absurd h (by rw [kind_placed, hloose.1]; decide)

end Standing

/-- The kinds of the nodes that several parts make. -/
theorem kind_of_mem_placedParts {qs : List Part} {p : Place} {c : Node}
    (hc : c ∈ (placedParts qs p).1.filterMap Slot.node?) :
    ∃ q : Phrase, .node q ∈ qs ∧ c.kind = q.kind := by
  induction qs generalizing p with
  | nil => cases hc
  | cons slot rest ih =>
    have hrest : ∀ {p}, c ∈ (placedParts rest p).1.filterMap Slot.node? →
        ∃ q : Phrase, .node q ∈ slot :: rest ∧ c.kind = q.kind := fun h => by
      obtain ⟨q, hq, hkind⟩ := ih h
      exact ⟨q, List.mem_cons_of_mem _ hq, hkind⟩
    cases slot with
    | node q =>
      rcases List.mem_cons.1 hc with rfl | hc
      · exact ⟨q, List.mem_cons_self, kind_placed q p⟩
      · exact hrest hc
    | token l => exact hrest hc
    | missing => exact hrest hc

/-- Whether none of several parts is a binary expression. -/
def BinaryFree (parts : List Part) : Prop :=
  ∀ q : Phrase, .node q ∈ parts → q.kind ≠ .binaryExpression

namespace BinaryFree

theorem nil : BinaryFree [] := fun _ hq => nomatch hq

theorem token (l : Lexeme) : BinaryFree [.token l] := fun _ hq => by simp at hq

theorem missing : BinaryFree [.missing] := fun _ hq => by simp at hq

theorem node {q : Phrase} (hq : q.kind ≠ .binaryExpression) : BinaryFree [.node q] := fun q' hq' => by
  obtain rfl : q' = q := by simpa using hq'
  exact hq

theorem append {ps qs : List Part} (hps : BinaryFree ps) (hqs : BinaryFree qs) :
    BinaryFree (ps ++ qs) := fun q hq => (List.mem_append.1 hq).elim (hps q) (hqs q)

theorem take (ls : List Lexeme) : BinaryFree (Production.take ls).1 := by
  cases ls with
  | nil => exact nil
  | cons l ls => exact token l

end BinaryFree

/-- A tight node stands if no binary expression is right below it. -/
theorem Standing.tight {kind : NodeKind} {slots : List Part} (hkind : kind.isTight)
    (hfree : BinaryFree slots) (hslots : Standing slots) : Standing [.node ⟨kind, slots⟩] := by
  refine node (fun p => ⟨fun h => ?_, fun _ c hc => ?_⟩) hslots
  · rw [kind_placed] at h
    rw [show kind = .binaryExpression from h] at hkind
    cases hkind
  · obtain ⟨q, hq, hc⟩ := kind_of_mem_placedParts hc
    rw [hc]
    exact hfree q hq

/-! ## The law of productions -/

namespace Production

/-- Whether a production fills slots with nodes that are grouped where at most `k` lexemes are
ahead. -/
structure Grouping (k : Nat) (p : Production) : Prop where
  standing : ∀ ls, ls.length ≤ k → Standing (p ls).1
  shrinks : ∀ ls, (p ls).2.length ≤ ls.length

variable {j k : Nat} {p q : Production} {ps : List Production} {test : Lookahead} {kind : NodeKind}

namespace Grouping

theorem mono (h : Grouping k p) (hle : j ≤ k) : Grouping j p :=
  ⟨fun ls hls => h.standing ls (Nat.le_trans hls hle), h.shrinks⟩

theorem nothing : Grouping k nothing := ⟨fun _ _ => .nil, fun _ => Nat.le_refl _⟩

theorem absent : Grouping k absent := ⟨fun _ _ => .missing, fun _ => Nat.le_refl _⟩

theorem take : Grouping k take where
  standing ls _ := by
    cases ls with
    | nil => exact .nil
    | cons l ls => exact .token l
  shrinks ls := by cases ls <;> simp [Production.take]

theorem nil : Grouping k (sequence []) := nothing

theorem cons (h : Grouping k p) (hs : Grouping k (sequence ps)) :
    Grouping k (sequence (p :: ps)) where
  standing ls hls :=
    (h.standing ls hls).append (hs.standing _ (Nat.le_trans (h.shrinks ls) hls))
  shrinks ls := Nat.le_trans (hs.shrinks _) (h.shrinks ls)

/-- Behind the first lexeme there is one less. -/
theorem take_cons (hs : Grouping k (sequence ps)) : Grouping (k + 1) (sequence (.take :: ps)) where
  standing ls hls := by
    refine (take.standing ls hls).append (hs.standing _ ?_)
    cases ls with
    | nil => exact Nat.zero_le _
    | cons l ls => exact Nat.le_of_succ_le_succ hls
  shrinks ls := Nat.le_trans (hs.shrinks _) (take.shrinks (k := k) ls)

theorem node (hkind : kind.isLoose) (hs : Grouping k (sequence ps)) :
    Grouping k (node kind ps) where
  standing ls hls := .loose hkind (hs.standing ls hls)
  shrinks := hs.shrinks

theorem choose (h : Grouping k p) (h' : Grouping k q) : Grouping k (choose test p q) where
  standing ls hls := by
    unfold Production.choose
    split
    · exact h.standing ls hls
    · exact h'.standing ls hls
  shrinks ls := by
    unfold Production.choose
    split
    · exact h.shrinks ls
    · exact h'.shrinks ls

theorem optional (h : Grouping k p) : Grouping k (optional test p) := h.choose nothing

theorem expect (h : Grouping k p) : Grouping k (expect test p) := h.choose absent

theorem punctuation (text : String) : Grouping k (punctuation text) := take.expect

theorem identifier : Grouping k identifier := take.expect

theorem invalid : Grouping k invalid := .node rfl (take.cons nil)

theorem repeated (h : Grouping k p) (n : Nat) : Grouping k (repeated test p n) := by
  induction n with
  | zero => exact nothing
  | succ n ih => exact (h.cons (ih.cons nil)).optional

theorem separated (h : Grouping k p) (n : Nat) : Grouping k (separated test p n) := by
  induction n with
  | zero => exact nothing
  | succ n ih => exact (h.cons ((take.cons (ih.cons nil)).optional.cons nil)).optional

end Grouping

/-! ### Loops -/

variable {s : List Part → Production} {left : List Part} {ls : List Lexeme}

/-- What holds of what has been built and of what is ahead holds when the loop ends. -/
theorem growing_invariant {I : List Part → List Lexeme → Prop}
    (hs : ∀ left ls, (s left ls).2.length ≤ ls.length)
    (hstep : ∀ {left ls}, ls.length ≤ k → test ls → I left ls → I (s left ls).1 (s left ls).2)
    (n : Nat) (hls : ls.length ≤ k) (h : I left ls) :
    I (growing test s n left ls).1 (growing test s n left ls).2 := by
  induction n generalizing left ls with
  | zero => exact h
  | succ n ih =>
    unfold growing
    dsimp only
    split
    · exact ih (Nat.le_trans (hs left ls) hls) (hstep hls ‹_› h)
    · exact h

/-- A loop that takes a lexeme in every round ends where its test fails. -/
theorem growing_stops (htest : test [] = false) {n : Nat}
    (heats : ∀ left, Eats n test (s left)) (hls : ls.length ≤ n) :
    ¬ test (growing test s n left ls).2 := by
  induction n generalizing left ls with
  | zero =>
    rw [List.length_eq_zero_iff.1 (Nat.le_zero.1 hls)]
    exact (by rw [htest]; decide : ¬ test [])
  | succ n ih =>
    unfold growing
    dsimp only
    split
    · have hlt := heats left ls hls ‹_›
      exact ih (fun left => (heats left).mono (Nat.le_succ n)) (by omega)
    · assumption

end Production

/-! ## Operands -/

/-- Whether parts are one node, and no binary expression. -/
def IsOperand (parts : List Part) : Prop :=
  Standing parts ∧ ∃ q : Phrase, parts = [.node q] ∧ q.kind ≠ .binaryExpression

namespace IsOperand

variable {parts : List Part} {kind : NodeKind} {slots : List Part}

theorem binaryFree (h : IsOperand parts) : BinaryFree parts := by
  obtain ⟨-, q, rfl, hq⟩ := h
  exact .node hq

theorem loose (hkind : kind.isLoose) (hslots : Standing slots) : IsOperand [.node ⟨kind, slots⟩] := by
  refine ⟨.loose hkind hslots, _, rfl, fun h => ?_⟩
  rw [show kind = .binaryExpression from h] at hkind
  cases hkind

theorem tight (hkind : kind.isTight) (hfree : BinaryFree slots) (hslots : Standing slots) :
    IsOperand [.node ⟨kind, slots⟩] := by
  refine ⟨.tight hkind hfree hslots, _, rfl, fun h => ?_⟩
  rw [show kind = .binaryExpression from h] at hkind
  cases hkind

end IsOperand

namespace Grammar

open Production

variable {m n : Nat} {inner : Production} {left : List Part} {ls : List Lexeme}

theorem isOperand_nameReference (ls : List Lexeme) : IsOperand (nameReference ls).1 := by
  unfold nameReference choose
  split
  · exact .loose rfl ((Grouping.take.cons (Grouping.take.cons (Grouping.take.cons .nil))).standing
      ls (Nat.le_refl _))
  · exact .loose rfl ((Grouping.take.cons .nil).standing ls (Nat.le_refl _))

section
variable (hinner : Grouping n inner)

include hinner

theorem grouping_argumentList : Grouping (n + 1) (argumentList inner n) := by
  have hargument : Grouping n (node .positionalArgument [inner]) := .node rfl (hinner.cons .nil)
  exact .node rfl (.take_cons ((hargument.separated n).cons ((Grouping.punctuation ")").cons .nil)))

omit hinner in
theorem binaryFree_argumentList (ls : List Lexeme) : BinaryFree (argumentList inner n ls).1 :=
  .node (fun h => nomatch h)

/-- Arguments make a call of a name. -/
theorem isOperand_call (hleft : IsOperand left) (hls : ls.length ≤ n + 1) :
    IsOperand (extend left .functionCall [argumentList inner n] ls).1 := by
  have harguments := (grouping_argumentList hinner).cons .nil
  exact .tight rfl (hleft.binaryFree.append ((binaryFree_argumentList ls).append .nil))
    (hleft.1.append (harguments.standing ls hls))

/-- **A member of an operand is an operand.** -/
theorem isOperand_member (hleft : IsOperand left) (hls : ls.length ≤ n + 1) :
    IsOperand (member inner n left ls).1 := by
  have hname : Grouping (n + 1) (sequence [take, take]) := Grouping.take.cons (Grouping.take.cons .nil)
  have harguments := (grouping_argumentList hinner).cons .nil
  unfold member choose
  split
  · refine .tight rfl (hleft.binaryFree.append ?_)
      (hleft.1.append ((Grouping.take.cons (Grouping.take.cons harguments)).standing ls hls))
    exact (BinaryFree.take _).append ((BinaryFree.take _).append ((binaryFree_argumentList _).append .nil))
  · refine .tight rfl (hleft.binaryFree.append ?_) (hleft.1.append (hname.standing ls hls))
    exact (BinaryFree.take _).append ((BinaryFree.take _).append .nil)

theorem isOperand_operand (hls : ls.length ≤ n + 1) (hexpression : atExpression ls)
    (hsign : ¬ atSign ls) : IsOperand (operand inner n ls).1 := by
  unfold operand
  rw [choose]
  split
  · have hname := isOperand_nameReference ls
    have hle := lawful_nameReference.length_le ls
    unfold andThen
    dsimp only
    rw [choose]
    split
    · exact isOperand_call hinner hname (Nat.le_trans hle hls)
    · exact hname
  rename_i hidentifier
  rw [choose]
  split
  · exact .loose rfl ((Grouping.take.cons .nil).standing ls hls)
  rename_i hliteral
  have hbracket : atPunctuation "(" ls := by
    simpa [atExpression, either, hidentifier, hliteral, hsign] using hexpression
  rw [expect, choose, if_pos hbracket]
  have hslots := Grouping.take_cons (hinner.cons ((Grouping.punctuation ")").cons .nil))
  exact .loose rfl (hslots.standing ls hls)

theorem isOperand_memberChain (hplain : Plain inner) (hls : ls.length ≤ n + 1)
    (hexpression : atExpression ls) (hsign : ¬ atSign ls) :
    IsOperand (memberChain inner n ls).1 :=
  growing_invariant (k := n + 1) (I := fun left _ => IsOperand left) (member_shrinks hplain)
    (fun hls _ hleft => isOperand_member hinner hleft hls) n
    (Nat.le_trans ((lawful_operand hplain).length_le ls) hls)
    (isOperand_operand hinner hls hexpression hsign)

/-- **Signs before an operand and members behind it make an operand.** -/
theorem isOperand_signed (hplain : Plain inner) (hm : ls.length ≤ m) (hls : ls.length ≤ n + 1)
    (hexpression : atExpression ls) : IsOperand (signed inner n m ls).1 := by
  induction m generalizing ls with
  | zero =>
    obtain rfl := List.length_eq_zero_iff.1 (Nat.le_zero.1 hm)
    cases hexpression
  | succ m ih =>
    rw [signed, choose]
    split
    · cases ls with
      | nil => cases hexpression
      | cons l ls =>
        show IsOperand [.node ⟨.unaryExpression, [.token l] ++
          ((expect atExpression (signed inner n m) ls).1 ++ [])⟩]
        rw [List.append_nil, expect, choose]
        split
        · have hsigned := ih (Nat.le_of_succ_le_succ hm) (Nat.le_of_succ_le hls) ‹_›
          exact .tight rfl ((BinaryFree.token l).append hsigned.binaryFree)
            ((Standing.token l).append hsigned.1)
        · exact .tight rfl ((BinaryFree.token l).append .missing)
            ((Standing.token l).append .missing)
    · exact isOperand_memberChain hinner hplain hls hexpression ‹_›

end

/-! ## Operators -/

/-- The state of an expression between two operators at least as strong as `least`: if the last
operator has a right side, no stronger operator is ahead. -/
def Built (least : Nat) (left : List Part) (ahead : List Lexeme) : Prop :=
  Standing left ∧ ∃ q : Phrase, left = [.node q] ∧ (q.kind = .binaryExpression →
    ∃ l op r s, q.slots = [.node l, .token op, r] ∧ strength? op = some s ∧ least ≤ s ∧
      (r = .missing ∨ ¬ atOperator (s + 1) ahead))

theorem Built.of_isOperand {least : Nat} (h : IsOperand left) : Built least left ls := by
  obtain ⟨hstanding, q, hq, hkind⟩ := h
  exact ⟨hstanding, q, hq, fun h => absurd h hkind⟩

theorem strength?_placed {l r : Part} {op : Lexeme} {p : Place} :
    ((Phrase.mk .binaryExpression [l, .token op, r]).placed p).1.strength? = strength? op := by
  cases l <;> cases r <;> rfl

/-- What is known of an operand on the left of an operator. -/
theorem Built.left_of {least s : Nat} {op : Lexeme} {q : Phrase}
    (h : Built least [.node q] (op :: ls)) (hs : strength? op = some s) (p : Place)
    (hkind : (q.placed p).1.kind = .binaryExpression) :
    ∃ t, (q.placed p).1.strength? = some t ∧ (s ≤ t ∨ (q.placed p).1.lacksRight) := by
  obtain ⟨-, q', heq, hq⟩ := h
  cases heq
  obtain ⟨kind, slots⟩ := q
  obtain rfl : kind = .binaryExpression := hkind
  obtain ⟨l, op', r, t, rfl, ht, -, hr⟩ := hq rfl
  refine ⟨t, strength?_placed.trans ht, ?_⟩
  rcases hr with rfl | hno
  · exact .inr rfl
  · refine .inl (Nat.le_of_not_lt fun hlt => hno ?_)
    simpa [atOperator, next, hs, Nat.succ_le_iff] using hlt

/-- What is known of an operand on the right of an operator. -/
theorem Built.right_of {least : Nat} {q : Phrase} (h : Built least [.node q] ls) (p : Place)
    (hkind : (q.placed p).1.kind = .binaryExpression) :
    ∃ t, (q.placed p).1.strength? = some t ∧ least ≤ t := by
  obtain ⟨-, q', heq, hq⟩ := h
  cases heq
  obtain ⟨kind, slots⟩ := q
  obtain rfl : kind = .binaryExpression := hkind
  obtain ⟨l, op, r, t, rfl, ht, hle, -⟩ := hq rfl
  exact ⟨t, strength?_placed.trans ht, hle⟩

/-- **Going on over an operator keeps the state.** On its right there is nothing, or an expression
of stronger operators behind which no stronger one is ahead. -/
theorem Built.operation {least s : Nat} {op : Lexeme} {ahead : List Lexeme} {right : List Part}
    (hleft : Built least left (op :: ls)) (hs : strength? op = some s) (hle : least ≤ s)
    (hright : right = [.missing] ∨ Built (s + 1) right ahead ∧ ¬ atOperator (s + 1) ahead) :
    Built least [.node ⟨.binaryExpression, left ++ .token op :: right⟩] ahead := by
  have hslots : Standing right := hright.elim (· ▸ .missing) (·.1.1)
  have hstanding := hleft.1.append ((Standing.token op).append hslots)
  obtain ⟨q, rfl⟩ : ∃ q, left = [.node q] := hleft.2.imp fun q hq => hq.1
  rcases hright with rfl | ⟨hbuilt, hno⟩
  · refine ⟨.node (fun p => ⟨fun _ => ?_, fun h => nomatch h⟩) hstanding, _, rfl, fun _ => ?_⟩
    · exact ⟨_, _, s, _, rfl, hs, hleft.left_of hs p, .inl rfl⟩
    · exact ⟨_, _, _, s, rfl, hs, hle, .inl rfl⟩
  · obtain ⟨r, rfl⟩ : ∃ r, right = [.node r] := hbuilt.2.imp fun r hr => hr.1
    refine ⟨.node (fun p => ⟨fun _ => ?_, fun h => nomatch h⟩) hstanding, _, rfl, fun _ => ?_⟩
    · exact ⟨_, _, s, _, rfl, hs, hleft.left_of hs p, .inr ⟨_, rfl, hbuilt.right_of _⟩⟩
    · exact ⟨_, _, _, s, rfl, hs, hle, .inr hno⟩

theorem strength_of_atOperator {least : Nat} {op : Lexeme} (h : atOperator least (op :: ls)) :
    ∃ s, strength? op = some s ∧ least ≤ s := by
  cases hs : strength? op with
  | none => simp [atOperator, next, hs] at h
  | some s => exact ⟨s, rfl, by simpa [atOperator, next, hs] using h⟩

/-- **An expression takes all operators ahead that are as strong as it asks,** if its bound allows
for all lexemes. -/
theorem built_expressionAbove {least : Nat} (hls : ls.length ≤ n) :
    (expressionAbove n least ls).1 = [.missing] ∨
      Built least (expressionAbove n least ls).1 (expressionAbove n least ls).2 ∧
        ¬ atOperator least (expressionAbove n least ls).2 := by
  induction n generalizing least ls with
  | zero => exact .inl rfl
  | succ n ih =>
    have hplain := lawful_expressionAbove n 0
    have hinner : Grouping n (expressionAbove n 0) :=
      ⟨fun ls hls => (ih hls).elim (fun h => h ▸ .missing) (·.1.1), hplain.length_le⟩
    rw [expressionAbove, expect, choose]
    split
    · rename_i hexpression
      have hlt : (signed (expressionAbove n 0) n (n + 1) ls).2.length < ls.length :=
        signed_lt hplain hexpression
      refine .inr ⟨?_, growing_stops rfl (fun left ls _ hop => ?_) (by omega)⟩
      · refine growing_invariant (k := n) (I := Built least) (fun left ls => ?_)
          (fun {left ls} hls hop hleft => ?_) n (by omega)
          (.of_isOperand (isOperand_signed hinner hplain hls hls hexpression))
        · exact (Lawful.take.cons ((lawful_expressionAbove n _).cons .nil)).length_le ls
        · cases ls with
          | nil => cases hop
          | cons op ls =>
            obtain ⟨s, hs, hle⟩ := strength_of_atOperator hop
            have hnext : nextStrength (op :: ls) = s := by simp [nextStrength, hs]
            rw [hnext]
            have hright := @ih ls (s + 1) (Nat.le_of_succ_le hls)
            have hgrown := hleft.operation hs hle hright
            simpa [extend, Production.sequence, take, nothing] using hgrown
      · exact extend_lt (k := 0) (.refl ((lawful_expressionAbove n _).cons .nil))
          (length_pos_of_test rfl ls hop)
    · exact .inl rfl

theorem grouping_expression : Grouping n (expression n) :=
  ⟨fun _ hls => (built_expressionAbove hls).elim (fun h => h ▸ .missing) (·.1.1),
    (lawful_expression n).length_le⟩

/-! ## Types, statements and items -/

theorem grouping_typeDescriptor {k : Nat} (n : Nat) : Grouping k (typeDescriptor n) := by
  induction n with
  | zero => exact .absent
  | succ n ih =>
    have hfield : Grouping k
        (node .recordField [take, punctuation ":", typeDescriptor n, punctuation ";"]) :=
      .node rfl <| Grouping.take.cons <| (Grouping.punctuation ":").cons <|
        ih.cons ((Grouping.punctuation ";").cons .nil)
    have hqualified : Grouping k (optional (both (atPunctuation ":") (after 1 atIdentifier))
        (sequence [take, take])) := (Grouping.take.cons (Grouping.take.cons .nil)).optional
    refine .choose (.node rfl ?_) (.expect (.node rfl (Grouping.take.cons (hqualified.cons .nil))))
    exact Grouping.take.cons <| (Grouping.punctuation openBrace).cons <|
      (hfield.repeated n).cons ((Grouping.punctuation closeBrace).cons .nil)

theorem grouping_variableDeclaration {kind : NodeKind} (hkind : kind.isLoose) :
    Grouping (n + 1) (variableDeclaration kind n) := by
  have htype : Grouping n (sequence [take, typeDescriptor n]) :=
    Grouping.take.cons ((grouping_typeDescriptor n).cons .nil)
  have hvalue : Grouping n (sequence [take, expression n]) :=
    Grouping.take.cons (grouping_expression.cons .nil)
  exact .node hkind <| .take_cons <| Grouping.identifier.cons <| htype.optional.cons <|
    hvalue.optional.cons ((Grouping.punctuation ";").cons .nil)

theorem grouping_block {k : Nat} {kind : NodeKind} {statement : Production} (hkind : kind.isLoose)
    (h : Grouping k statement) : Grouping (k + 1) (block kind statement n) :=
  .node hkind (.take_cons ((h.repeated n).cons ((Grouping.punctuation closeBrace).cons .nil)))

theorem grouping_expressionStatement : Grouping n (expressionStatement n) where
  standing ls hls := by
    have hleft := grouping_expression.standing ls hls
    have hrest := Nat.le_trans ((lawful_expression n).length_le ls) hls
    have hvalue := Grouping.take.cons <|
      grouping_expression.cons ((Grouping.punctuation (k := n) ";").cons .nil)
    have hend := (Grouping.punctuation (k := n) ";").cons .nil
    unfold expressionStatement andThen choose
    dsimp only
    split
    · exact .loose rfl (hleft.append (hvalue.standing _ hrest))
    · exact .loose rfl (hleft.append (hend.standing _ hrest))
  shrinks := (lawful_expressionStatement n).length_le

theorem grouping_statement (n : Nat) : Grouping n (statement n) := by
  induction n with
  | zero => exact .invalid
  | succ n ih =>
    have hnested : Grouping (n + 1) (block .blockStatement (statement n) n) := grouping_block rfl ih
    have hbody : Grouping n (expect (atPunctuation openBrace) (block .blockStatement (statement n) n)) :=
      (hnested.mono (Nat.le_succ n)).expect
    have hend := (Grouping.punctuation (k := n) ";").cons .nil
    have helse : Grouping n (node .elseBlock
        [take, choose (atKeyword "if") (statement n) (expect (atPunctuation openBrace)
          (block .blockStatement (statement n) n))]) :=
      .node rfl (Grouping.take.cons ((ih.choose hbody).cons .nil))
    refine .choose (grouping_variableDeclaration rfl) (.choose (.node rfl (.take_cons ?_)) ?_)
    · exact grouping_expression.optional.cons hend
    refine .choose (.node rfl (.take_cons ?_)) (.choose (.node rfl (.take_cons ?_)) ?_)
    · exact grouping_expression.cons (hbody.cons (helse.optional.cons .nil))
    · exact grouping_expression.cons (hbody.cons .nil)
    exact .choose hnested (.choose grouping_expressionStatement .invalid)

theorem grouping_functionDefinition : Grouping (n + 1) (functionDefinition n) := by
  have hparameter : Grouping (n + 1)
      (node .requiredParameter [take, punctuation ":", typeDescriptor n]) :=
    .node rfl <| Grouping.take.cons <| (Grouping.punctuation ":").cons <|
      (grouping_typeDescriptor n).cons .nil
  have hparameters : Grouping (n + 1) (parameterList n) :=
    .expect <| .node rfl <| Grouping.take.cons <|
      (hparameter.separated n).cons ((Grouping.punctuation ")").cons .nil)
  have hresult : Grouping (n + 1) (node .returnTypeDescriptor [take, typeDescriptor n]) :=
    .node rfl (Grouping.take.cons ((grouping_typeDescriptor n).cons .nil))
  have hbody : Grouping (n + 1) (block .functionBody (statement n) n) :=
    grouping_block rfl (grouping_statement n)
  exact .node rfl <| Grouping.take.cons <| Grouping.identifier.cons <| hparameters.cons <|
    hresult.optional.cons (hbody.expect.cons .nil)

theorem grouping_item : Grouping (n + 1) (item n) := by
  have himport := Grouping.take.cons (Grouping.identifier.cons
    ((Grouping.punctuation (k := n + 1) ";").cons .nil))
  have htype := Grouping.take.cons <| Grouping.identifier.cons <|
    (Grouping.punctuation (k := n + 1) "=").cons <|
      (grouping_typeDescriptor n).cons ((Grouping.punctuation ";").cons .nil)
  exact .choose (.node rfl himport) <| .choose grouping_functionDefinition <|
    .choose (.node rfl htype) (.choose (grouping_variableDeclaration rfl) .invalid)

theorem grouping_items : Grouping (n + 1) (items n) := grouping_item.repeated n

end Grammar

/-! ## Whole texts -/

theorem Phrase.standing_ofSource (source : String) : Standing [.node (Phrase.ofSource source)] :=
  .loose rfl ((Grammar.grouping_items.standing _ (Nat.le_succ _)).append (.token _))

/-- **Operator trees respect precedence and left associativity.** In the tree of a source text every
node groups what is below it by the strength of operators, and the operator tree of every node is
the only ranked tree of its chain. Only a text with too many bytes for offsets has no tree. -/
theorem parse_grouped (source : String) :
    (∃ t, parse source = .ok t ∧
      ∀ n ∈ t.root.preorder, n.Grouped ∧ n.operatorTree.Ranked ∧
        ∀ o : OperatorTree, o.Ranked → o.chain = n.operatorTree.chain → o = n.operatorTree) ∨
    (parse source = .error .tooLarge ∧ Span.maxOffset < source.utf8ByteSize) := by
  refine (parse_ok_or_tooLarge source).imp_left fun hparse => ⟨_, hparse, fun n hn => ?_⟩
  have hgrouped : ∀ m ∈ (Tree.ofSource source).root.preorder, m.Grouped := fun m hm =>
    Phrase.standing_ofSource source .start m (List.mem_append.2 (.inl hm))
  have hranked := Node.ranked_operatorTree fun m hm => hgrouped m (Node.preorder_trans hn hm)
  exact ⟨hgrouped n hn, hranked, fun o ho hchain => OperatorTree.eq_of_chain_eq ho hranked hchain⟩

/-- A left side can be weaker than the operator after it: in `a + * b` the sum lacks its right side
and is the left side of the product. -/
theorem weaker_left_sumTimes : ¬ ∀ t, parse "let x = a + * b;" = .ok t →
    ∀ n ∈ t.root.preorder, n.kind = .binaryExpression → ∃ left op p right,
      n.slots = [.node left, .token op, right] ∧ Grammar.strength? op.lexeme = some p ∧
        (left.kind = .binaryExpression → ∃ q, left.strength? = some q ∧ p ≤ q) := by
  intro h
  have hweaker : (Tree.ofSource "let x = a + * b;").root.preorder.any fun n =>
      n.kind == .binaryExpression && n.strength? == some 6 && n.slots.head?.any fun s =>
        s.node?.any fun left => left.kind == .binaryExpression && left.strength? == some 5 := by
    decide +kernel
  obtain ⟨n, hn, hweaker⟩ := List.any_eq_true.1 hweaker
  simp only [Bool.and_eq_true, beq_iff_eq] at hweaker
  obtain ⟨⟨hkind, hsix⟩, hleft⟩ := hweaker
  obtain ⟨left, op, p, right, hslots, hp, hle⟩ := h _ (parse_eq_ok (by decide +kernel)) n hn hkind
  rw [hslots] at hleft
  have hfive : left.kind = .binaryExpression ∧ left.strength? = some 5 := by
    simpa [Slot.node?] using hleft
  obtain ⟨q, hq, hpq⟩ := hle hfive.1
  have hstrength : n.strength? = some p := by rw [Node.strength?, hkind, hslots]; exact hp
  cases hstrength.symm.trans hsix
  cases hq.symm.trans hfive.2
  omega

end Xref
