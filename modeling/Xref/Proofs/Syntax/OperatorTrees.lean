import Xref.Grammar.Expressions
import Xref.Proofs.Syntax.Nodes

/-!
# Operator trees

An operator tree groups a chain of operands with operators between them. It respects the strengths
of the operators if below each operation the operators on the left are at least as strong and those
on the right stronger (`OperatorTree.Ranked`). Its root is then the last of the weakest operators of
the chain, so a chain has at most one such tree (`OperatorTree.eq_of_chain_eq`): the one that groups
by strength, and to the left among equals.

Of a node of a syntax tree only the operations with both sides belong to its operator tree. An
operation that lacks its right side is an operand, as anything else is.
-/

namespace Xref

/-- Operands with operators between them, grouped. -/
inductive OperatorTree where
  | operand (n : Node)
  | operation (left : OperatorTree) (op : Token) (right : OperatorTree)

namespace OperatorTree

/-- The operands and the operators, in order. -/
def chain : OperatorTree → List (Node ⊕ Token)
  | operand n => [.inl n]
  | operation left op right => left.chain ++ .inr op :: right.chain

/-- The strength of the operator at the root. -/
def strength? : OperatorTree → Option Nat
  | operand _ => none
  | operation _ op _ => Grammar.strength? op.lexeme

/-- Whether every operation has operators that are at least as strong on its left, and stronger
ones on its right. -/
def Ranked : OperatorTree → Prop
  | operand _ => True
  | operation left op right =>
    (∃ p, Grammar.strength? op.lexeme = some p ∧ (∀ q ∈ left.strength?, p ≤ q) ∧
      ∀ q ∈ right.strength?, p < q) ∧ left.Ranked ∧ right.Ranked

/-- Whether all operators of a tree have at least the strength `p`. -/
def AtLeast (p : Nat) (t : OperatorTree) : Prop :=
  ∀ op, .inr op ∈ t.chain → ∃ q, Grammar.strength? op.lexeme = some q ∧ p ≤ q

variable {t t' l l' r r' : OperatorTree} {op op' : Token} {p : Nat}

theorem AtLeast.mono {q : Nat} (h : t.AtLeast q) (hle : p ≤ q) : t.AtLeast p := fun op hop => by
  obtain ⟨s, hs, hqs⟩ := h op hop
  exact ⟨s, hs, Nat.le_trans hle hqs⟩

/-- **The operator at the root of a ranked tree is the weakest.** -/
theorem Ranked.atLeast (h : t.Ranked) (hroot : ∀ q ∈ t.strength?, p ≤ q) : t.AtLeast p := by
  induction t generalizing p with
  | operand n => intro op hop; simp [chain] at hop
  | operation l o r ihl ihr =>
    obtain ⟨⟨q, hq, hleft, hright⟩, hl, hr⟩ := h
    have hpq := hroot q hq
    intro op hop
    rcases List.mem_append.1 hop with hop | hop
    · exact (ihl hl hleft).mono hpq op hop
    rcases List.mem_cons.1 hop with heq | hop
    · cases heq
      exact ⟨q, hq, hpq⟩
    · exact (ihr hr hright).mono (Nat.le_succ_of_le hpq) op hop

/-- The operator at the root of one ranked tree cannot stand further left in the chain than that of
another: it would be a left operator there, and the other one a right operator here. -/
theorem Ranked.not_shifted (h : (operation l op r).Ranked) (h' : (operation l' op' r').Ranked)
    (hop : .inr op ∈ l'.chain) (hop' : .inr op' ∈ r.chain) : False := by
  obtain ⟨⟨p, hp, -, hright⟩, -, hr⟩ := h
  obtain ⟨⟨p', hp', hleft, -⟩, hl', -⟩ := h'
  obtain ⟨q, hq, hle⟩ := hl'.atLeast hleft op hop
  obtain ⟨q', hq', hlt⟩ := hr.atLeast (p := p + 1) hright op' hop'
  cases hq.symm.trans hp
  cases hq'.symm.trans hp'
  omega

/-- **A chain has at most one ranked tree.** -/
theorem eq_of_chain_eq (h : t.Ranked) (h' : t'.Ranked) (hchain : t.chain = t'.chain) : t = t' := by
  induction t generalizing t' with
  | operand n =>
    cases t' with
    | operand n' => simp only [chain, List.cons.injEq, Sum.inl.injEq, and_true] at hchain; rw [hchain]
    | operation l' op' r' =>
      have hop : (.inr op' : Node ⊕ Token) ∈ (operand n).chain := by rw [hchain]; simp [chain]
      simp [chain] at hop
  | operation l op r ihl ihr =>
    cases t' with
    | operand n' =>
      have hop : (.inr op : Node ⊕ Token) ∈ (operand n').chain := by rw [← hchain]; simp [chain]
      simp [chain] at hop
    | operation l' op' r' =>
      rcases List.append_eq_append_iff.1 hchain with ⟨as, hl, hr⟩ | ⟨bs, hl, hr⟩
      · cases as with
        | nil =>
          obtain ⟨hop, hright⟩ := List.cons.inj hr
          cases hop
          rw [ihl h.2.1 h'.2.1 (by simpa using hl.symm), ihr h.2.2 h'.2.2 hright]
        | cons a as =>
          obtain ⟨rfl, hright⟩ := List.cons.inj hr
          exact (h.not_shifted h' (by simp [hl]) (by simp [hright])).elim
      · cases bs with
        | nil =>
          obtain ⟨hop, hright⟩ := List.cons.inj hr
          cases hop
          rw [ihl h.2.1 h'.2.1 (by simpa using hl), ihr h.2.2 h'.2.2 hright.symm]
        | cons b bs =>
          obtain ⟨rfl, hright⟩ := List.cons.inj hr
          exact (h'.not_shifted h (by simp [hl]) (by simp [hright])).elim

end OperatorTree

/-! ## Operations in syntax trees -/

/-- Whether nodes of this kind bind what lies right below them more tightly than any operator. -/
def NodeKind.isTight : NodeKind → Bool
  | unaryExpression | functionCall | methodCall | fieldAccess => true
  | _ => false

namespace Node

/-- The strength of the operator of a binary expression. -/
def strength? (n : Node) : Option Nat :=
  match n.kind, n.slots with
  | .binaryExpression, [_, .token op, _] => Grammar.strength? op.lexeme
  | _, _ => none

/-- Whether a node has an empty slot behind the second one, where a binary expression has its right
side. -/
def lacksRight (n : Node) : Bool := n.slots[2]?.any Slot.isMissing

/-- Whether a node groups what lies right below it by the strength of operators. -/
structure Grouped (n : Node) : Prop where
  /-- A binary expression has a left side, an operator and a right side, which may be absent. An
  operator on the left is at least as strong, unless it lacks its own right side; an operator on the
  right is stronger. -/
  binary : n.kind = .binaryExpression → ∃ left op p right,
    n.slots = [.node left, .token op, right] ∧ Grammar.strength? op.lexeme = some p ∧
      (left.kind = .binaryExpression →
        ∃ q, left.strength? = some q ∧ (p ≤ q ∨ left.lacksRight)) ∧
      (right = .missing ∨ ∃ m, right = .node m ∧
        (m.kind = .binaryExpression → ∃ q, m.strength? = some q ∧ p < q))
  /-- Signs, calls and members apply to no binary expression. -/
  tight : n.kind.isTight → ∀ c ∈ n.children, c.kind ≠ .binaryExpression

/-- The operations with both sides at the top of a node, down to what they apply to. -/
def operatorTree : Node → OperatorTree
  | ⟨_, .binaryExpression, _, _, [.node left, .token op, .node right]⟩ =>
    .operation left.operatorTree op right.operatorTree
  | n => .operand n

/-- The root of the operator tree of a node is its own operator, and the node has both sides. -/
theorem strength?_operatorTree {n : Node} {q : Nat} (h : q ∈ n.operatorTree.strength?) :
    n.kind = .binaryExpression ∧ n.strength? = some q ∧ n.lacksRight = false := by
  unfold operatorTree at h
  split at h
  · exact ⟨rfl, h, rfl⟩
  · cases h

/-- **The operator tree of a node is ranked** if all its nodes are grouped. -/
theorem ranked_operatorTree {n : Node} (h : ∀ m ∈ n.preorder, m.Grouped) :
    n.operatorTree.Ranked := by
  induction n using Node.induct with
  | h n ih =>
    have hgrouped := h n (self_mem_preorder n)
    have hchild : ∀ c ∈ n.children, c.operatorTree.Ranked := fun c hc =>
      ih c hc fun m hm => h m (preorder_trans (mem_preorder_child hc) hm)
    unfold operatorTree
    split
    · rename_i left op right
      obtain ⟨left', op', p, right', hslots, hp, hleft, hright⟩ := hgrouped.binary rfl
      cases hslots
      refine ⟨⟨p, hp, fun q hq => ?_, fun q hq => ?_⟩, hchild left (by simp [children, Slot.node?]),
        hchild right (by simp [children, Slot.node?])⟩
      · obtain ⟨hkind, hstrength, hwhole⟩ := strength?_operatorTree hq
        obtain ⟨q', hq', hle⟩ := hleft hkind
        cases hq'.symm.trans hstrength
        exact hle.resolve_right (by simp [hwhole])
      · obtain ⟨hkind, hstrength, -⟩ := strength?_operatorTree hq
        rcases hright with hmissing | ⟨m, hm, hlt⟩
        · cases hmissing
        · cases hm
          obtain ⟨q', hq', hlt⟩ := hlt hkind
          cases hq'.symm.trans hstrength
          exact hlt
    · trivial

end Node

end Xref
