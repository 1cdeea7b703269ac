import Xref.Syntax.Tree

/-!
# Walks

A walk meets a node, then everything in its slots, then leaves the node. It can be told to stop at
nodes of some kinds: they are met, but what lies below them is not, and they are not left.

In general a visitor goes through a tree: each node is handed to the method of its kind, and the
method tells when the slots of the node are walked. A walk is what the visitor notes that notes all
it comes across (`Visitor.recorder`).
-/

namespace Xref

/-- What a walk comes across. -/
inductive WalkEvent where
  | enter (kind : NodeKind) (id : NodeId)
  | leave (id : NodeId)
  | token (id : TokenId)
  /-- The empty slot with the given index of a node. -/
  | missing (parent : NodeId) (index : Nat)
  deriving DecidableEq, Repr

mutual

/-- The walk of a node, stopping at the kinds that satisfy `stop`. -/
def Node.walk (stop : NodeKind → Bool) : Node → List WalkEvent
  | ⟨id, kind, _, _, slots⟩ =>
    if stop kind then [.enter kind id]
    else .enter kind id :: (Child.walkAll stop id 0 slots ++ [.leave id])

/-- The walk of slots of `parent`, the first of which has the given index. -/
def Child.walkAll (stop : NodeKind → Bool) (parent : NodeId) :
    Nat → List Child → List WalkEvent
  | _, [] => []
  | index, .node n :: rest => n.walk stop ++ Child.walkAll stop parent (index + 1) rest
  | index, .token t :: rest => .token t.id :: Child.walkAll stop parent (index + 1) rest
  | index, .missing :: rest => .missing parent index :: Child.walkAll stop parent (index + 1) rest

end

/-- The walk of a whole tree. -/
def Tree.walk (t : Tree) (stop : NodeKind → Bool) : List WalkEvent := t.root.walk stop

/-! ## Visitors -/

/-- What is done at the nodes, tokens and empty slots of a tree to a state that is carried along. A
visitor that says nothing else walks the whole tree and does nothing. -/
structure Visitor (σ : Type) where
  /-- What is done at every node. It is given what hands the node to the method of its kind. -/
  anyNode : Node → (σ → σ) → σ → σ := fun _ dispatch => dispatch
  /-- The method of a node kind. It is given a node and what walks the slots of this node. -/
  node : NodeKind → Node → (σ → σ) → σ → σ := fun _ _ walk => walk
  token : Token → σ → σ := fun _ s => s
  /-- What is done at the empty slot with the given index of a node. -/
  missing : Node → Nat → σ → σ := fun _ _ s => s

variable {σ : Type}

mutual

/-- Visits a node: the method of its kind decides on the walk of its slots. -/
def Node.accept (v : Visitor σ) : Node → σ → σ
  | ⟨id, kind, full, ends, slots⟩ =>
    v.anyNode ⟨id, kind, full, ends, slots⟩ (v.node kind ⟨id, kind, full, ends, slots⟩
      (Child.acceptAll v ⟨id, kind, full, ends, slots⟩ 0 slots))

/-- Walks slots of `parent`, the first of which has the given index, from left to right. -/
def Child.acceptAll (v : Visitor σ) (parent : Node) : Nat → List Child → σ → σ
  | _, [], s => s
  | index, .node n :: rest, s => Child.acceptAll v parent (index + 1) rest (n.accept v s)
  | index, .token t :: rest, s => Child.acceptAll v parent (index + 1) rest (v.token t s)
  | index, .missing :: rest, s =>
    Child.acceptAll v parent (index + 1) rest (v.missing parent index s)

end

/-- Sends a visitor through a whole tree. -/
def Tree.accept (t : Tree) (v : Visitor σ) (s : σ) : σ := t.root.accept v s

/-- The visitor that notes each node, walks its slots unless the kind satisfies `stop`, and notes
the end of the node. Whether a node whose slots it does not walk has an end is up to `closing`. -/
def Visitor.recorder (stop : NodeKind → Bool) (closing : Bool) : Visitor (List WalkEvent) where
  node kind n walk events :=
    let met := events ++ [.enter kind n.id]
    let walked := if stop kind then met else walk met
    if stop kind && !closing then walked else walked ++ [.leave n.id]
  token t events := events ++ [.token t.id]
  missing parent index events := events ++ [.missing parent.id index]

/-- The visitor that puts the source together again from the tokens. -/
def Visitor.collector : Visitor String where
  token t text := text ++ (t.leadingText ++ t.text ++ t.trailingText)

/-- The written form of an event. -/
def WalkEvent.text : WalkEvent → String
  | .enter kind id => s!"{kind.tag} {id}"
  | .leave id => s!"end {id}"
  | .token id => s!"token TokenId({id})"
  | .missing parent index => s!"missing NodeId({parent})[{index}]"

end Xref
