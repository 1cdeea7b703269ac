import Xref.Proofs.Syntax.Building

/-!
# What is noted on the way through a tree

A visitor that looks at tokens only comes to them in document order (`Node.accept_token`), so the
source is put together again by one (`Tree.collectText_eq_accept`).

The visitor that notes everything meets the nodes that no node at which it stops is above
(`Node.mem_met_iff`), in document order and each by the method of its kind (`Node.notes_met`). Each
note is about one of these nodes (`Node.notes_perm`): its begin, its tokens and empty slots, its
end. So nothing is noted that is not there, and nothing twice (`Node.nodup_notes`).
-/

namespace Xref

/-! ## Visitors of tokens -/

section
variable {σ : Type} (f : Token → σ → σ)

mutual

/-- A visitor that looks at tokens only comes to them in document order. -/
theorem Node.accept_token : ∀ (n : Node) (s : σ),
    n.accept { token := f } s = n.tokens.foldl (fun s t => f t s) s
  | ⟨_, _, _, _, slots⟩, s => Child.acceptAll_token _ 0 slots s

theorem Child.acceptAll_token (parent : Node) : ∀ (index : Nat) (slots : List Child) (s : σ),
    Child.acceptAll { token := f } parent index slots s =
      (Node.tokensOf slots).foldl (fun s t => f t s) s
  | _, [], _ => rfl
  | index, .node n :: rest, s => by
    rw [Child.acceptAll, Node.accept_token n, Child.acceptAll_token parent (index + 1) rest,
      Node.tokensOf_node, List.foldl_append]
  | index, .token t :: rest, s => Child.acceptAll_token parent (index + 1) rest (f t s)
  | index, .missing :: rest, s => Child.acceptAll_token parent (index + 1) rest s

end

end

theorem Tree.collectText_eq_accept (t : Tree) : t.collectText = t.accept .collector "" := by
  rw [collectText, String.join, List.foldl_map, accept, Visitor.collector, Node.accept_token]

/-! ## What a visitor notes -/

/-- The end of a node, if it is noted. -/
def WalkEvent.ending (stop : NodeKind → Bool) (closing : Bool) (kind : NodeKind) (id : NodeId) :
    List WalkEvent :=
  if stop kind && !closing then [] else [.leave id]

mutual

/-- What the recorder notes from a node on. -/
def Node.notes (stop : NodeKind → Bool) (closing : Bool) : Node → List WalkEvent
  | ⟨id, kind, _, _, slots⟩ =>
    .enter kind id :: ((if stop kind then [] else Child.notesOf stop closing id 0 slots) ++
      WalkEvent.ending stop closing kind id)

/-- What the recorder notes in slots of `parent`, the first of which has the given index. -/
def Child.notesOf (stop : NodeKind → Bool) (closing : Bool) (parent : NodeId) :
    Nat → List Child → List WalkEvent
  | _, [] => []
  | index, .node n :: rest =>
    n.notes stop closing ++ Child.notesOf stop closing parent (index + 1) rest
  | index, .token t :: rest => .token t.id :: Child.notesOf stop closing parent (index + 1) rest
  | index, .missing :: rest =>
    .missing parent index :: Child.notesOf stop closing parent (index + 1) rest

end

section
variable (stop : NodeKind → Bool) (closing : Bool)

mutual

theorem Node.accept_recorder : ∀ (n : Node) (events : List WalkEvent),
    n.accept (.recorder stop closing) events = events ++ n.notes stop closing
  | ⟨id, kind, full, ends, slots⟩, events => by
    have hslots := Child.acceptAll_recorder ⟨id, kind, full, ends, slots⟩ 0 slots
      (events ++ [.enter kind id])
    rw [Node.accept, Node.notes]
    simp only [Visitor.recorder] at hslots ⊢
    rw [hslots, WalkEvent.ending]
    cases stop kind <;> cases closing <;> simp

theorem Child.acceptAll_recorder (parent : Node) : ∀ (index : Nat) (slots : List Child)
    (events : List WalkEvent), Child.acceptAll (.recorder stop closing) parent index slots events =
      events ++ Child.notesOf stop closing parent.id index slots
  | _, [], events => (List.append_nil events).symm
  | index, .node n :: rest, events => by
    rw [Child.acceptAll, Child.notesOf, Node.accept_recorder n,
      Child.acceptAll_recorder parent (index + 1) rest, List.append_assoc]
  | index, .token t :: rest, events => by
    rw [Child.acceptAll, Child.notesOf, Child.acceptAll_recorder parent (index + 1) rest]
    exact List.append_assoc _ _ _
  | index, .missing :: rest, events => by
    rw [Child.acceptAll, Child.notesOf, Child.acceptAll_recorder parent (index + 1) rest]
    exact List.append_assoc _ _ _

end

mutual

/-- Where a walk stops it passes over part of what it would come across. -/
theorem Node.notes_sublist : ∀ n : Node, (n.notes stop closing).Sublist (n.walk fun _ => false)
  | ⟨id, kind, full, ends, slots⟩ => by
    rw [Node.walk, if_neg Bool.false_ne_true, Node.notes]
    refine .cons_cons _ (.append ?_ ?_)
    · split
      · exact List.nil_sublist _
      · exact Child.notesOf_sublist id 0 slots
    · rw [WalkEvent.ending]
      split
      · exact List.nil_sublist _
      · exact .refl _

theorem Child.notesOf_sublist (parent : NodeId) : ∀ (index : Nat) (slots : List Child),
    (Child.notesOf stop closing parent index slots).Sublist
      (Child.walkAll (fun _ => false) parent index slots)
  | _, [] => .refl _
  | index, .node n :: rest =>
    (Node.notes_sublist n).append (Child.notesOf_sublist parent (index + 1) rest)
  | index, .token _ :: rest => .cons_cons _ (Child.notesOf_sublist parent (index + 1) rest)
  | index, .missing :: rest => .cons_cons _ (Child.notesOf_sublist parent (index + 1) rest)

end

end

section
variable {stop : NodeKind → Bool} {closing : Bool}

mutual

/-- A walk has no end of the nodes at which it stops. -/
theorem Node.walk_eq_notes (hends : ∀ k, stop k → closing = false) :
    ∀ n : Node, n.walk stop = n.notes stop closing
  | ⟨id, kind, full, ends, slots⟩ => by
    rw [Node.walk, Node.notes, Child.walkAll_eq_notesOf hends id 0 slots, WalkEvent.ending]
    cases hstop : stop kind
    · rfl
    · rw [hends kind hstop]
      rfl

theorem Child.walkAll_eq_notesOf (hends : ∀ k, stop k → closing = false) (parent : NodeId) :
    ∀ (index : Nat) (slots : List Child),
    Child.walkAll stop parent index slots = Child.notesOf stop closing parent index slots
  | _, [] => rfl
  | index, .node n :: rest => by
    rw [Child.walkAll, Child.notesOf, Node.walk_eq_notes hends n,
      Child.walkAll_eq_notesOf hends parent (index + 1) rest]
  | index, .token t :: rest => by
    rw [Child.walkAll, Child.notesOf, Child.walkAll_eq_notesOf hends parent (index + 1) rest]
  | index, .missing :: rest => by
    rw [Child.walkAll, Child.notesOf, Child.walkAll_eq_notesOf hends parent (index + 1) rest]

end

end

/-! ## The nodes that are met -/

mutual

/-- The nodes that are met from a node on, each before what lies below it. -/
def Node.met (stop : NodeKind → Bool) : Node → List Node
  | ⟨id, kind, full, ends, slots⟩ =>
    ⟨id, kind, full, ends, slots⟩ :: if stop kind then [] else Child.metIn stop slots

/-- The nodes that are met in several slots. -/
def Child.metIn (stop : NodeKind → Bool) : List Child → List Node
  | [] => []
  | .node n :: rest => n.met stop ++ Child.metIn stop rest
  | .token _ :: rest => Child.metIn stop rest
  | .missing :: rest => Child.metIn stop rest

end

/-- Whether all nodes above a node are of kinds at which a walk does not stop. -/
structure Node.Reaches (stop : NodeKind → Bool) (root n : Node) : Prop where
  mem : n ∈ root.preorder
  above : ∀ a ∈ root.preorder, n ∈ Node.preorderOf a.slots → stop a.kind = false

section
variable {stop : NodeKind → Bool} {n m c : Node}

theorem Child.metIn_eq (slots : List Child) :
    Child.metIn stop slots = (slots.filterMap Slot.node?).flatMap (Node.met stop) := by
  induction slots with
  | nil => rfl
  | cons s rest ih => cases s <;> simp [Child.metIn, List.filterMap_cons, Slot.node?, ih]

namespace Node

theorem mem_preorderOf_slots {a : Node} :
    n ∈ preorderOf a.slots ↔ ∃ c ∈ a.children, n ∈ c.preorder := by
  rw [preorderOf_eq, List.mem_flatMap]
  rfl

theorem met_eq (n : Node) :
    n.met stop = n :: if stop n.kind then [] else n.children.flatMap (met stop) := by
  cases n
  rw [met, Child.metIn_eq]
  rfl

theorem mem_met : m ∈ n.met stop ↔
    m = n ∨ stop n.kind = false ∧ ∃ c ∈ n.children, m ∈ c.met stop := by
  rw [met_eq, List.mem_cons]
  cases stop n.kind <;> simp

theorem met_sublist (n : Node) : (n.met stop).Sublist n.preorder := by
  induction n using induct with
  | h n ih =>
    rw [met_eq, preorder_eq]
    refine .cons_cons n ?_
    split
    · exact List.nil_sublist _
    · exact List.Sublist.flatMap_right _ fun c hc => ih c hc

theorem met_eq_preorder (hstop : ∀ k, stop k = false) (n : Node) : n.met stop = n.preorder := by
  induction n using induct with
  | h n ih =>
    rw [met_eq, preorder_eq, hstop, if_neg Bool.false_ne_true]
    exact congrArg (n :: ·) (List.flatMap_congr fun c hc => ih c hc)

/-- **The nodes that are met are those that no node at which a walk stops is above.** -/
theorem mem_met_iff (hids : (n.preorder.map Node.id).Nodup) :
    m ∈ n.met stop ↔ n.Reaches stop m := by
  induction n using induct with
  | h n ih =>
    rw [mem_met]
    constructor
    · rintro (rfl | ⟨hstop, c, hc, hm⟩)
      · -- No node is above the root, as it would be above itself.
        refine ⟨m.self_mem_preorder, fun a ha hbelow => ?_⟩
        obtain ⟨d, hd, hmd⟩ := mem_preorderOf_slots.1 hbelow
        obtain ⟨k, hk, hdk⟩ := mem_below ha hd
        exact absurd (preorder_trans hdk hmd) (self_not_below hids hk)
      · have hreaches := (ih c hc (nodup_child hids hc)).1 hm
        refine ⟨mem_preorder.2 (.inr ⟨c, hc, hreaches.mem⟩), fun a ha hbelow => ?_⟩
        rcases mem_preorder.1 ha with rfl | ⟨k, hk, hak⟩
        · exact hstop
        · -- A node above `m` other than the root lies below the same child.
          obtain ⟨d, hd, hmd⟩ := mem_preorderOf_slots.1 hbelow
          have hmk := preorder_trans hak (preorder_trans (mem_preorder_child hd) hmd)
          obtain rfl := child_unique hids hc hk hreaches.mem hmk
          exact hreaches.above a hak hbelow
    · rintro ⟨hmem, habove⟩
      rcases mem_preorder.1 hmem with rfl | ⟨c, hc, hm⟩
      · exact .inl rfl
      · refine .inr ⟨habove n n.self_mem_preorder (mem_preorderOf_slots.2 ⟨c, hc, hm⟩), c, hc, ?_⟩
        refine (ih c hc (nodup_child hids hc)).2 ⟨hm, fun a ha => ?_⟩
        exact habove a (preorder_trans (mem_preorder_child hc) ha)

end Node

theorem Child.metIn_sublist (slots : List Child) :
    (Child.metIn stop slots).Sublist (Node.preorderOf slots) := by
  rw [metIn_eq, Node.preorderOf_eq]
  exact List.Sublist.flatMap_right _ fun c _ => c.met_sublist

end

/-! ## Events and the nodes they are about -/

/-- The node that an event begins, with the kind whose method does so. -/
def WalkEvent.met? : WalkEvent → Option (NodeKind × NodeId)
  | .enter kind id => some (kind, id)
  | _ => none

theorem WalkEvent.met?_ending (stop : NodeKind → Bool) (closing : Bool) (kind : NodeKind)
    (id : NodeId) : (ending stop closing kind id).filterMap met? = [] := by
  rw [ending]
  split <;> rfl

/-- The node that an event names. -/
def WalkEvent.nodeId? : WalkEvent → Option NodeId
  | .enter _ id => some id
  | .leave id => some id
  | .token _ => none
  | .missing parent _ => some parent

/-- What a walk comes across at a slot of `parent` with the given index. -/
def Child.note (parent : NodeId) (index : Nat) : Child → WalkEvent
  | .node n => .enter n.kind n.id
  | .token t => .token t.id
  | .missing => .missing parent index

/-- What a walk comes across at slots of `parent`, the first of which has the given index. -/
def Child.slotNotes (parent : NodeId) (index : Nat) (slots : List Child) : List WalkEvent :=
  slots.mapIdx fun i => Child.note parent (index + i)

/-- What is noted about a node other than about the nodes below it. -/
def Node.ownNotes (stop : NodeKind → Bool) (closing : Bool) (n : Node) : List WalkEvent :=
  .enter n.kind n.id :: ((if stop n.kind then []
    else (Child.slotNotes n.id 0 n.slots).filter fun e => e.met?.isNone) ++
      WalkEvent.ending stop closing n.kind n.id)

section
variable (stop : NodeKind → Bool) (closing : Bool)

@[simp] theorem Child.slotNotes_nil (parent : NodeId) (index : Nat) :
    slotNotes parent index [] = [] := rfl

@[simp] theorem Child.slotNotes_cons (parent : NodeId) (index : Nat) (s : Child)
    (rest : List Child) : slotNotes parent index (s :: rest) =
      note parent index s :: slotNotes parent (index + 1) rest := by
  rw [slotNotes, List.mapIdx_cons, slotNotes]
  simp only [Nat.add_zero, Nat.add_assoc, Nat.add_comm 1]

theorem Child.mem_slotNotes {parent : NodeId} {slots : List Child} {e : WalkEvent} :
    e ∈ slotNotes parent 0 slots ↔ ∃ i s, slots[i]? = some s ∧ note parent i s = e := by
  rw [slotNotes, List.mem_mapIdx]
  simp only [Nat.zero_add]
  constructor
  · rintro ⟨i, hi, he⟩
    exact ⟨i, _, List.getElem?_eq_getElem hi, he⟩
  · rintro ⟨i, s, hs, he⟩
    obtain ⟨hi, rfl⟩ := List.getElem?_eq_some_iff.1 hs
    exact ⟨i, hi, he⟩

mutual

/-- Nodes are begun in document order, by the method of their kind. -/
theorem Node.notes_met : ∀ n : Node, (n.notes stop closing).filterMap WalkEvent.met? =
    (n.met stop).map fun m => (m.kind, m.id)
  | ⟨id, kind, full, ends, slots⟩ => by
    rw [Node.notes, Node.met, List.map_cons]
    refine congrArg (_ :: ·) ?_
    rw [List.filterMap_append, WalkEvent.met?_ending, List.append_nil]
    split
    · rfl
    · exact Child.notesOf_met id 0 slots

theorem Child.notesOf_met (parent : NodeId) : ∀ (index : Nat) (slots : List Child),
    (Child.notesOf stop closing parent index slots).filterMap WalkEvent.met? =
      (Child.metIn stop slots).map fun m => (m.kind, m.id)
  | _, [] => rfl
  | index, .node n :: rest => by
    rw [Child.notesOf, Child.metIn, List.filterMap_append, List.map_append, Node.notes_met n,
      Child.notesOf_met parent (index + 1) rest]
  | index, .token _ :: rest => Child.notesOf_met parent (index + 1) rest
  | index, .missing :: rest => Child.notesOf_met parent (index + 1) rest

end

mutual

/-- **Everything noted is about one node that is met.** -/
theorem Node.notes_perm : ∀ n : Node, (n.notes stop closing).Perm
    ((n.met stop).flatMap (Node.ownNotes stop closing))
  | ⟨id, kind, full, ends, slots⟩ => by
    rw [Node.notes, Node.met, List.flatMap_cons, Node.ownNotes]
    refine .cons _ ?_
    have hslots := Child.notesOf_perm id 0 slots
    cases stop kind
    · refine (hslots.append_right _).trans ?_
      show List.Perm ((_ ++ _) ++ _) ((_ ++ _) ++ _)
      rw [List.append_assoc, List.append_assoc]
      exact .append_left _ List.perm_append_comm
    · exact .of_eq (List.append_nil _).symm

theorem Child.notesOf_perm (parent : NodeId) : ∀ (index : Nat) (slots : List Child),
    (Child.notesOf stop closing parent index slots).Perm
      ((Child.slotNotes parent index slots).filter (fun e => e.met?.isNone) ++
        (Child.metIn stop slots).flatMap (Node.ownNotes stop closing))
  | _, [] => .refl _
  | index, .node n :: rest => by
    rw [Child.notesOf, Child.metIn, Child.slotNotes_cons, List.flatMap_append]
    refine ((Node.notes_perm n).append (Child.notesOf_perm parent (index + 1) rest)).trans ?_
    exact List.perm_append_comm_assoc _ _ _
  | index, .token _ :: rest => by
    rw [Child.notesOf, Child.metIn, Child.slotNotes_cons]
    exact (Child.notesOf_perm parent (index + 1) rest).cons _
  | index, .missing :: rest => by
    rw [Child.notesOf, Child.metIn, Child.slotNotes_cons]
    exact (Child.notesOf_perm parent (index + 1) rest).cons _

end

end

namespace Node

variable {stop : NodeKind → Bool} {closing : Bool} {n m : Node} {e : WalkEvent}

theorem mem_notes : e ∈ n.notes stop closing ↔ ∃ m ∈ n.met stop, e ∈ m.ownNotes stop closing := by
  rw [(n.notes_perm stop closing).mem_iff, List.mem_flatMap]

theorem mem_ending {kind : NodeKind} {id : NodeId} : e ∈ WalkEvent.ending stop closing kind id ↔
    (stop kind → closing) ∧ e = .leave id := by
  rw [WalkEvent.ending]
  cases stop kind <;> cases closing <;> simp

theorem mem_ownNotes : e ∈ n.ownNotes stop closing ↔ e = .enter n.kind n.id ∨
    (stop n.kind = false ∧ e.met? = none ∧ ∃ i s, n.slots[i]? = some s ∧ Child.note n.id i s = e) ∨
      (stop n.kind → closing) ∧ e = .leave n.id := by
  rw [ownNotes, List.mem_cons, List.mem_append, mem_ending]
  refine or_congr_right (or_congr_left ?_)
  cases stop n.kind
  · simp [List.mem_filter, Child.mem_slotNotes, and_comm]
  · simp

theorem token_mem_notes {id : TokenId} : .token id ∈ n.notes stop closing ↔
    ∃ m ∈ n.met stop, stop m.kind = false ∧ ∃ t ∈ m.childTokens, t.id = id := by
  rw [mem_notes]
  refine exists_congr fun m => and_congr_right fun _ => ?_
  rw [mem_ownNotes]
  constructor
  · rintro (h | ⟨hstop, -, i, s, hs, he⟩ | ⟨-, h⟩)
    · cases h
    · cases s with
      | token t =>
        exact ⟨hstop, t, mem_childTokens.2 (List.mem_of_getElem? hs), WalkEvent.token.inj he⟩
      | node c => cases he
      | missing => cases he
    · cases h
  · rintro ⟨hstop, t, ht, rfl⟩
    obtain ⟨i, hi⟩ := List.getElem?_of_mem (mem_childTokens.1 ht)
    exact .inr (.inl ⟨hstop, rfl, i, _, hi, rfl⟩)

theorem missing_mem_notes {parent : NodeId} {index : Nat} :
    .missing parent index ∈ n.notes stop closing ↔ ∃ m ∈ n.met stop, stop m.kind = false ∧
      m.id = parent ∧ m.slots[index]? = some .missing := by
  rw [mem_notes]
  refine exists_congr fun m => and_congr_right fun _ => ?_
  rw [mem_ownNotes]
  constructor
  · rintro (h | ⟨hstop, -, i, s, hs, he⟩ | ⟨-, h⟩)
    · cases h
    · cases s with
      | missing =>
        obtain ⟨hid, rfl⟩ := WalkEvent.missing.inj he
        exact ⟨hstop, hid, hs⟩
      | node c => cases he
      | token t => cases he
    · cases h
  · rintro ⟨hstop, rfl, hs⟩
    exact .inr (.inl ⟨hstop, rfl, index, _, hs, rfl⟩)

theorem leave_mem_notes {id : NodeId} : .leave id ∈ n.notes stop closing ↔
    ∃ m ∈ n.met stop, (stop m.kind → closing) ∧ m.id = id := by
  rw [mem_notes]
  refine exists_congr fun m => and_congr_right fun _ => ?_
  rw [mem_ownNotes]
  constructor
  · rintro (h | ⟨-, -, i, s, -, he⟩ | ⟨hends, h⟩)
    · cases h
    · cases s <;> cases he
    · exact ⟨hends, (WalkEvent.leave.inj h).symm⟩
  · rintro ⟨hends, rfl⟩
    exact .inr (.inr ⟨hends, rfl⟩)

/-! ## Nothing is noted twice -/

/-- An event names the node it is about, unless it is a token of this node. -/
theorem cases_of_mem_ownNotes (he : e ∈ n.ownNotes stop closing) :
    e.nodeId? = some n.id ∨ ∃ t ∈ n.childTokens, e = .token t.id := by
  rcases mem_ownNotes.1 he with rfl | ⟨-, hmet, i, s, hs, rfl⟩ | ⟨-, rfl⟩
  · exact .inl rfl
  · cases s with
    | node c => cases hmet
    | token t => exact .inr ⟨t, mem_childTokens.2 (List.mem_of_getElem? hs), rfl⟩
    | missing => exact .inl rfl
  · exact .inl rfl

section
variable (htokens : (n.tokens.map Token.id).Nodup)

include htokens

/-- What is noted at a slot without a node is noted at no other slot. -/
theorem note_index_unique {i j : Nat} {s s' : Child} (hs : n.slots[i]? = some s)
    (hs' : n.slots[j]? = some s') (hmet : (Child.note n.id i s).met? = none)
    (heq : Child.note n.id i s = Child.note n.id j s') : i = j := by
  cases s with
  | node c => cases hmet
  | token t =>
    cases s' with
    | token t' =>
      have hmem : ∀ {k : Nat} {u : Token}, n.slots[k]? = some (.token u) → u ∈ n.tokens := fun hu =>
        childTokens_subset n.self_mem_preorder (mem_childTokens.2 (List.mem_of_getElem? hu))
      obtain rfl := List.inj_on_of_nodup_map htokens (hmem hs) (hmem hs') (WalkEvent.token.inj heq)
      exact slot_index_unique htokens hs hs'
    | node c => cases heq
    | missing => cases heq
  | missing =>
    cases s' with
    | missing => exact (WalkEvent.missing.inj heq).2
    | node c => cases heq
    | token t => cases heq

theorem nodup_ownNotes : (n.ownNotes stop closing).Nodup := by
  have hslots : ((Child.slotNotes n.id 0 n.slots).filter fun e => e.met?.isNone).Nodup := by
    rw [List.Nodup, List.pairwise_filter, List.pairwise_iff_getElem]
    intro i j hi hj hlt hmet _ heq
    simp only [Child.slotNotes, List.length_mapIdx, List.getElem_mapIdx, Nat.zero_add]
      at hi hj hmet heq
    exact Nat.ne_of_lt hlt (note_index_unique htokens (List.getElem?_eq_getElem hi)
      (List.getElem?_eq_getElem hj) (Option.isNone_iff_eq_none.1 hmet) heq)
  have hending : (WalkEvent.ending stop closing n.kind n.id).Nodup := by
    rw [WalkEvent.ending]
    split
    · exact .nil
    · exact List.nodup_singleton _
  rw [ownNotes, List.nodup_cons, List.mem_append, List.nodup_append']
  refine ⟨?_, ?_, hending, ?_⟩
  · rintro (h | h)
    · split at h
      · cases h
      · cases (List.mem_filter.1 h).2
    · cases (mem_ending.1 h).2
  · split
    · exact .nil
    · exact hslots
  · intro e he hleave
    obtain ⟨-, rfl⟩ := mem_ending.1 hleave
    split at he
    · cases he
    · obtain ⟨i, s, -, heq⟩ := Child.mem_slotNotes.1 (List.mem_filter.1 he).1
      cases s <;> cases heq

/-- **Nothing is noted twice.** -/
theorem nodup_notes (hids : (n.preorder.map Node.id).Nodup) : (n.notes stop closing).Nodup := by
  rw [(n.notes_perm stop closing).nodup_iff, List.nodup_flatMap]
  have hmet : n.met stop ⊆ n.preorder := n.met_sublist.subset
  refine ⟨fun m hm => ?_, ?_⟩
  · exact nodup_ownNotes (htokens.sublist ((tokens_sublist (hmet hm)).map _))
  · -- What is noted about two nodes names either, or is a token that lies below one of them only.
    refine List.Nodup.pairwise_of_forall_ne ((List.Nodup.of_map _ hids).sublist n.met_sublist) ?_
    intro m hm m' hm' hne e he he'
    refine hne ?_
    rcases cases_of_mem_ownNotes he with hid | ⟨t, ht, rfl⟩
    · rcases cases_of_mem_ownNotes he' with hid' | ⟨t', -, rfl⟩
      · exact List.inj_on_of_nodup_map hids (hmet hm) (hmet hm') (Option.some.inj (hid ▸ hid'))
      · cases hid
    · rcases cases_of_mem_ownNotes he' with hid' | ⟨t', ht', heq⟩
      · cases hid'
      · exact parent_unique htokens (hmet hm) (hmet hm') ht ht' (WalkEvent.token.inj heq)

end

end Node

end Xref
