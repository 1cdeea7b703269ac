import Xref.Proofs.Syntax.Notes

/-!
# Visits of finished trees

A reader of the notes keeps the nodes that are open, like brackets (`WalkEvent.Nested`), and right
below each node finds its slots, in order (`WalkEvent.under`). Whatever a builder is told, the nodes
of its tree are numbered in the order in which they end (`BuildRun.numbered_run`). From both it
follows what a visit of the tree comes to and what it passes over (`BuildRun.finish_visited`).
-/

namespace Xref

/-! ## Begin and end -/

namespace WalkEvent

/-- Whether the event is the end of a node. -/
def isLeave : WalkEvent → Bool
  | leave _ => true
  | _ => false

/-- The nodes that are open after an event, the innermost first. One at which the walk stops is open
only if its end is noted. -/
def openAfter (stop : NodeKind → Bool) (closing : Bool) (opened : List NodeId) :
    WalkEvent → List NodeId
  | enter kind id => if stop kind && !closing then opened else id :: opened
  | leave _ => opened.tail
  | token _ => opened
  | missing _ _ => opened

/-- Whether each end is that of the innermost open node and no node is open after the last event. -/
def Nested (stop : NodeKind → Bool) (closing : Bool) : List NodeId → List WalkEvent → Prop
  | opened, [] => opened = []
  | opened, e :: rest => (∀ id, e = leave id → opened.head? = some id) ∧
      Nested stop closing (e.openAfter stop closing opened) rest

/-- What is noted while a node is the innermost open one, other than its end. -/
def under (stop : NodeKind → Bool) (closing : Bool) (id : NodeId) :
    List NodeId → List WalkEvent → List WalkEvent
  | _, [] => []
  | opened, e :: rest => (if opened.head? = some id ∧ e.isLeave = false then [e] else []) ++
      under stop closing id (e.openAfter stop closing opened) rest

variable {stop : NodeKind → Bool} {closing : Bool} {opened : List NodeId} {rest : List WalkEvent}
  {kind : NodeKind} {id other parent : NodeId} {index : Nat}

theorem nested_enter : Nested stop closing opened (enter kind id :: rest) ↔
    Nested stop closing (if stop kind && !closing then opened else id :: opened) rest :=
  and_iff_right nofun

theorem nested_leave :
    Nested stop closing (id :: opened) (leave id :: rest) ↔ Nested stop closing opened rest :=
  and_iff_right fun _ h => congrArg some (leave.inj h)

theorem nested_token {t : TokenId} :
    Nested stop closing opened (token t :: rest) ↔ Nested stop closing opened rest :=
  and_iff_right nofun

theorem nested_missing : Nested stop closing opened (missing parent index :: rest) ↔
    Nested stop closing opened rest :=
  and_iff_right nofun

theorem under_enter : under stop closing id opened (enter kind other :: rest) =
    (if opened.head? = some id then [enter kind other] else []) ++
      under stop closing id (if stop kind && !closing then opened else other :: opened) rest := by
  simp [under, openAfter, isLeave]

theorem under_leave : under stop closing id (other :: opened) (leave other :: rest) =
    under stop closing id opened rest := by
  simp [under, openAfter, isLeave]

theorem under_token {t : TokenId} : under stop closing id opened (token t :: rest) =
    (if opened.head? = some id then [token t] else []) ++ under stop closing id opened rest := by
  simp [under, openAfter, isLeave]

theorem under_missing : under stop closing id opened (missing parent index :: rest) =
    (if opened.head? = some id then [missing parent index] else []) ++
      under stop closing id opened rest := by
  simp [under, openAfter, isLeave]

end WalkEvent

section
open WalkEvent

variable {stop : NodeKind → Bool} {closing : Bool}

mutual

/-- **Nodes are begun and ended like brackets.** -/
theorem Node.nested_notes : ∀ (n : Node) (opened : List NodeId) (rest : List WalkEvent),
    Nested stop closing opened (n.notes stop closing ++ rest) ↔ Nested stop closing opened rest
  | ⟨id, kind, full, ends, slots⟩, opened, rest => by
    have hslots : ∀ opened rest, Nested stop closing opened
        ((if stop kind then [] else Child.notesOf stop closing id 0 slots) ++ rest) ↔
          Nested stop closing opened rest := by
      intro opened rest
      split
      · exact .rfl
      · exact Child.nested_notesOf id 0 slots opened rest
    rw [Node.notes, List.cons_append, nested_enter, List.append_assoc, hslots, ending]
    split
    · exact .rfl
    · exact nested_leave

theorem Child.nested_notesOf (parent : NodeId) : ∀ (index : Nat) (slots : List Child)
    (opened : List NodeId) (rest : List WalkEvent),
    Nested stop closing opened (Child.notesOf stop closing parent index slots ++ rest) ↔
      Nested stop closing opened rest
  | _, [], _, _ => .rfl
  | index, .node n :: slots, opened, rest => by
    rw [Child.notesOf, List.append_assoc, Node.nested_notes n,
      Child.nested_notesOf parent (index + 1) slots]
  | index, .token t :: slots, opened, rest => by
    rw [Child.notesOf, List.cons_append, nested_token,
      Child.nested_notesOf parent (index + 1) slots]
  | index, .missing :: slots, opened, rest => by
    rw [Child.notesOf, List.cons_append, nested_missing,
      Child.nested_notesOf parent (index + 1) slots]

end

mutual

/-- Right below a node that is not among these, only the node at the top may stand. -/
theorem Node.under_notes_of_not_mem {id : NodeId} : ∀ (n : Node) (opened : List NodeId)
    (rest : List WalkEvent), id ∉ n.preorder.map Node.id →
    under stop closing id opened (n.notes stop closing ++ rest) =
      (if opened.head? = some id then [.enter n.kind n.id] else []) ++
        under stop closing id opened rest
  | ⟨top, kind, full, ends, slots⟩, opened, rest, hid => by
    rw [Node.preorder, List.map_cons, List.mem_cons, not_or] at hid
    have hhead : ¬ (top :: opened).head? = some id := fun h => hid.1 (Option.some.inj h).symm
    have hslots := Child.under_notesOf_of_not_mem top 0 slots (top :: opened)
      (.leave top :: rest) hid.2
    rw [if_neg hhead, List.nil_append, under_leave] at hslots
    rw [Node.notes, List.cons_append, under_enter, List.append_assoc, ending]
    refine congrArg (List.append _) ?_
    cases stop kind
    · exact hslots
    · cases closing
      · rfl
      · exact under_leave

theorem Child.under_notesOf_of_not_mem {id : NodeId} (parent : NodeId) : ∀ (index : Nat)
    (slots : List Child) (opened : List NodeId) (rest : List WalkEvent),
    id ∉ (Node.preorderOf slots).map Node.id →
    under stop closing id opened (Child.notesOf stop closing parent index slots ++ rest) =
      (if opened.head? = some id then Child.slotNotes parent index slots else []) ++
        under stop closing id opened rest
  | _, [], _, _, _ => by
    rw [Child.slotNotes_nil, ite_self]
    rfl
  | index, .node n :: slots, opened, rest, hid => by
    rw [Node.preorderOf, List.map_append, List.mem_append, not_or] at hid
    rw [Child.notesOf, List.append_assoc, Node.under_notes_of_not_mem n _ _ hid.1,
      Child.under_notesOf_of_not_mem parent (index + 1) slots _ _ hid.2, Child.slotNotes_cons]
    split <;> rfl
  | index, .token t :: slots, opened, rest, hid => by
    rw [Child.notesOf, List.cons_append, under_token,
      Child.under_notesOf_of_not_mem parent (index + 1) slots _ _ hid, Child.slotNotes_cons]
    split <;> rfl
  | index, .missing :: slots, opened, rest, hid => by
    rw [Child.notesOf, List.cons_append, under_missing,
      Child.under_notesOf_of_not_mem parent (index + 1) slots _ _ hid, Child.slotNotes_cons]
    split <;> rfl

end

mutual

/-- **Right below a node that is met stand its slots,** unless the walk stops at it. -/
theorem Node.under_notes {m : Node} : ∀ (n : Node) (opened : List NodeId) (rest : List WalkEvent),
    (n.preorder.map Node.id).Nodup → m ∈ n.met stop → opened.head? ≠ some m.id →
    under stop closing m.id opened (n.notes stop closing ++ rest) =
      (if stop m.kind then [] else Child.slotNotes m.id 0 m.slots) ++
        under stop closing m.id opened rest
  | ⟨top, kind, full, ends, slots⟩, opened, rest, hids, hm, hhead => by
    rw [Node.preorder, List.map_cons, List.nodup_cons] at hids
    rw [Node.notes, List.cons_append, under_enter, if_neg hhead, List.nil_append,
      List.append_assoc, ending]
    rw [Node.met, List.mem_cons] at hm
    rcases hm with rfl | hm
    · -- The node itself is open while its slots are walked, and no node below has its number.
      have hslots := @Child.under_notesOf_of_not_mem stop closing _ top 0 slots (top :: opened)
        (.leave top :: rest) hids.1
      rw [List.head?_cons, if_pos rfl, under_leave] at hslots
      dsimp only
      cases stop kind
      · exact hslots
      · cases closing
        · rfl
        · exact under_leave
    · cases hstop : stop kind
      · rw [hstop] at hm
        have hmem : m.id ∈ (Node.preorderOf slots).map Node.id :=
          List.mem_map_of_mem ((Child.metIn_sublist slots).subset hm)
        have hne : (top :: opened).head? ≠ some m.id := by
          intro h
          rw [← Option.some.inj h] at hmem
          exact hids.1 hmem
        have hslots := Child.under_notesOf top 0 slots (top :: opened) (.leave top :: rest) hids.2
          hm hne
        rw [under_leave] at hslots
        exact hslots
      · rw [hstop] at hm
        cases hm

theorem Child.under_notesOf {m : Node} (parent : NodeId) : ∀ (index : Nat) (slots : List Child)
    (opened : List NodeId) (rest : List WalkEvent), ((Node.preorderOf slots).map Node.id).Nodup →
    m ∈ Child.metIn stop slots → opened.head? ≠ some m.id →
    under stop closing m.id opened (Child.notesOf stop closing parent index slots ++ rest) =
      (if stop m.kind then [] else Child.slotNotes m.id 0 m.slots) ++
        under stop closing m.id opened rest
  | _, [], _, _, _, hm, _ => nomatch hm
  | index, .node n :: slots, opened, rest, hids, hm, hhead => by
    rw [Node.preorderOf, List.map_append, List.nodup_append'] at hids
    obtain ⟨hn, hslots, happart⟩ := hids
    rw [Child.metIn, List.mem_append] at hm
    rw [Child.notesOf, List.append_assoc]
    rcases hm with hm | hm
    · have hid := happart (List.mem_map_of_mem (n.met_sublist.subset hm))
      rw [Node.under_notes n _ _ hn hm hhead,
        Child.under_notesOf_of_not_mem parent (index + 1) slots _ _ hid, if_neg hhead,
        List.nil_append]
    · have hid := fun h => happart h (List.mem_map_of_mem ((Child.metIn_sublist slots).subset hm))
      rw [Node.under_notes_of_not_mem n _ _ hid, if_neg hhead, List.nil_append,
        Child.under_notesOf parent (index + 1) slots _ _ hslots hm hhead]
  | index, .token t :: slots, opened, rest, hids, hm, hhead => by
    rw [Child.notesOf, List.cons_append, under_token, if_neg hhead, List.nil_append,
      Child.under_notesOf parent (index + 1) slots _ _ hids hm hhead]
  | index, .missing :: slots, opened, rest, hids, hm, hhead => by
    rw [Child.notesOf, List.cons_append, under_missing, if_neg hhead, List.nil_append,
      Child.under_notesOf parent (index + 1) slots _ _ hids hm hhead]

end

end

/-! ## Numbers of nodes -/

theorem Node.postorderOf_append (ss ts : List Child) :
    postorderOf (ss ++ ts) = postorderOf ss ++ postorderOf ts := by
  induction ss with
  | nil => rfl
  | cons s rest ih =>
    cases s with
    | node n => rw [List.cons_append, postorderOf, postorderOf, ih, List.append_assoc]
    | token t => exact ih
    | missing => exact ih

namespace TreeBuilder

variable {b b' : TreeBuilder}

/-- Whether the finished nodes, each after those below it, are in the order of their numbers. -/
def Numbered (b : TreeBuilder) : Prop :=
  (Node.postorderOf b.pending.toList).map Node.id = List.range b.nodeCount

theorem Numbered.push (h : b.Numbered) {s : Child} (hs : Node.postorderOf [s] = []) :
    { b with pending := b.pending.push s }.Numbered := by
  rw [Numbered, Array.toList_push, Node.postorderOf_append, hs, List.append_nil]
  exact h

theorem Numbered.finishNode (h : b.Numbered) (hfinish : b.finishNode = .ok b') : b'.Numbered := by
  obtain ⟨o, rest, -, -, -, -, hcount, -, hpending⟩ := finishNode_eq_ok hfinish
  have hnode : Node.postorderOf [.node (b.closed o)] =
      Node.postorderOf (b.pending.toList.drop o.firstSlot) ++ [b.closed o] := by
    rw [Node.postorderOf, closed, Node.postorder, Node.postorderOf, List.append_nil]
  rw [Numbered, hpending, hcount, Node.postorderOf_append, hnode, ← List.append_assoc,
    ← Node.postorderOf_append, List.take_append_drop, List.map_append, h, List.range_succ]
  rfl

end TreeBuilder

namespace BuildRun

variable {r : BuildRun}

theorem numbered_step (h : r.builder.Numbered) (s : BuildStep) : (r.step s).2.builder.Numbered := by
  cases s with
  | start kind => exact h
  | mark => exact h
  | startAt i kind =>
    rcases r.step_startAt_cases kind (i := i) rfl with ⟨-, hstep⟩ | ⟨-, hstep⟩
    · rw [hstep]
      exact h
    · rw [hstep]
      exact h
  | token l => exact h.push rfl
  | missing => exact h.push rfl
  | finish =>
    rcases r.step_finish_cases with ⟨b, hfinish, hstep⟩ | ⟨e, -, hstep⟩
    · rw [hstep]
      exact h.finishNode hfinish
    · rw [hstep]
      exact h

/-- **Nodes have numbers in the order of their ends,** whatever the builder is told. -/
theorem numbered_run (h : r.builder.Numbered) (steps : List BuildStep) :
    (r.run steps).2.builder.Numbered := by
  induction steps generalizing r with
  | nil => exact h
  | cons s rest ih => exact ih (numbered_step h s)

end BuildRun

/-- Nodes of a finished tree are found by their numbers. -/
theorem TreeBuilder.Numbered.nodes {b : TreeBuilder} (h : b.Numbered) {tree : Tree}
    (hfinish : b.finish = .ok tree) {n : Node} (hn : n ∈ tree.root.preorder) :
    tree.nodes[n.id]? = some n := by
  obtain ⟨-, -, root, hroot, rfl⟩ := finish_eq_ok_iff.1 hfinish
  rw [Numbered, hroot, Node.postorderOf, Node.postorderOf, List.append_nil] at h
  obtain ⟨i, hi⟩ := List.getElem?_of_mem (Node.mem_postorder.2 hn)
  have hid : (root.postorder.map Node.id)[i]? = some n.id := by rw [List.getElem?_map, hi]; rfl
  rw [h] at hid
  obtain ⟨hlt, hid⟩ := List.getElem?_eq_some_iff.1 hid
  rw [List.getElem_range] at hid
  exact hid ▸ hi

/-! ## Visits of finished trees -/

/-- What is noted where a visitor goes through a tree, begins each node by the method of its kind,
has the slots of the node walked unless the kind satisfies `stop`, and ends the node. -/
structure Tree.Visited (t : Tree) (stop : NodeKind → Bool) (closing : Bool)
    (events : List WalkEvent) : Prop where
  /-- In document order the nodes are begun that no node with `stop` is above, by their kinds. -/
  begun : ∃ met : List Node, met.Sublist t.root.preorder ∧
    (∀ n, n ∈ met ↔ t.root.Reaches stop n) ∧
    events.filterMap WalkEvent.met? = met.map fun n => (n.kind, n.id)
  /-- The same nodes are ended; those whose slots are not walked only if they are to be. -/
  ended : ∀ id, .leave id ∈ events ↔
    ∃ n, t.root.Reaches stop n ∧ (stop n.kind → closing) ∧ n.id = id
  /-- Each end is that of the node begun last of those not ended, and in the end all are ended. -/
  nested : WalkEvent.Nested stop closing [] events
  /-- Between the begin and the end of a node stand its slots, in order, if they are walked. -/
  slots : ∀ n, t.root.Reaches stop n → WalkEvent.under stop closing n.id [] events =
    if stop n.kind then [] else n.slots.mapIdx (Child.note n.id)
  /-- Tokens are those in slots that are walked. -/
  tokens : ∀ id, .token id ∈ events ↔
    ∃ n, t.root.Reaches stop n ∧ stop n.kind = false ∧ ∃ token ∈ n.childTokens, token.id = id
  /-- Empty slots are those among slots that are walked, by their node and index. -/
  missing : ∀ parent index, .missing parent index ∈ events ↔
    ∃ n, t.root.Reaches stop n ∧ stop n.kind = false ∧ n.id = parent ∧
      n.slots[index]? = some .missing
  once : events.Nodup
  /-- What is left out is left out of the walk that stops nowhere. -/
  order : events.Sublist (t.walk fun _ => false)
  increasing : (events.filterMap WalkEvent.tokenId?).Pairwise (· < ·)
  /-- Without a kind to stop at, all nodes and all tokens are visited. -/
  whole : (∀ k, stop k = false) → (events.filterMap WalkEvent.met?).length = t.nodeCount ∧
    events.filterMap WalkEvent.tokenId? = List.range t.tokenCount

/-- What is noted in a tree whose nodes and tokens have the numbers from zero on. -/
theorem Tree.visited_recorder {t : Tree}
    (hids : (t.root.preorder.map Node.id).Perm (List.range t.nodeCount))
    (htokens : t.root.tokens.map Token.id = List.range t.tokenCount)
    (stop : NodeKind → Bool) (closing : Bool) :
    t.Visited stop closing (t.accept (.recorder stop closing) []) := by
  have hnodup : (t.root.preorder.map Node.id).Nodup := hids.nodup_iff.2 List.nodup_range
  have hnodup' : (t.root.tokens.map Token.id).Nodup := htokens ▸ List.nodup_range
  have hmet : ∀ n, n ∈ t.root.met stop ↔ t.root.Reaches stop n := fun n => Node.mem_met_iff hnodup
  have hwalk : (t.walk fun _ => false).filterMap WalkEvent.tokenId? = List.range t.tokenCount := by
    rw [Tree.walk, Node.walk_tokens, htokens]
  have horder := t.root.notes_sublist stop closing
  rw [Tree.accept, Node.accept_recorder, List.nil_append]
  refine
    { begun := ⟨_, t.root.met_sublist, hmet, t.root.notes_met stop closing⟩
      ended := fun id => ?_
      nested := ?_
      slots := fun n hn => ?_
      tokens := fun id => ?_
      missing := fun parent index => ?_
      once := Node.nodup_notes hnodup' hnodup
      order := horder
      increasing := ?_
      whole := fun hstop => ⟨?_, ?_⟩ }
  · simp only [Node.leave_mem_notes, hmet]
  · have hnested := @Node.nested_notes stop closing t.root [] []
    rw [List.append_nil] at hnested
    exact hnested.2 rfl
  · have hslots := @Node.under_notes stop closing n t.root [] [] hnodup ((hmet n).2 hn)
      (Option.some_ne_none n.id).symm
    rw [List.append_nil, WalkEvent.under, List.append_nil] at hslots
    rw [hslots, Child.slotNotes]
    simp only [Nat.zero_add]
  · simp only [Node.token_mem_notes, hmet]
  · simp only [Node.missing_mem_notes, hmet]
  · refine List.Pairwise.sublist (horder.filterMap _) ?_
    rw [← Tree.walk, hwalk]
    exact List.pairwise_lt_range
  · rw [Node.notes_met, Node.met_eq_preorder hstop, List.length_map, ← List.length_map Node.id,
      hids.length_eq, List.length_range]
  · obtain rfl : stop = fun _ => false := funext hstop
    rw [← Node.walk_eq_notes (fun _ h => (Bool.false_ne_true h).elim), ← Tree.walk, hwalk]

/-- **A visit of a finished tree comes to everything once and passes over what is below the kinds at
which it stops,** whatever the builder of the tree was told, with whatever checkpoints. Nodes are
found by their numbers, and the numbers get smaller on the way down. -/
theorem BuildRun.finish_visited (marks : Array Checkpoint) (steps : List BuildStep) {tree : Tree}
    (h : ((⟨.empty, marks⟩ : BuildRun).run steps).2.builder.finish = .ok tree)
    (stop : NodeKind → Bool) (closing : Bool) :
    tree.Visited stop closing (tree.accept (.recorder stop closing) []) ∧
    tree.walk stop = tree.accept (.recorder stop false) [] ∧
    ∀ n ∈ tree.root.preorder, tree.nodes[n.id]? = some n ∧ ∀ c ∈ n.children, c.id < n.id := by
  have hholds := holds_run (r := ⟨.empty, marks⟩) TreeBuilder.Holds.empty steps
  have hnumbered := numbered_run (r := ⟨.empty, marks⟩) rfl steps
  obtain ⟨-, htokens, hroot, hids, hsound⟩ := hholds.finish h
  have hnumbers : tree.root.tokens.map Token.id = List.range tree.tokenCount := by
    rw [Tree.tokenCount, ← Array.length_toList, hroot, htokens, map_id_tokensFrom,
      length_tokensFrom, List.range_eq_range']
    rfl
  refine ⟨tree.visited_recorder hids hnumbers stop closing, ?_, fun n hn =>
    ⟨hnumbered.nodes h hn, (hsound n hn).children⟩⟩
  rw [Tree.walk, Node.walk_eq_notes (fun _ _ => rfl), Tree.accept, Node.accept_recorder,
    List.nil_append]

/-- Instructions that build a call with an empty slot for its arguments. -/
def openCallSteps : List BuildStep :=
  [.start .modulePart, .start .functionCall, .start .simpleNameReference,
    .token ⟨.identifier, "f", [], []⟩, .finish, .missing, .finish,
    .token ⟨.endOfFile, "", [], []⟩, .missing, .finish]

theorem BuildRun.finish_visited_openCall : ∃ tree,
    ((⟨.empty, #[]⟩ : BuildRun).run openCallSteps).2.builder.finish = .ok tree ∧
    tree.Visited (· == .functionCall) true (tree.accept (.recorder (· == .functionCall) true) []) ∧
    tree.accept (.recorder (· == .functionCall) true) [] =
      [.enter .modulePart 2, .enter .functionCall 1, .leave 1, .token 1, .missing 2 2, .leave 2] ∧
    tree.walk (fun _ => false) =
      [.enter .modulePart 2, .enter .functionCall 1, .enter .simpleNameReference 0, .token 0,
        .leave 0, .missing 1 1, .leave 1, .token 1, .missing 2 2, .leave 2] := by
  obtain ⟨tree, htree⟩ : ∃ tree, ((⟨.empty, #[]⟩ : BuildRun).run openCallSteps).2.builder.finish =
    .ok tree := ⟨_, rfl⟩
  refine ⟨tree, htree, (finish_visited #[] openCallSteps htree _ true).1, ?_⟩
  cases htree
  exact ⟨rfl, rfl⟩

end Xref
