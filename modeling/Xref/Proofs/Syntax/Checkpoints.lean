import Xref.Proofs.Syntax.Building
import Xref.Proofs.Syntax.Tiling

/-!
# Checkpoints in place

A checkpoint is in place as long as no node that was open when it was taken has been finished and no
slot that was there has gone into a node. Instructions that use only such checkpoints, and each at
the depth at which it was taken, are orderly (`BuildRun.Orderly`). Their offsets agree with the slots:
the pending slots take the bytes given so far one behind the other, and each open node and each
checkpoint in place stands where one of them ends (`BuildRun.InOrder`). So an orderly tree is tiled
(`BuildRun.Orderly.tiled`).
-/

namespace Xref

/-! ## Orderly instructions -/

/-- Whether a checkpoint stays in place when the innermost open node is finished: that node was opened
after it and takes none of the slots that were there. -/
def TreeBuilder.spares (b : TreeBuilder) (c : Checkpoint) : Bool :=
  b.opened.head?.all fun o => c.depth < b.depth && c.pending ≤ o.firstSlot

namespace BuildRun

/-- The checkpoints in place after an instruction, by their numbers. -/
def keep (r : BuildRun) (kept : List Nat) : BuildStep → List Nat
  | .mark => kept ++ [r.marks.size]
  | .finish => kept.filter fun i => r.marks[i]?.any r.builder.spares
  | _ => kept

/-- The checkpoints in place after several instructions. -/
def keepAll (r : BuildRun) (kept : List Nat) : List BuildStep → List Nat
  | [] => kept
  | s :: rest => (r.step s).2.keepAll (r.keep kept s) rest

/-- Whether an instruction that uses a checkpoint uses one in place, every node opened since having
been finished. -/
def Permits (r : BuildRun) (kept : List Nat) : BuildStep → Prop
  | .startAt i _ => i ∈ kept ∧ r.marks[i]?.map Checkpoint.depth = some r.builder.depth
  | _ => True

instance (r : BuildRun) (kept : List Nat) : (s : BuildStep) → Decidable (r.Permits kept s)
  | .startAt _ _ => instDecidableAnd
  | .start _ | .mark | .token _ | .missing | .finish => .isTrue trivial

/-- Whether instructions use checkpoints in place only. -/
def Orderly (r : BuildRun) (kept : List Nat) : List BuildStep → Prop
  | [] => True
  | s :: rest => r.Permits kept s ∧ (r.step s).2.Orderly (r.keep kept s) rest

instance decidableOrderly : (r : BuildRun) → (kept : List Nat) → (steps : List BuildStep) →
    Decidable (r.Orderly kept steps)
  | _, _, [] => .isTrue trivial
  | r, kept, s :: rest =>
    have := decidableOrderly (r.step s).2 (r.keep kept s) rest
    inferInstanceAs (Decidable (_ ∧ _))

end BuildRun

/-! ## Offsets -/

namespace TreeBuilder

/-- Whether the first `count` pending slots end at an offset. -/
def EndsAt (b : TreeBuilder) (count offset : Nat) : Prop :=
  count ≤ b.pending.size ∧ Tiles 0 (b.pending.toList.take count) offset

/-- Whether the offsets of a builder agree with its slots. -/
structure Placed (b : TreeBuilder) : Prop where
  pending : Tiles 0 b.pending.toList b.offset
  nodes : ∀ n ∈ Node.preorderOf b.pending.toList, n.Tiled
  opened : ∀ o ∈ b.opened, b.EndsAt o.firstSlot o.start
  nested : b.opened.Pairwise fun inner outer => outer.firstSlot ≤ inner.firstSlot

/-- Whether a checkpoint is in place: it stands where a pending slot ends, and the outermost
`c.depth` open nodes start no later. -/
structure InPlace (b : TreeBuilder) (c : Checkpoint) : Prop where
  depth : c.depth ≤ b.depth
  ends : b.EndsAt c.pending c.offset
  outer : ∀ o ∈ b.opened.drop (b.depth - c.depth), o.firstSlot ≤ c.pending

variable {b b' : TreeBuilder} {c : Checkpoint} {kind : NodeKind} {count offset : Nat}

theorem endsAt_all (h : Tiles 0 b.pending.toList b.offset) : b.EndsAt b.pending.size b.offset := by
  refine ⟨Nat.le_refl _, ?_⟩
  rwa [← Array.length_toList, List.take_length]

/-- The end of some slots stays where it is as long as these slots do. -/
theorem EndsAt.mono (h : b.EndsAt count offset) (more : List Child)
    (hpending : b'.pending.toList = b.pending.toList.take count ++ more) :
    b'.EndsAt count offset := by
  have hlength : (b.pending.toList.take count).length = count := by
    rw [List.length_take, Array.length_toList, Nat.min_eq_left h.1]
  refine ⟨?_, ?_⟩
  · rw [← Array.length_toList, hpending, List.length_append, hlength]
    exact Nat.le_add_right _ _
  · rw [hpending, List.take_left' hlength]
    exact h.2

/-- One more slot moves no end. -/
theorem EndsAt.push (h : b.EndsAt count offset) {s : Child}
    (hpending : b'.pending = b.pending.push s) : b'.EndsAt count offset := by
  refine h.mono (b.pending.toList.drop count ++ [s]) ?_
  rw [hpending, Array.toList_push, ← List.append_assoc, List.take_append_drop]

/-- Wrapping later slots moves no end. -/
theorem EndsAt.wrap (h : b.EndsAt count offset) {firstSlot : Nat} (hle : count ≤ firstSlot)
    {n : Node} (hpending : b'.pending.toList = b.pending.toList.take firstSlot ++ [.node n]) :
    b'.EndsAt count offset := by
  refine h.mono ((b.pending.toList.take firstSlot).drop count ++ [.node n]) ?_
  rw [hpending, ← List.append_assoc]
  conv_lhs => rw [← List.take_append_drop count (b.pending.toList.take firstSlot)]
  rw [List.take_take, Nat.min_eq_left hle]

theorem Placed.empty : empty.Placed where
  pending := rfl
  nodes _ hn := nomatch hn
  opened _ ho := nomatch ho
  nested := List.Pairwise.nil

/-! ### Opening a node -/

theorem Placed.openAt (h : b.Placed) (hc : b.InPlace c) (hdepth : c.depth = b.depth) :
    { b with opened := ⟨kind, c.pending, c.offset⟩ :: b.opened }.Placed := by
  refine ⟨h.pending, h.nodes, List.forall_mem_cons.2 ⟨hc.ends, h.opened⟩, h.nested.cons ?_⟩
  have houter := hc.outer
  rwa [hdepth, Nat.sub_self, List.drop_zero] at houter

theorem InPlace.open (h : b.InPlace c) (o : OpenNode) :
    { b with opened := o :: b.opened }.InPlace c := by
  have hdrop : (o :: b.opened).drop (b.depth + 1 - c.depth) = b.opened.drop (b.depth - c.depth) := by
    rw [Nat.succ_sub h.depth, List.drop_succ_cons]
  exact ⟨Nat.le_succ_of_le h.depth, h.ends, fun o ho => h.outer o (hdrop ▸ ho)⟩

/-- The place that has been reached is in place. -/
theorem Placed.checkpoint (h : b.Placed) : b.InPlace b.checkpoint :=
  ⟨Nat.le_refl _, endsAt_all h.pending, fun o ho => (h.opened o (List.mem_of_mem_drop ho)).1⟩

theorem Placed.start (h : b.Placed) : (b.start kind).Placed := h.openAt h.checkpoint rfl

/-! ### Adding a slot -/

theorem Placed.push (h : b.Placed) {s : Child} (hpending : b'.pending = b.pending.push s)
    (hopened : b'.opened = b.opened) (htakes : Child.Takes b.offset b'.offset s)
    (hs : Node.preorderOf [s] = []) : b'.Placed where
  pending := by
    rw [hpending, Array.toList_push, tiles_append]
    exact ⟨b.offset, h.pending, tiles_singleton.2 htakes⟩
  nodes := by
    rw [hpending, Array.toList_push, preorderOf_append, hs, List.append_nil]
    exact h.nodes
  opened o ho := (h.opened o (hopened ▸ ho)).push hpending
  nested := hopened ▸ h.nested

theorem InPlace.push (h : b.InPlace c) {s : Child} (hpending : b'.pending = b.pending.push s)
    (hopened : b'.opened = b.opened) : b'.InPlace c := by
  have hdepth : b'.depth = b.depth := congrArg List.length hopened
  refine ⟨hdepth ▸ h.depth, h.ends.push hpending, ?_⟩
  rw [hopened, hdepth]
  exact h.outer

theorem Placed.token (h : b.Placed) (l : Lexeme) : (b.token l).Placed := by
  refine h.push rfl rfl ?_ rfl
  have hoffset : (b.token l).offset = b.offset + l.source.utf8ByteSize :=
    String.utf8ByteSize_append
  rw [hoffset]
  rfl

theorem Placed.missing (h : b.Placed) : b.missing.Placed := h.push rfl rfl rfl rfl

/-! ### Finishing a node -/

theorem Placed.finishNode (h : b.Placed) (hfinish : b.finishNode = .ok b') : b'.Placed := by
  obtain ⟨o, rest, hopened, hsize, htext, -, -, hrest, hpending⟩ := finishNode_eq_ok hfinish
  have hoffset : b'.offset = b.offset := congrArg String.utf8ByteSize htext
  have ho := h.opened o (hopened ▸ List.mem_cons_self)
  have hnested := h.nested
  rw [hopened, List.pairwise_cons] at hnested
  have hsplit := List.take_append_drop o.firstSlot b.pending.toList
  -- The slots of the node start where it was opened.
  obtain ⟨mid, hbefore, hslots⟩ := tiles_append.1 (hsplit ▸ h.pending)
  obtain rfl := ho.2.unique hbefore
  have hnodes := h.nodes
  rw [← hsplit, preorderOf_append, List.forall_mem_append] at hnodes
  refine ⟨?_, ?_, fun p hp => ?_, hrest ▸ hnested.2⟩
  · rw [hpending, hoffset, tiles_append]
    exact ⟨o.start, ho.2, tiles_singleton.2 rfl⟩
  · rw [hpending, preorderOf_append, List.forall_mem_append]
    refine ⟨hnodes.1, ?_⟩
    rw [Node.preorderOf, Node.preorderOf, List.append_nil]
    exact List.forall_mem_cons.2 ⟨hslots, hnodes.2⟩
  · have hp' : p ∈ rest := hrest ▸ hp
    exact (h.opened p (hopened ▸ List.mem_cons_of_mem _ hp')).wrap (hnested.1 p hp') hpending

theorem InPlace.finishNode (h : b.InPlace c) (hspares : b.spares c)
    (hfinish : b.finishNode = .ok b') : b'.InPlace c := by
  obtain ⟨o, rest, hopened, -, -, -, -, hrest, hpending⟩ := finishNode_eq_ok hfinish
  rw [spares, hopened, List.head?_cons, Option.all_some, Bool.and_eq_true, decide_eq_true_iff,
    decide_eq_true_iff] at hspares
  have hdepth : b.depth = b'.depth + 1 := by
    rw [TreeBuilder.depth, TreeBuilder.depth, hopened, hrest, List.length_cons]
  have hle : c.depth ≤ b'.depth := Nat.le_of_lt_succ (Nat.lt_of_lt_of_eq hspares.1 hdepth)
  have houter := h.outer
  rw [hopened, hdepth, Nat.succ_sub hle, List.drop_succ_cons, ← hrest] at houter
  exact ⟨hle, h.ends.wrap hspares.2 hpending, houter⟩

end TreeBuilder

/-! ## Runs -/

namespace BuildRun

/-- **The invariant** of orderly instructions: the offsets agree with the slots, and the checkpoints
that should be in place are. -/
structure InOrder (r : BuildRun) (kept : List Nat) : Prop where
  builder : r.builder.Placed
  marks : ∀ i ∈ kept, ∃ c, r.marks[i]? = some c ∧ r.builder.InPlace c

variable {r : BuildRun} {kept : List Nat} {steps : List BuildStep}

theorem InOrder.empty : empty.InOrder [] := ⟨.empty, fun _ hi => nomatch hi⟩

theorem InOrder.subset (h : r.InOrder kept) {kept' : List Nat} (hsubset : kept' ⊆ kept) :
    r.InOrder kept' := ⟨h.builder, fun i hi => h.marks i (hsubset hi)⟩

/-- What keeps checkpoints in place keeps the marks. -/
theorem InOrder.of_builder (h : r.InOrder kept) {b : TreeBuilder} (hb : b.Placed)
    (hmarks : ∀ c, r.builder.InPlace c → b.InPlace c) : InOrder ⟨b, r.marks⟩ kept :=
  ⟨hb, fun i hi => (h.marks i hi).imp fun c hc => ⟨hc.1, hmarks c hc.2⟩⟩

/-- An instruction to open a node at a checkpoint in place is carried out. -/
theorem step_startAt {i : Nat} {kind : NodeKind} {c : Checkpoint} (hi : r.marks[i]? = some c)
    (hc : r.builder.InPlace c) (hdepth : c.depth = r.builder.depth) :
    r.step (.startAt i kind) = (.depth (r.builder.depth + 1),
      ⟨{ r.builder with opened := ⟨kind, c.pending, c.offset⟩ :: r.builder.opened }, r.marks⟩) := by
  have hget : r.marks.getD i default = c := by rw [Array.getD_eq_getD_getElem?, hi, Option.getD_some]
  rcases r.step_startAt_cases kind hget with ⟨-, hstep⟩ | ⟨hcounts, -⟩
  · exact hstep
  · exact absurd ⟨hdepth, hc.ends.1⟩ hcounts

/-- **Every permitted instruction keeps the invariant.** -/
theorem InOrder.step (h : r.InOrder kept) {s : BuildStep} (hs : r.Permits kept s) :
    (r.step s).2.InOrder (r.keep kept s) := by
  cases s with
  | start kind => exact h.of_builder h.builder.start fun c hc => hc.open _
  | mark =>
    refine ⟨h.builder, fun i hi => ?_⟩
    show ∃ c, (r.marks.push r.builder.checkpoint)[i]? = some c ∧ r.builder.InPlace c
    rw [keep, List.mem_append, List.mem_singleton] at hi
    rcases hi with hi | rfl
    · obtain ⟨c, hget, hc⟩ := h.marks i hi
      obtain ⟨hlt, -⟩ := Array.getElem?_eq_some_iff.1 hget
      exact ⟨c, by rw [Array.getElem?_push, if_neg (Nat.ne_of_lt hlt), hget], hc⟩
    · exact ⟨_, Array.getElem?_push_size, h.builder.checkpoint⟩
  | startAt i kind =>
    obtain ⟨hi, hdepth⟩ := hs
    obtain ⟨c, hget, hc⟩ := h.marks i hi
    rw [hget, Option.map_some, Option.some.injEq] at hdepth
    rw [step_startAt hget hc hdepth]
    exact h.of_builder (h.builder.openAt hc hdepth) fun c' hc' => hc'.open _
  | token l => exact h.of_builder (h.builder.token l) fun c hc => hc.push rfl rfl
  | missing => exact h.of_builder h.builder.missing fun c hc => hc.push rfl rfl
  | finish =>
    have hkept : ∀ i ∈ r.keep kept .finish, i ∈ kept ∧ r.marks[i]?.any r.builder.spares :=
      fun i hi => List.mem_filter.1 hi
    rcases r.step_finish_cases with ⟨b, hfinish, hstep⟩ | ⟨e, -, hstep⟩
    · rw [hstep]
      refine ⟨h.builder.finishNode hfinish, fun i hi => ?_⟩
      obtain ⟨hi, hspares⟩ := hkept i hi
      obtain ⟨c, hget, hc⟩ := h.marks i hi
      rw [hget, Option.any_some] at hspares
      exact ⟨c, hget, hc.finishNode hspares hfinish⟩
    · rw [hstep]
      exact ⟨h.builder, fun i hi => h.marks i (hkept i hi).1⟩

theorem InOrder.run (h : r.InOrder kept) (hs : r.Orderly kept steps) :
    (r.run steps).2.InOrder (r.keepAll kept steps) := by
  induction steps generalizing r kept with
  | nil => exact h
  | cons s rest ih => exact ih (h.step hs.1) hs.2

/-- A tree that comes of orderly instructions is tiled. -/
theorem Orderly.tiled {tree : Tree} (hs : empty.Orderly [] steps)
    (hfinish : (empty.run steps).2.builder.finish = .ok tree) : tree.Tiled := by
  have h := (InOrder.empty.run hs).builder
  obtain ⟨-, -, root, hroot, rfl⟩ := TreeBuilder.finish_eq_ok_iff.1 hfinish
  have hpending := h.pending
  have hnodes := h.nodes
  rw [hroot] at hpending hnodes
  rw [Node.preorderOf, Node.preorderOf, List.append_nil] at hnodes
  exact ⟨tiles_singleton.1 hpending, hnodes⟩

end BuildRun

end Xref
