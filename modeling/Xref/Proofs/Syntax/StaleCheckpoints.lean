import Xref.Proofs.Syntax.Instructions

/-!
# Stale checkpoints

A checkpoint is fresh as long as the nodes that were open when it was taken are those that are open
and every slot that was pending still is (`Roll.Fresh`). To tell, nodes and slots are called by the
numbers of the instructions that opened and added them (`BuildTrace`). The builder only compares how
many there are. So it refuses no fresh checkpoint, and a stale one that it does not refuse is not
intact: a node that was open has been finished, or a slot that was pending has gone into a node
(`BuildTrace.Checks`). As long as this does not happen the slots of a node are its own
(`BuildTrace.after_checks`).
-/

namespace Xref

/-! ## Nodes and slots by their numbers -/

/-- The open nodes, the innermost first, and the pending slots in order, by the numbers of the
instructions that opened and added them. -/
structure Roll where
  opened : List Nat
  pending : List Nat
  deriving DecidableEq, Repr

namespace Roll

/-- Whether no node that was open has been finished and no slot that was pending wrapped. -/
structure Intact (past now : Roll) : Prop where
  stillOpen : ∀ n ∈ past.opened, n ∈ now.opened
  unwrapped : ∀ n ∈ past.pending, n ∈ now.pending

/-- Whether, besides, every node opened since has been finished. -/
structure Fresh (past now : Roll) : Prop extends past.Intact now where
  finished : ∀ n ∈ now.opened, n ∈ past.opened

instance (past now : Roll) : Decidable (past.Fresh now) :=
  decidable_of_iff ((∀ n ∈ past.opened, n ∈ now.opened) ∧ (∀ n ∈ past.pending, n ∈ now.pending) ∧
      ∀ n ∈ now.opened, n ∈ past.opened)
    ⟨fun h => ⟨⟨h.1, h.2.1⟩, h.2.2⟩, fun h => ⟨h.stillOpen, h.unwrapped, h.finished⟩⟩

/-- Opens a node. -/
def openNode (roll : Roll) (n : Nat) : Roll := { roll with opened := n :: roll.opened }

/-- Adds a slot. -/
def addSlot (roll : Roll) (n : Nat) : Roll := { roll with pending := roll.pending ++ [n] }

/-- Finishes the innermost open node, which becomes a slot in the place of those it takes. -/
def finishNode (roll : Roll) (firstSlot n : Nat) : Roll :=
  ⟨roll.opened.tail, roll.pending.take firstSlot ++ [n]⟩

/-- Whether numbers below `count` are used, and each only once. -/
structure Numbered (roll : Roll) (count : Nat) : Prop where
  opened : ∀ n ∈ roll.opened, n < count
  pending : ∀ n ∈ roll.pending, n < count
  nodup_opened : roll.opened.Nodup
  nodup_pending : roll.pending.Nodup

variable {past now roll : Roll} {count firstSlot : Nat}

namespace Numbered

theorem succ (h : roll.Numbered count) : roll.Numbered (count + 1) where
  opened n hn := Nat.lt_succ_of_lt (h.opened n hn)
  pending n hn := Nat.lt_succ_of_lt (h.pending n hn)
  nodup_opened := h.nodup_opened
  nodup_pending := h.nodup_pending

theorem openNode (h : roll.Numbered count) : (roll.openNode count).Numbered (count + 1) where
  opened := List.forall_mem_cons.2 ⟨Nat.lt_succ_self count, h.succ.opened⟩
  pending := h.succ.pending
  nodup_opened := h.nodup_opened.cons fun hmem => Nat.lt_irrefl _ (h.opened _ hmem)
  nodup_pending := h.nodup_pending

theorem addSlot (h : roll.Numbered count) : (roll.addSlot count).Numbered (count + 1) where
  opened := h.succ.opened
  pending := List.forall_mem_append.2
    ⟨h.succ.pending, List.forall_mem_singleton.2 (Nat.lt_succ_self count)⟩
  nodup_opened := h.nodup_opened
  nodup_pending := by
    rw [Roll.addSlot, ← List.concat_eq_append]
    exact h.nodup_pending.concat fun hmem => Nat.lt_irrefl _ (h.pending _ hmem)

theorem finishNode (h : roll.Numbered count) (firstSlot : Nat) :
    (roll.finishNode firstSlot count).Numbered (count + 1) := by
  have hshorter : Numbered ⟨roll.opened.tail, roll.pending.take firstSlot⟩ count :=
    ⟨fun n hn => h.opened n (List.mem_of_mem_tail hn),
      fun n hn => h.pending n (List.mem_of_mem_take hn),
      h.nodup_opened.tail, h.nodup_pending.sublist (List.take_sublist _ _)⟩
  exact hshorter.addSlot

end Numbered

/-! ### Staying intact -/

/-- A node that is opened was not open before. -/
theorem Intact.of_openNode (hpast : past.Numbered count) (h : past.Intact (roll.openNode count)) :
    past.Intact roll where
  stillOpen n hn :=
    (List.mem_cons.1 (h.stillOpen n hn)).resolve_left (Nat.ne_of_lt (hpast.opened n hn))
  unwrapped := h.unwrapped

/-- A slot that is added was not pending before. -/
theorem Intact.of_addSlot (hpast : past.Numbered count) (h : past.Intact (roll.addSlot count)) :
    past.Intact roll where
  stillOpen := h.stillOpen
  unwrapped n hn := (List.mem_append.1 (h.unwrapped n hn)).resolve_right fun hmem =>
    Nat.ne_of_lt (hpast.pending n hn) (List.mem_singleton.1 hmem)

/-- What is intact after a node has been finished has as few open nodes and slots as are left. -/
theorem Intact.of_finishNode (hpast : past.Numbered count)
    (h : past.Intact (roll.finishNode firstSlot count)) :
    past.Intact roll ∧ past.opened.length ≤ roll.opened.tail.length ∧
      past.pending.length ≤ firstSlot := by
  have hleft : past.Intact ⟨roll.opened.tail, roll.pending.take firstSlot⟩ :=
    Intact.of_addSlot hpast h
  have hopened := (List.subperm_of_subset hpast.nodup_opened hleft.stillOpen).length_le
  have hpending := (List.subperm_of_subset hpast.nodup_pending hleft.unwrapped).length_le
  refine ⟨⟨fun n hn => List.mem_of_mem_tail (hleft.stillOpen n hn),
    fun n hn => List.mem_of_mem_take (hleft.unwrapped n hn)⟩, hopened, ?_⟩
  exact hpending.trans (List.length_take_le _ _)

/-- To be intact and to have the right numbers of nodes and slots is to be fresh. -/
theorem fresh_iff {count' : Nat} (hpast : past.Numbered count) (hnow : now.Numbered count') :
    past.Fresh now ↔ (past.opened.length = now.opened.length ∧
      past.pending.length ≤ now.pending.length) ∧ past.Intact now := by
  constructor
  · intro h
    have hperm := (List.perm_ext_iff_of_nodup hpast.nodup_opened hnow.nodup_opened).2 fun n =>
      ⟨h.stillOpen n, h.finished n⟩
    have hpending := (List.subperm_of_subset hpast.nodup_pending h.unwrapped).length_le
    exact ⟨⟨hperm.length_eq, hpending⟩, h.toIntact⟩
  · rintro ⟨⟨hopened, -⟩, hintact⟩
    have hperm := (List.subperm_of_subset hpast.nodup_opened hintact.stillOpen).perm_of_length_le
      hopened.ge
    exact ⟨hintact, fun n hn => hperm.mem_iff.2 hn⟩

end Roll

/-! ## Builders at work -/

/-- Whether an instruction was not carried out. -/
def BuildReply.isFailed : BuildReply → Bool
  | .failed _ => true
  | _ => false

/-- A builder at work: what is open and pending, and what was at each checkpoint. -/
structure BuildTrace where
  run : BuildRun
  roll : Roll
  /-- The rolls when the checkpoints were taken, the first one first. -/
  marked : List Roll
  /-- The number of instructions so far. -/
  count : Nat

namespace BuildTrace

/-- Nothing has been built. -/
def empty : BuildTrace := ⟨.empty, ⟨[], []⟩, [], 0⟩

/-- Carries out one instruction. -/
def step (t : BuildTrace) (s : BuildStep) : BuildTrace :=
  let after : BuildTrace := { t with run := (t.run.step s).2, count := t.count + 1 }
  if (t.run.step s).1.isFailed then after
  else match s with
    | .start _ | .startAt _ _ => { after with roll := t.roll.openNode t.count }
    | .mark => { after with marked := t.marked ++ [t.roll] }
    | .token _ | .missing => { after with roll := t.roll.addSlot t.count }
    | .finish =>
      let firstSlot := (t.run.builder.opened.head?.map OpenNode.firstSlot).getD 0
      { after with roll := t.roll.finishNode firstSlot t.count }

/-- Carries out instructions in order. -/
def after (t : BuildTrace) (steps : List BuildStep) : BuildTrace := steps.foldl step t

/-- Whether a checkpoint is intact. -/
def Intact (t : BuildTrace) (i : Nat) : Prop :=
  ∃ past, t.marked[i]? = some past ∧ past.Intact t.roll

/-- Whether a checkpoint is fresh. -/
def Fresh (t : BuildTrace) (i : Nat) : Prop :=
  ∃ past, t.marked[i]? = some past ∧ past.Fresh t.roll

/-- Whether the builder opens a node at a checkpoint. -/
def Opens (t : BuildTrace) (i : Nat) (kind : NodeKind) : Prop :=
  (t.run.step (.startAt i kind)).1.isFailed = false

/-- Whether the builder finds out whether a checkpoint is stale. -/
def Detects (t : BuildTrace) : BuildStep → Prop
  | .startAt i kind => t.Opens i kind → t.Fresh i
  | _ => True

/-- Whether it does for each of several instructions. -/
def DetectsAll (t : BuildTrace) : List BuildStep → Prop
  | [] => True
  | s :: rest => t.Detects s ∧ (t.step s).DetectsAll rest

/-- What the builder tells of its checkpoints. -/
structure Checks (t : BuildTrace) : Prop where
  /-- It refuses to open a node for one reason only, and then nothing changes. -/
  refused {i : Nat} {kind : NodeKind} (h : ¬ t.Opens i kind) :
    t.run.step (.startAt i kind) = (.failed .staleCheckpoint, t.run)
  /-- It opens one if as many nodes are open as then and no fewer slots are pending. -/
  opens_iff {i : Nat} {past : Roll} (hpast : t.marked[i]? = some past) (kind : NodeKind) :
    t.Opens i kind ↔
      past.opened.length = t.roll.opened.length ∧ past.pending.length ≤ t.roll.pending.length
  /-- So it does at every fresh checkpoint, and a stale one gets through only if a node that was
  open then has been finished or a slot has been wrapped. -/
  fresh_iff {i : Nat} {past : Roll} (hpast : t.marked[i]? = some past) (kind : NodeKind) :
    past.Fresh t.roll ↔ t.Opens i kind ∧ past.Intact t.roll

/-! ### Numbers and builder agree -/

/-- **The invariant** of all instructions: the numbers are as many as the builder has open nodes and
pending slots, now and at each checkpoint. -/
structure Keeps (t : BuildTrace) : Prop where
  roll : t.roll.Numbered t.count
  opened : t.roll.opened.length = t.run.builder.depth
  pending : t.roll.pending.length = t.run.builder.pending.size
  marked : ∀ past ∈ t.marked, past.Numbered t.count
  marks : t.run.marks.toList.map (fun c => (c.depth, c.pending)) =
    t.marked.map fun past => (past.opened.length, past.pending.length)

variable {t : BuildTrace} {s : BuildStep} {i : Nat} {past : Roll}

theorem Keeps.empty : empty.Keeps where
  roll := ⟨nofun, nofun, List.nodup_nil, List.nodup_nil⟩
  opened := rfl
  pending := rfl
  marked _ h := nomatch h
  marks := rfl

theorem Keeps.mark (h : t.Keeps) (hpast : t.marked[i]? = some past) : ∃ c,
    t.run.marks[i]? = some c ∧ c.depth = past.opened.length ∧ c.pending = past.pending.length := by
  have hmark := congrArg (fun l => l[i]?) h.marks
  simp only [List.getElem?_map, hpast, Option.map_some, Array.getElem?_toList] at hmark
  obtain ⟨c, hc, hcounts⟩ := Option.map_eq_some_iff.1 hmark
  exact ⟨c, hc, Prod.mk.inj hcounts⟩

/-- An instruction that is not carried out changes nothing. -/
theorem step_of_isFailed (h : (t.run.step s).1.isFailed) :
    t.step s = { t with count := t.count + 1 } := by
  have hrun : (t.run.step s).2 = t.run := by
    cases s with
    | start | mark | token | missing => cases h
    | startAt i kind =>
      rcases t.run.step_startAt_cases kind (i := i) rfl with ⟨-, hstep⟩ | ⟨-, hstep⟩
      · rw [hstep] at h
        cases h
      · rw [hstep]
    | finish =>
      rcases t.run.step_finish_cases with ⟨b, -, hstep⟩ | ⟨e, -, hstep⟩
      · rw [hstep] at h
        cases h
      · rw [hstep]
  unfold step
  rw [if_pos h, hrun]

theorem step_finish {b : TreeBuilder} {o : OpenNode} {rest : List OpenNode}
    (hfinish : t.run.builder.finishNode = .ok b) (hopened : t.run.builder.opened = o :: rest) :
    t.step .finish = ⟨⟨b, t.run.marks⟩, t.roll.finishNode o.firstSlot t.count, t.marked,
      t.count + 1⟩ := by
  have hstep : t.run.step .finish = (.node t.run.builder.nodeCount, ⟨b, t.run.marks⟩) := by
    simp only [BuildRun.step, hfinish]
  rw [step, hstep, hopened]
  rfl

theorem Keeps.succ (h : t.Keeps) : { t with count := t.count + 1 }.Keeps :=
  ⟨h.roll.succ, h.opened, h.pending, fun past hpast => (h.marked past hpast).succ, h.marks⟩

theorem Keeps.step (h : t.Keeps) (s : BuildStep) : (t.step s).Keeps := by
  have hsucc := h.succ
  have hpush : (t.roll.pending ++ [t.count]).length = t.run.builder.pending.size + 1 := by
    rw [List.length_append, h.pending, List.length_singleton]
  cases s with
  | start kind =>
    exact ⟨h.roll.openNode, congrArg (· + 1) h.opened, h.pending, hsucc.marked, h.marks⟩
  | mark =>
    refine ⟨hsucc.roll, h.opened, h.pending, ?_, ?_⟩
    · exact List.forall_mem_append.2 ⟨hsucc.marked, List.forall_mem_singleton.2 hsucc.roll⟩
    · show (t.run.marks.push t.run.builder.checkpoint).toList.map _ = (t.marked ++ [t.roll]).map _
      rw [Array.toList_push, List.map_append, List.map_append, h.marks, List.map_singleton,
        List.map_singleton, h.opened, h.pending]
      rfl
  | token | missing =>
    exact ⟨h.roll.addSlot, h.opened, hpush.trans (Array.size_push _).symm, hsucc.marked, h.marks⟩
  | startAt i kind =>
    rcases t.run.step_startAt_cases kind (i := i) rfl with ⟨-, hstep⟩ | ⟨-, hstep⟩
    · rw [BuildTrace.step, hstep]
      exact ⟨h.roll.openNode, congrArg (· + 1) h.opened, h.pending, hsucc.marked, h.marks⟩
    · rw [step_of_isFailed (by rw [hstep]; rfl)]
      exact hsucc
  | finish =>
    rcases t.run.step_finish_cases with ⟨b, hfinish, -⟩ | ⟨e, -, hstep⟩
    · obtain ⟨o, rest, hopened, -, -, -, -, hrest, hpending⟩ :=
        TreeBuilder.finishNode_eq_ok hfinish
      rw [step_finish hfinish hopened]
      refine ⟨h.roll.finishNode _, ?_, ?_, hsucc.marked, h.marks⟩
      · have hdepth := h.opened
        rw [TreeBuilder.depth, hopened] at hdepth
        show t.roll.opened.tail.length = b.opened.length
        rw [List.length_tail, hdepth, hrest]
        rfl
      · show (t.roll.pending.take o.firstSlot ++ [t.count]).length = b.pending.size
        rw [← Array.length_toList, hpending, List.length_append, List.length_append,
          List.length_take, List.length_take, Array.length_toList, h.pending]
        rfl
    · rw [step_of_isFailed (by rw [hstep]; rfl)]
      exact hsucc

/-- The check compares numbers of open nodes and of pending slots. -/
theorem Keeps.opens_iff (h : t.Keeps) (hpast : t.marked[i]? = some past) (kind : NodeKind) :
    t.Opens i kind ↔
      past.opened.length = t.roll.opened.length ∧ past.pending.length ≤ t.roll.pending.length := by
  obtain ⟨c, hc, hdepth, hpending⟩ := h.mark hpast
  have hget : t.run.marks.getD i default = c := by
    rw [Array.getD_eq_getD_getElem?, hc, Option.getD_some]
  rw [Opens, ← hdepth, ← hpending, h.opened, h.pending]
  rcases t.run.step_startAt_cases kind hget with ⟨hcounts, hstep⟩ | ⟨hcounts, hstep⟩
  · exact iff_of_true (by rw [hstep]; rfl) hcounts
  · exact iff_of_false (by rw [hstep]; exact Bool.noConfusion) hcounts

theorem Keeps.checks (h : t.Keeps) : t.Checks where
  refused {i kind} hrefused := by
    rcases t.run.step_startAt_cases kind (i := i) rfl with ⟨-, hstep⟩ | ⟨-, hstep⟩
    · refine absurd ?_ hrefused
      rw [Opens, hstep]
      rfl
    · exact hstep
  opens_iff hpast kind := h.opens_iff hpast kind
  fresh_iff hpast kind := by
    rw [h.opens_iff hpast kind]
    exact Roll.fresh_iff (h.marked _ (List.mem_of_getElem? hpast)) h.roll

/-! ### Instructions that use fresh checkpoints -/

/-- **The invariant** of instructions that use fresh checkpoints: intact ones are in place. -/
def InOrder (t : BuildTrace) : Prop := ∀ kept, (∀ i ∈ kept, t.Intact i) → t.run.InOrder kept

theorem run_step (t : BuildTrace) (s : BuildStep) : (t.step s).run = (t.run.step s).2 := by
  unfold step
  split
  · rfl
  · cases s <;> rfl

/-- What is intact after an instruction was so before it. -/
theorem Keeps.intact_of_step (h : t.Keeps) (hpast : past ∈ t.marked)
    (hintact : past.Intact (t.step s).roll) : past.Intact t.roll := by
  have hnumbered := h.marked past hpast
  unfold BuildTrace.step at hintact
  split at hintact
  · exact hintact
  · cases s with
    | start | startAt => exact hintact.of_openNode hnumbered
    | mark => exact hintact
    | token | missing => exact hintact.of_addSlot hnumbered
    | finish => exact (hintact.of_finishNode hnumbered).1

/-- No checkpoint is taken but by the instruction for it. -/
theorem marked_step (t : BuildTrace) (hs : s ≠ .mark) : (t.step s).marked = t.marked := by
  unfold step
  split
  · rfl
  · cases s with
    | mark => exact absurd rfl hs
    | start | startAt | token | missing | finish => rfl

/-- A checkpoint that is intact after a node has been finished is spared. -/
theorem Keeps.spares (h : t.Keeps) {b : TreeBuilder} (hfinish : t.run.builder.finishNode = .ok b)
    (hintact : (t.step .finish).Intact i) : t.run.marks[i]?.any t.run.builder.spares := by
  obtain ⟨past, hpast, hintact⟩ := hintact
  rw [marked_step t (s := .finish) nofun] at hpast
  obtain ⟨c, hc, hdepth, hpending⟩ := h.mark hpast
  obtain ⟨o, rest, hopened, -⟩ := TreeBuilder.finishNode_eq_ok hfinish
  rw [step_finish hfinish hopened] at hintact
  obtain ⟨-, hfewer, hbefore⟩ := hintact.of_finishNode (h.marked past (List.mem_of_getElem? hpast))
  have hmore : 0 < t.run.builder.depth := by
    rw [TreeBuilder.depth, hopened]
    exact Nat.succ_pos _
  rw [List.length_tail, h.opened, ← hdepth] at hfewer
  rw [← hpending] at hbefore
  rw [hc, Option.any_some, TreeBuilder.spares, hopened, List.head?_cons, Option.all_some,
    Bool.and_eq_true, decide_eq_true_iff, decide_eq_true_iff]
  exact ⟨by omega, hbefore⟩

/-- **Every instruction keeps the invariant** unless it opens a node at a stale checkpoint. -/
theorem InOrder.step (h : t.InOrder) (hk : t.Keeps) (hs : t.Detects s) : (t.step s).InOrder := by
  intro kept hkept
  by_cases hfailed : (t.run.step s).1.isFailed
  · rw [step_of_isFailed hfailed] at hkept ⊢
    exact h kept hkept
  rw [run_step]
  have hold {i : Nat} (hi : i ∈ kept) (hlisted : (t.step s).marked[i]? = t.marked[i]?) :
      t.Intact i := by
    obtain ⟨past, hpast, hintact⟩ := hkept i hi
    rw [hlisted] at hpast
    exact ⟨past, hpast, hk.intact_of_step (List.mem_of_getElem? hpast) hintact⟩
  cases s with
  | start | token | missing => exact (h kept fun i hi => hold hi rfl).step trivial
  | mark =>
    -- The new checkpoint is in place, and the others were intact before.
    have hsize : t.marked.length = t.run.marks.size := by
      simpa using (congrArg List.length hk.marks).symm
    have hbefore := h (kept.filter (· < t.marked.length)) fun i hi => by
      obtain ⟨hi, hlt⟩ := List.mem_filter.1 hi
      exact hold hi (List.getElem?_append_left (of_decide_eq_true hlt))
    refine (hbefore.step (s := .mark) trivial).subset fun i hi => ?_
    rw [BuildRun.keep, List.mem_append, List.mem_singleton, List.mem_filter, decide_eq_true_iff]
    obtain ⟨past, hpast, -⟩ := hkept i hi
    have hlt := (List.getElem?_eq_some_iff.1 hpast).1
    have hlength : (t.step .mark).marked.length = t.marked.length + 1 := List.length_append
    by_cases hi' : i < t.marked.length
    · exact .inl ⟨hi, hi'⟩
    · exact .inr (by omega)
  | startAt j kind =>
    have hopens : t.Opens j kind := Bool.eq_false_iff.2 hfailed
    obtain ⟨past, hpast, hfresh⟩ := hs hopens
    obtain ⟨c, hc, hdepth, -⟩ := hk.mark hpast
    have hmarked := marked_step t (s := .startAt j kind) nofun
    have hbefore := h (j :: kept) (List.forall_mem_cons.2
      ⟨⟨past, hpast, hfresh.toIntact⟩, fun i hi => hold hi (by rw [hmarked])⟩)
    have hpermits : t.run.Permits (j :: kept) (.startAt j kind) := by
      refine ⟨List.mem_cons_self, ?_⟩
      rw [hc, Option.map_some, hdepth, ((hk.opens_iff hpast kind).1 hopens).1, hk.opened]
    exact (hbefore.step hpermits).subset fun i hi => List.mem_cons_of_mem j hi
  | finish =>
    have hbefore := h kept fun i hi => hold hi (by rw [marked_step t (s := .finish) nofun])
    rcases t.run.step_finish_cases with ⟨b, hfinish, -⟩ | ⟨e, -, hstep⟩
    · refine (hbefore.step (s := .finish) trivial).subset fun i hi => ?_
      exact List.mem_filter.2 ⟨hi, hk.spares hfinish (hkept i hi)⟩
    · rw [hstep] at hfailed
      exact absurd rfl hfailed

theorem InOrder.empty : empty.InOrder := fun kept hkept => by
  refine ⟨.empty, fun i hi => ?_⟩
  obtain ⟨past, hpast, -⟩ := hkept i hi
  cases hpast

theorem InOrder.placed (h : t.InOrder) : t.run.builder.Placed :=
  (h [] fun _ hi => absurd hi List.not_mem_nil).builder

/-- A node can be finished as soon as one is open. -/
theorem InOrder.not_slotsTaken (h : t.InOrder) (s : BuildStep) :
    (t.run.step s).1 ≠ .failed .slotsTaken := by
  intro hreply
  cases s with
  | start | mark | token | missing => cases hreply
  | startAt i kind =>
    rcases t.run.step_startAt_cases kind (i := i) rfl with ⟨-, hstep⟩ | ⟨-, hstep⟩
    · rw [hstep] at hreply
      cases hreply
    · rw [hstep] at hreply
      cases hreply
  | finish =>
    rcases t.run.step_finish_cases with ⟨b, -, hstep⟩ | ⟨e, hfinish, hstep⟩
    · rw [hstep] at hreply
      cases hreply
    · rw [hstep] at hreply
      obtain rfl := BuildReply.failed.inj hreply
      rw [TreeBuilder.finishNode] at hfinish
      split at hfinish
      · cases hfinish
      · rename_i o rest hopened
        split at hfinish
        · rename_i hbeyond
          have ho := h.placed.opened o (hopened ▸ List.mem_cons_self)
          exact Nat.not_le_of_lt hbeyond ho.1
        · cases hfinish

/-! ### Several instructions -/

theorem run_after (t : BuildTrace) (steps : List BuildStep) :
    (t.after steps).run = (t.run.run steps).2 := by
  induction steps generalizing t with
  | nil => rfl
  | cons s rest ih =>
    rw [after, List.foldl_cons, ← after, ih, run_step]
    rfl

theorem Keeps.after (h : t.Keeps) (steps : List BuildStep) : (t.after steps).Keeps := by
  induction steps generalizing t with
  | nil => exact h
  | cons s rest ih => exact ih (h.step s)

theorem InOrder.after (h : t.InOrder) (hk : t.Keeps) {steps : List BuildStep}
    (hs : t.DetectsAll steps) :
    (t.after steps).InOrder ∧ .failed .slotsTaken ∉ (t.run.run steps).1 := by
  induction steps generalizing t with
  | nil => exact ⟨h, List.not_mem_nil⟩
  | cons s rest ih =>
    obtain ⟨hrest, hreplies⟩ := ih (h.step hk hs.1) (hk.step s) hs.2
    rw [run_step] at hreplies
    exact ⟨hrest, List.not_mem_cons_of_ne_of_not_mem (h.not_slotsTaken s).symm hreplies⟩

/-- **What the check of checkpoints achieves.** A fresh checkpoint is never refused, and a stale one
is as long as the nodes that were open when it was taken are still open and the slots that were
pending still pending. If no instruction opens a node at a stale checkpoint, then no open node starts
before the one that it is in, all finished nodes are tiled, and no slot before those of a node is gone
when it is finished. -/
theorem after_checks (steps : List BuildStep) :
    (empty.after steps).run = (BuildRun.empty.run steps).2 ∧ (empty.after steps).Checks ∧
      (empty.DetectsAll steps → (BuildRun.empty.run steps).2.builder.Placed ∧
        .failed .slotsTaken ∉ (BuildRun.empty.run steps).1) := by
  have hrun := run_after empty steps
  refine ⟨hrun, (Keeps.empty.after steps).checks, fun hs => ?_⟩
  obtain ⟨horder, hreplies⟩ := InOrder.empty.after Keeps.empty hs
  have hplaced := horder.placed
  rw [hrun] at hplaced
  exact ⟨hplaced, hreplies⟩

/-- A checkpoint before the first slot of a node stays fresh while that slot is added to. -/
theorem after_checks_wrapping : empty.DetectsAll BuildRun.wrappingSteps ∧
    (empty.after (BuildRun.wrappingSteps.take 5)).Opens 0 .fieldAccess ∧
    (BuildRun.empty.run BuildRun.wrappingSteps).2.builder.Placed ∧
    .failed .slotsTaken ∉ (BuildRun.empty.run BuildRun.wrappingSteps).1 := by
  have hs : empty.DetectsAll BuildRun.wrappingSteps :=
    ⟨trivial, trivial, trivial, trivial, trivial, fun _ => ⟨⟨[0], []⟩, rfl, by decide⟩, trivial,
      trivial, trivial, trivial, trivial, trivial⟩
  obtain ⟨-, -, hplaced⟩ := after_checks BuildRun.wrappingSteps
  obtain ⟨-, hchecks, -⟩ := after_checks (BuildRun.wrappingSteps.take 5)
  have hfresh : (⟨[0], []⟩ : Roll).Fresh (empty.after (BuildRun.wrappingSteps.take 5)).roll := by
    decide
  exact ⟨hs, ((hchecks.fresh_iff (i := 0) rfl .fieldAccess).1 hfresh).1, hplaced hs⟩

/-- Instructions that open nodes at the checkpoints of a block that is finished by then. -/
def staleSteps : List BuildStep :=
  [.start .modulePart, .start .blockStatement, .mark, .token ⟨.identifier, "a", [], []⟩, .mark,
    .token ⟨.identifier, "b", [], []⟩, .finish, .token ⟨.identifier, "c", [], []⟩,
    .start .blockStatement, .startAt 1 .invalid, .finish, .startAt 0 .invalid, .finish, .finish]

/-- **A stale checkpoint may be taken for a fresh one.** Two nodes are open, as when it was taken,
but the inner one is another. The new node takes a slot of the module and has a span that its slots
do not cover; a second one takes the slots before those of the block, which then cannot be
finished. -/
theorem not_fresh_staleSteps :
    let t := empty.after (staleSteps.take 9)
    t.Opens 1 .invalid ∧ ¬ t.Fresh 1 ∧
      (¬ (t.step (.startAt 1 .invalid)).run.builder.opened.Pairwise fun inner outer =>
        outer.firstSlot ≤ inner.firstSlot) ∧
      (∃ n ∈ Node.preorderOf (empty.after (staleSteps.take 11)).run.builder.pending.toList,
        ¬ n.Tiled) ∧
      .failed .slotsTaken ∈ (BuildRun.empty.run staleSteps).1 := by
  intro t
  have hpast : t.marked[1]? = some ⟨[1, 0], [3]⟩ := by decide
  refine ⟨rfl, ?_, by decide, ?_, by decide⟩
  · rintro ⟨past, hmarked, hfresh⟩
    obtain rfl := Option.some.inj (hpast.symm.trans hmarked)
    revert hfresh
    decide
  · let last : Token := ⟨2, 2, ⟨.identifier, "c", [], []⟩⟩
    refine ⟨⟨1, .invalid, ⟨1, 3⟩, some (last, last), [.token last]⟩, .tail _ (.head _), fun h => ?_⟩
    have htakes : last.fullSpan = ⟨1, 3⟩ := tiles_singleton.1 h
    exact absurd htakes (by decide)

end BuildTrace

end Xref
