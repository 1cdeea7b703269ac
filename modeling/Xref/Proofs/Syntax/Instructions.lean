import Xref.Proofs.Syntax.Checkpoints
import Xref.Proofs.Syntax.Locating

/-!
# Building while reading

A phrase can be built while its lexemes are read, from left to right: where only what follows tells
which node a slot belongs to, the node is opened at a checkpoint taken before the slot
(`Phrase.instructions`). No instruction fails, they are orderly, and the tree is that of the phrase
(`Phrase.instructions_build`).

Orderly instructions make trees in which widths and spans agree, and an offset leads to exactly the
token that holds the byte there (`BuildRun.finish_tiled`).
-/

namespace Xref

/-- Whether a node of this kind is opened when its first slot has been filled already. -/
def NodeKind.opensLate : NodeKind → Bool
  | assignmentStatement | expressionStatement | binaryExpression | functionCall | methodCall
  | fieldAccess => true
  | _ => false

mutual

/-- The instructions that build a phrase, where the next checkpoint has the number `m`, and the
number of the checkpoint after them. -/
def Phrase.steps : Phrase → Nat → List BuildStep × Nat
  | ⟨kind, []⟩, m => ([.start kind, .finish], m)
  | ⟨kind, first :: rest⟩, m =>
    if kind.opensLate then
      let left := Part.steps first (m + 1)
      let others := Part.stepsOf rest left.2
      (.mark :: (left.1 ++ .startAt m kind :: (others.1 ++ [.finish])), others.2)
    else
      let left := Part.steps first m
      let others := Part.stepsOf rest left.2
      (.start kind :: (left.1 ++ (others.1 ++ [.finish])), others.2)

/-- The instructions that fill a slot. -/
def Part.steps : Part → Nat → List BuildStep × Nat
  | .node q, m => q.steps m
  | .token l, m => ([.token l], m)
  | .missing, m => ([.missing], m)

/-- The instructions that fill several slots. -/
def Part.stepsOf : List Part → Nat → List BuildStep × Nat
  | [], m => ([], m)
  | s :: rest, m =>
    let first := Part.steps s m
    let others := Part.stepsOf rest first.2
    (first.1 ++ others.1, others.2)

end

/-- The instructions that build a phrase. -/
def Phrase.instructions (p : Phrase) : List BuildStep := (p.steps 0).1

/-! ## What has been reached -/

namespace BuildRun

/-- Whether orderly instructions, none of which fails, lead from one state to another. -/
structure Reaches (r : BuildRun) (kept : List Nat) (steps : List BuildStep) (r' : BuildRun)
    (kept' : List Nat) : Prop where
  run : (r.run steps).2 = r'
  keep : r.keepAll kept steps = kept'
  orderly : r.Orderly kept steps
  succeeds : ∀ e, .failed e ∉ (r.run steps).1

variable {r r' r'' : BuildRun} {kept kept' kept'' : List Nat} {s : BuildStep}
  {steps steps' : List BuildStep}

theorem Reaches.nil : r.Reaches kept [] r kept := ⟨rfl, rfl, trivial, fun _ => nofun⟩

theorem Reaches.cons (hpermits : r.Permits kept s) (hreply : ∀ e, (r.step s).1 ≠ .failed e)
    (h : (r.step s).2.Reaches (r.keep kept s) steps r' kept') :
    r.Reaches kept (s :: steps) r' kept' where
  run := h.run
  keep := h.keep
  orderly := ⟨hpermits, h.orderly⟩
  succeeds e he := (List.mem_cons.1 he).elim (fun heq => hreply e heq.symm) (h.succeeds e)

theorem Reaches.one (hpermits : r.Permits kept s) (hreply : ∀ e, (r.step s).1 ≠ .failed e) :
    r.Reaches kept [s] (r.step s).2 (r.keep kept s) := .cons hpermits hreply .nil

theorem Reaches.append (h : r.Reaches kept steps r' kept')
    (h' : r'.Reaches kept' steps' r'' kept'') : r.Reaches kept (steps ++ steps') r'' kept'' := by
  induction steps generalizing r kept with
  | nil =>
    obtain rfl : r = r' := h.run
    obtain rfl : kept = kept' := h.keep
    exact h'
  | cons s rest ih =>
    refine .cons h.orderly.1 (fun e he => h.succeeds e (List.mem_cons.2 (.inl he.symm))) (ih ?_)
    exact ⟨h.run, h.keep, h.orderly.2, fun e he => h.succeeds e (List.mem_cons_of_mem _ he)⟩

theorem InOrder.of_reaches (h : r.InOrder kept) (hreaches : r.Reaches kept steps r' kept') :
    r'.InOrder kept' := by
  rw [← hreaches.run, ← hreaches.keep]
  exact h.run hreaches.orderly

end BuildRun

/-! ## Filled slots -/

namespace TreeBuilder

/-- A builder to which several slots have been added. -/
def filled (b : TreeBuilder) (qs : List Part) : TreeBuilder :=
  b.grown (Phrase.lexemesOf qs) (placedParts qs b.place).2.node (placedParts qs b.place).1

variable (b : TreeBuilder)

theorem filled_nil : b.filled [] = b := by
  simp [filled, grown, tokensFrom, Phrase.lexemesOf, placedParts, place]

theorem place_filled (qs : List Part) : (b.filled qs).place = (placedParts qs b.place).2 := by
  have hplace := place_placedParts qs b.place
  rw [filled, place_grown, ← hplace.1, ← hplace.2]

theorem filled_append (qs rs : List Part) : b.filled (qs ++ rs) = (b.filled qs).filled rs := by
  rw [filled, Phrase.lexemesOf_append, placedParts_append,
    ← grown_grown _ _ _ (placedParts qs b.place).2.node]
  show (b.filled qs).grown _ _ _ = _
  rw [filled.eq_1 (b.filled qs), place_filled]

theorem finishNode_filled (kind : NodeKind) (qs : List Part) :
    ((b.start kind).filled qs).finishNode = .ok (b.filled [.node ⟨kind, qs⟩]) := by
  have hplace := place_placedParts qs b.place
  have hlexemes : Phrase.lexemesOf [.node ⟨kind, qs⟩] = Phrase.lexemesOf qs :=
    List.append_nil _
  rw [filled, finishNode_grown, filled, hlexemes]
  show Except.ok (b.grown _ ((placedParts qs b.place).2.node + 1) [.node ⟨_, kind, ⟨b.offset, _⟩, _, _⟩])
    = Except.ok (b.grown _ ((placedParts qs b.place).2.node + 1)
      [.node ⟨_, kind, ⟨b.offset, (placedParts qs b.place).2.offset⟩, _, _⟩])
  rw [hplace.2]
  rfl

theorem filled_token (l : Lexeme) : b.filled [.token l] = b.token l := by
  simp [filled, token, grown, tokensFrom, place, String.join, Phrase.lexemesOf, placedParts,
    Place.behindToken]

theorem filled_missing : b.filled [.missing] = b.missing := by
  simp [filled, missing, grown, tokensFrom, Phrase.lexemesOf, placedParts, place]

end TreeBuilder

/-! ## Instructions of phrases -/

namespace BuildRun

/-- Whether checkpoints were added behind the ones that there were. -/
def Grows (marks marks' : Array Checkpoint) : Prop := ∀ i < marks.size, marks'[i]? = marks[i]?

theorem Grows.refl (marks : Array Checkpoint) : Grows marks marks := fun _ _ => rfl

theorem Grows.push (marks : Array Checkpoint) (c : Checkpoint) : Grows marks (marks.push c) :=
  fun i hi => by rw [Array.getElem?_push, if_neg (Nat.ne_of_lt hi)]

theorem Grows.trans {marks marks' marks'' : Array Checkpoint} (h : Grows marks marks')
    (h' : Grows marks' marks'') : Grows marks marks'' := by
  intro i hi
  have hlt : i < marks'.size := by
    have hget := h i hi
    rw [Array.getElem?_eq_getElem hi] at hget
    exact (Array.getElem?_eq_some_iff.1 hget).1
  exact (h' i hlt).trans (h i hi)

variable {r : BuildRun} {kept : List Nat}

/-- Whether instructions fill several slots and leave the checkpoints in place there. -/
def Builds (r : BuildRun) (kept : List Nat) (found : List BuildStep × Nat) (qs : List Part) : Prop :=
  ∃ marks kept', r.Reaches kept found.1 ⟨r.builder.filled qs, marks⟩ kept' ∧ kept ⊆ kept' ∧
    marks.size = found.2 ∧ Grows r.marks marks

theorem builds_nil : r.Builds kept ([], r.marks.size) [] := by
  refine ⟨r.marks, kept, ?_, List.Subset.refl _, rfl, .refl _⟩
  rw [TreeBuilder.filled_nil]
  exact .nil

theorem builds_token (l : Lexeme) : r.Builds kept ([.token l], r.marks.size) [.token l] := by
  refine ⟨r.marks, kept, ?_, List.Subset.refl _, rfl, .refl _⟩
  rw [TreeBuilder.filled_token]
  exact .one trivial nofun

theorem builds_missing : r.Builds kept ([.missing], r.marks.size) [.missing] := by
  refine ⟨r.marks, kept, ?_, List.Subset.refl _, rfl, .refl _⟩
  rw [TreeBuilder.filled_missing]
  exact .one trivial nofun

/-- One slot after the other. -/
theorem Builds.cons (h : r.InOrder kept) {s : Part} {rest : List Part}
    {first : List BuildStep × Nat} {others : Nat → List BuildStep × Nat}
    (hfirst : r.Builds kept first [s])
    (hothers : ∀ (r' : BuildRun) (kept' : List Nat), r'.InOrder kept' →
      r'.Builds kept' (others r'.marks.size) rest) :
    r.Builds kept (first.1 ++ (others first.2).1, (others first.2).2) (s :: rest) := by
  obtain ⟨marks, kept', hreaches, hkept, hsize, hmarks⟩ := hfirst
  obtain ⟨marks', kept'', hreaches', hkept', hsize', hmarks'⟩ :=
    hothers ⟨_, marks⟩ kept' (h.of_reaches hreaches)
  rw [hsize] at hreaches' hsize'
  refine ⟨marks', kept'', ?_, List.Subset.trans hkept hkept', hsize', hmarks.trans hmarks'⟩
  have hslots : r.builder.filled (s :: rest) = _ := r.builder.filled_append [s] rest
  rw [hslots]
  exact hreaches.append hreaches'

/-- A node that was opened here, or at the checkpoint taken here, is finished. -/
theorem Builds.finish (h : r.InOrder kept) {kind : NodeKind} {qs : List Part}
    {steps : List BuildStep} {marks : Array Checkpoint} {kept' : List Nat}
    (hreaches : r.Reaches kept steps ⟨(r.builder.start kind).filled qs, marks⟩ kept')
    (hkept : kept ⊆ kept') (hmarks : Grows r.marks marks) :
    r.Builds kept (steps ++ [.finish], marks.size) [.node ⟨kind, qs⟩] := by
  have hfinish := r.builder.finishNode_filled kind qs
  have hstep : BuildRun.step ⟨(r.builder.start kind).filled qs, marks⟩ .finish =
      (.node ((r.builder.start kind).filled qs).nodeCount,
        ⟨r.builder.filled [.node ⟨kind, qs⟩], marks⟩) := by
    simp only [step, hfinish]
  have hone : Reaches ⟨(r.builder.start kind).filled qs, marks⟩ kept' [.finish] _ _ :=
    .one trivial (by simp [hstep])
  rw [hstep] at hone
  refine ⟨marks, _, hreaches.append hone, fun i hi => ?_, rfl, hmarks⟩
  obtain ⟨c, hget, hc⟩ := h.marks i hi
  obtain ⟨hlt, -⟩ := Array.getElem?_eq_some_iff.1 hget
  rw [keep, List.mem_filter, hmarks i hlt, hget, Option.any_some]
  refine ⟨hkept hi, ?_⟩
  have hdepth : c.depth < r.builder.depth + 1 := Nat.lt_succ_of_le hc.depth
  show (decide _ && decide _) = true
  rw [Bool.and_eq_true, decide_eq_true_iff, decide_eq_true_iff]
  exact ⟨hdepth, hc.ends.1⟩

/-- A node that is opened before its slots. -/
theorem Builds.start (h : r.InOrder kept) {kind : NodeKind} {found : List BuildStep × Nat}
    {qs : List Part} (hfound : Builds ⟨r.builder.start kind, r.marks⟩ kept found qs) :
    r.Builds kept (.start kind :: (found.1 ++ [.finish]), found.2) [.node ⟨kind, qs⟩] := by
  obtain ⟨marks, kept', hreaches, hkept, hsize, hmarks⟩ := hfound
  have hopen : r.Reaches kept (.start kind :: found.1) ⟨(r.builder.start kind).filled qs, marks⟩
      kept' := .cons trivial nofun hreaches
  rw [← hsize]
  exact .finish h hopen hkept hmarks

/-- A node that is opened behind its first slot, at the checkpoint before it. -/
theorem Builds.startAt (h : r.InOrder kept) {kind : NodeKind} {s : Part} {rest : List Part}
    {first : List BuildStep × Nat} {others : Nat → List BuildStep × Nat}
    (hfirst : Builds ⟨r.builder, r.marks.push r.builder.checkpoint⟩ (kept ++ [r.marks.size]) first
      [s])
    (hothers : ∀ (r' : BuildRun) (kept' : List Nat), r'.InOrder kept' →
      r'.Builds kept' (others r'.marks.size) rest) :
    r.Builds kept
      (.mark :: (first.1 ++ .startAt r.marks.size kind :: ((others first.2).1 ++ [.finish])),
        (others first.2).2) [.node ⟨kind, s :: rest⟩] := by
  obtain ⟨marks, kept', hreaches, hkept, hsize, hmarks⟩ := hfirst
  have hmarked : InOrder ⟨r.builder, r.marks.push r.builder.checkpoint⟩ (kept ++ [r.marks.size]) :=
    h.step (s := .mark) trivial
  have hin := hmarked.of_reaches hreaches
  have hmem : r.marks.size ∈ kept' := hkept (List.mem_append_right _ (List.mem_singleton_self _))
  -- The checkpoint is still what it was, and in place.
  have hat : marks[r.marks.size]? = some r.builder.checkpoint :=
    (hmarks _ (by simp)).trans Array.getElem?_push_size
  obtain ⟨c, hget, hc⟩ := hin.marks _ hmem
  obtain rfl := Option.some.inj (hat.symm.trans hget)
  have hpermits : Permits ⟨r.builder.filled [s], marks⟩ kept' (.startAt r.marks.size kind) :=
    ⟨hmem, congrArg (Option.map Checkpoint.depth) hat⟩
  have hstep : BuildRun.step ⟨r.builder.filled [s], marks⟩ (.startAt r.marks.size kind) =
      (.depth (r.builder.depth + 1), ⟨(r.builder.start kind).filled [s], marks⟩) :=
    step_startAt hat hc rfl
  have hopened := hin.step hpermits
  rw [hstep] at hopened
  obtain ⟨marks', kept'', hreaches', hkept', hsize', hmarks'⟩ := hothers _ _ hopened
  rw [hsize] at hreaches' hsize'
  rw [← TreeBuilder.filled_append] at hreaches'
  have hstart : Reaches ⟨r.builder.filled [s], marks⟩ kept'
      (.startAt r.marks.size kind :: (others first.2).1)
      ⟨(r.builder.start kind).filled (s :: rest), marks'⟩ kept'' :=
    .cons hpermits (by simp [hstep]) (by rw [hstep]; exact hreaches')
  have hall : r.Reaches kept
      (.mark :: (first.1 ++ .startAt r.marks.size kind :: (others first.2).1))
      ⟨(r.builder.start kind).filled (s :: rest), marks'⟩ kept'' :=
    .cons trivial nofun (hreaches.append hstart)
  have hfinish := Builds.finish h hall
    (fun i hi => hkept' (hkept (List.mem_append_left _ hi)))
    ((Grows.push _ _).trans (hmarks.trans hmarks'))
  rw [hsize'] at hfinish
  simpa only [List.cons_append, List.append_assoc] using hfinish

end BuildRun

mutual

/-- **The instructions of a phrase build it,** and none of them fails. -/
theorem Phrase.builds_steps : ∀ (q : Phrase) (r : BuildRun) (kept : List Nat), r.InOrder kept →
    r.Builds kept (q.steps r.marks.size) [.node q]
  | ⟨kind, []⟩, r, kept, h => BuildRun.Builds.start h BuildRun.builds_nil
  | ⟨kind, first :: rest⟩, r, kept, h => by
    have hrest := Part.builds_stepsOf rest
    rw [Phrase.steps]
    split
    · have hmarked := h.step (s := .mark) trivial
      have hfirst := Part.builds_steps first _ _ hmarked
      rw [BuildRun.step, BuildRun.keep, Array.size_push] at hfirst
      exact .startAt h hfirst hrest
    · have hopened := h.step (s := .start kind) trivial
      have hslots := BuildRun.Builds.cons hopened (Part.builds_steps first _ _ hopened) hrest
      have hfinish := BuildRun.Builds.start h hslots
      rw [List.append_assoc] at hfinish
      exact hfinish

theorem Part.builds_steps : ∀ (s : Part) (r : BuildRun) (kept : List Nat), r.InOrder kept →
    r.Builds kept (Part.steps s r.marks.size) [s]
  | .node q, r, kept, h => Phrase.builds_steps q r kept h
  | .token l, _, _, _ => BuildRun.builds_token l
  | .missing, _, _, _ => BuildRun.builds_missing

theorem Part.builds_stepsOf : ∀ (qs : List Part) (r : BuildRun) (kept : List Nat),
    r.InOrder kept → r.Builds kept (Part.stepsOf qs r.marks.size) qs
  | [], _, _, _ => BuildRun.builds_nil
  | s :: rest, r, kept, h =>
    BuildRun.Builds.cons h (Part.builds_steps s r kept h) (Part.builds_stepsOf rest)

end

theorem Phrase.instructions_build (p : Phrase) :
    BuildRun.empty.Orderly [] p.instructions ∧
    (∀ e, .failed e ∉ (BuildRun.empty.run p.instructions).1) ∧
    (BuildRun.empty.run p.instructions).2.builder.finish = p.toTree := by
  obtain ⟨marks, kept, hreaches, -⟩ := p.builds_steps .empty [] .empty
  refine ⟨hreaches.orderly, hreaches.succeeds, ?_⟩
  have hadd := TreeBuilder.addPhrase_eq p .empty
  have hlexemes : lexemesOf [.node p] = p.lexemes := List.append_nil _
  have hrun : (BuildRun.empty.run p.instructions).2 = ⟨.filled .empty [.node p], marks⟩ :=
    hreaches.run
  rw [hrun, toTree, hadd, TreeBuilder.filled, hlexemes]
  rfl

/-! ## Orderly trees -/

namespace BuildRun

/-- **Widths and spans agree in the trees of orderly instructions,** which those of source texts are:
the slots of a node take its bytes one behind the other, tokens take those of the text, and an offset
leads to exactly the token that holds the byte there. -/
theorem finish_tiled :
    (∀ source, empty.Orderly [] (Phrase.ofSource source).instructions ∧
      (empty.run (Phrase.ofSource source).instructions).2.builder.finish = parse source) ∧
    ∀ (steps : List BuildStep) (tree : Tree), empty.Orderly [] steps →
      (empty.run steps).2.builder.finish = .ok tree →
      (∀ n ∈ tree.root.preorder, n.Tiled ∧ ∀ first last, n.tokens.head? = some first →
        n.tokens.getLast? = some last →
        n.fullSpan = ⟨first.fullSpan.start, last.fullSpan.stop⟩) ∧
      Tiles 0 (tree.tokens.toList.map Slot.token) tree.length ∧
      ∀ offset,
        (∀ path, tree.locate offset = .ok path ↔
          tree.root.Leads path.ancestors path.token ∧ path.token.Covers offset) ∧
        (∀ t ∈ tree.tokens.toList, t.Covers offset →
          ∃ path, tree.locate offset = .ok path ∧ path.token = t) ∧
        ((∀ t ∈ tree.tokens.toList, ¬ t.Covers offset) →
          tree.locate offset = .error ⟨offset, tree.length⟩) := by
  refine ⟨fun source => ?_, fun steps tree horderly hfinish => ?_⟩
  · obtain ⟨horderly, -, hfinish⟩ := (Phrase.ofSource source).instructions_build
    exact ⟨horderly, hfinish⟩
  · have htiled := horderly.tiled hfinish
    have hholds := holds_run (r := empty) TreeBuilder.Holds.empty steps
    obtain ⟨-, -, htokens, -⟩ := hholds.finish hfinish
    rw [← htokens]
    refine ⟨fun n hn => ⟨htiled.nodes n hn, fun first last hfirst hlast => ?_⟩, htiled.tokens,
      fun offset => ⟨fun path => htiled.locate_eq_ok_iff, fun t ht hcovers => ?_, fun hcovers => ?_⟩⟩
    · exact Node.fullSpan_of_tiled (fun m hm => htiled.nodes m (Node.preorder_trans hn hm)) hfirst
        hlast
    · exact htiled.exists_locate ht hcovers
    · exact htiled.locate_eq_error hcovers

/-- Instructions that open a node at the checkpoint before its first slot. -/
def wrappingSteps : List BuildStep :=
  [.start .modulePart, .mark, .start .simpleNameReference, .token ⟨.identifier, "a", [], []⟩,
    .finish, .startAt 0 .fieldAccess, .token ⟨.punctuation, ".", [⟨.whitespace, " "⟩], []⟩, .missing,
    .finish, .token ⟨.endOfFile, "", [], []⟩, .finish]

theorem finish_tiled_wrapping : ∃ tree, (empty.run wrappingSteps).2.builder.finish = .ok tree ∧
    (∃ path, tree.locate 1 = .ok path ∧ path.token.text = ".") ∧
    tree.locate 3 = .error ⟨3, 3⟩ := by
  obtain ⟨tree, htree⟩ : ∃ tree, (empty.run wrappingSteps).2.builder.finish = .ok tree := ⟨_, rfl⟩
  obtain ⟨-, -, hlocate⟩ := finish_tiled.2 wrappingSteps tree (by decide) htree
  have htokens : tree.tokens.toList = [⟨0, 0, ⟨.identifier, "a", [], []⟩⟩,
      ⟨1, 1, ⟨.punctuation, ".", [⟨.whitespace, " "⟩], []⟩⟩,
      ⟨2, 3, ⟨.endOfFile, "", [], []⟩⟩] ∧ tree.length = 3 := by
    cases htree
    exact ⟨rfl, rfl⟩
  rw [htokens.1, htokens.2] at hlocate
  have hstop : ∀ t ∈ tree.tokens.toList, t.fullSpan.stop ≤ 3 := by
    rw [htokens.1]
    decide
  rw [htokens.1] at hstop
  refine ⟨tree, htree, ?_, ?_⟩
  · obtain ⟨path, hpath, htoken⟩ := (hlocate 1).2.1 _ (List.mem_cons_of_mem _ List.mem_cons_self)
      ⟨by decide, by decide, nofun⟩
    exact ⟨path, hpath, htoken ▸ rfl⟩
  · exact (hlocate 3).2.2 fun t ht hcovers => Nat.not_le_of_lt hcovers.2.1 (hstop t ht)

end BuildRun

end Xref
