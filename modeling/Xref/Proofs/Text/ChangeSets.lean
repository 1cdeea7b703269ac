import Xref.Proofs.Text.Splices

/-!
# Change sets as splices

A change set whose edits lie between boundaries of a text finds a conflict exactly if two of its
edits overlap, neighbours or not, and otherwise makes the splice of its edits, whatever the order in
which they were added (`ChangeSet.splices_of_boundaries`). Only insertions at one place are left out
here: their order does matter. On the way no edit is ever carried out within a character: what
stands before the edits that are still to come is what stood there at the start
(`fromBack?_append`).
-/

namespace Xref

open Text

variable {e f : Edit} {as bs cs : List Char}

/-! ## Edits that are clear of each other -/

/-- Of two edits, in whichever order their spans stand, the first ends before the second starts, or
where it starts. -/
def Edit.Clear (e f : Edit) : Prop :=
  ((e.span.compare f.span).isLE → e.span.stop ≤ f.span.start) ∧
    ((f.span.compare e.span).isLE → f.span.stop ≤ e.span.start)

theorem Edit.clear_iff (he : e.IsForward) (hf : f.IsForward) : e.Clear f ↔ e.Apart f := by
  constructor
  · intro h
    have htotal : (e.span.compare f.span).isLE || (f.span.compare e.span).isLE :=
      compare_isLE_total e.span f.span
    rcases Bool.or_eq_true_iff.1 htotal with hle | hle
    · exact (Span.overlaps_eq_false_iff hf hle).2 (h.1 hle)
    · exact Edit.Apart.symm ((Span.overlaps_eq_false_iff he hle).2 (h.2 hle))
  · exact fun h => ⟨fun hle => (Span.overlaps_eq_false_iff hf hle).1 h,
      fun hle => (Span.overlaps_eq_false_iff he hle).1 h.symm⟩

/-! ## What stands before the edits -/

/-- An edit leaves what stands before it. -/
theorem Edit.perform?_append (hstart : byteLength as ≤ e.span.start)
    (h : e.perform? (as ++ bs) = some cs) : ∃ ds, cs = as ++ ds := by
  unfold Edit.perform? splice? at h
  dsimp only at h
  split at h
  · obtain ⟨parts, hparts, hinner⟩ := Option.bind_eq_some_iff.1 h
    obtain ⟨inner, -, rfl⟩ := Option.map_eq_some_iff.1 hinner
    obtain ⟨before, after⟩ := parts
    obtain ⟨happ, hlength⟩ := cut?_eq_some_iff.1 hparts
    have hle : byteLength as ≤ min e.span.start (byteLength (as ++ bs)) := by
      rw [byteLength_append]
      omega
    obtain ⟨mid, rest, hbs, hmid⟩ := IsBoundary.of_append ⟨before, after, happ, hlength⟩ hle
    have hbefore : cut? (as ++ bs) (byteLength (as ++ mid)) = some (as ++ mid, rest) :=
      cut?_eq_some_iff.2 ⟨by rw [hbs, List.append_assoc], rfl⟩
    rw [byteLength_append, ← hmid, hparts] at hbefore
    obtain ⟨rfl, -⟩ := Prod.mk.inj (Option.some.inj hbefore)
    exact ⟨mid ++ e.newText.toList ++ inner.2, by simp only [List.append_assoc]⟩
  · cases h

/-- Edits leave what stands before all of them. -/
theorem fromBack?_append {es : List Edit} (hstart : ∀ e ∈ es, byteLength as ≤ e.span.start)
    (h : fromBack? es (as ++ bs) = some cs) : ∃ ds, cs = as ++ ds := by
  induction es generalizing cs with
  | nil => exact ⟨bs, (Option.some.inj h).symm⟩
  | cons e es ih =>
    obtain ⟨hfirst, hrest⟩ := List.forall_mem_cons.1 hstart
    obtain ⟨behind, hbehind, hcs⟩ := Option.bind_eq_some_iff.1 h
    obtain ⟨ds, rfl⟩ := ih hrest hbehind
    exact e.perform?_append hfirst hcs

namespace ChangeSet

variable {s : ChangeSet} {text : String}

/-- Whether a change set carries out an edit in a text that has come from the one it was given by
all edits before it in turn. -/
def CarriesOut (s : ChangeSet) (text : String) (e : Edit) (cs : List Char) : Prop :=
  ∃ before after, s.backward = before ++ e :: after ∧
    before.foldlM (fun cs (e : Edit) => e.perform? cs) text.toList = some cs

theorem carriesOut_iff : s.CarriesOut text e cs ↔
    ∃ before after, s.placed = before ++ e :: after ∧ fromBack? after text.toList = some cs := by
  constructor
  · rintro ⟨before, after, happ, hcs⟩
    refine ⟨after.reverse, before.reverse, ?_, ?_⟩
    · rw [placed, happ, List.reverse_append, List.reverse_cons, List.append_assoc]
      rfl
    · rwa [← foldlM_perform?_reverse, List.reverse_reverse]
  · rintro ⟨before, after, happ, hcs⟩
    refine ⟨after.reverse, before.reverse, ?_, by rwa [foldlM_perform?_reverse]⟩
    rw [← List.reverse_reverse s.backward, ← placed, happ, List.reverse_append, List.reverse_cons,
      List.append_assoc]
    rfl

/-- A change set finds every overlap, and otherwise makes the splice of its edits. -/
structure Splices (s : ChangeSet) (text : String) : Prop where
  /-- No conflict is found exactly if any two edits are clear of each other. -/
  clear : s.conflict? = none ↔ s.edits.Pairwise Edit.Clear
  /-- A conflict that is found is one between two of the edits, of which the first ends after the
  second starts. -/
  conflict : ∀ c, s.conflict? = some c →
    (∃ others, s.edits.Perm (c.first :: c.second :: others)) ∧
      (c.first.span.compare c.second.span).isLE ∧ c.second.span.start < c.first.span.stop
  /-- The same edits in any order make the splice. -/
  result : s.conflict? = none → ∀ s' : ChangeSet, s'.edits.Perm s.edits →
    s'.performChecked? text = .ok (some (splice s.edits text))
  /-- When its turn comes an edit does not start or end inside a character. -/
  turns : s.conflict? = none → ∀ e cs, s.CarriesOut text e cs →
    IsBoundary cs e.span.start ∧ IsBoundary cs e.span.stop

theorem Conflict.exists_perm {c : EditConflict} (h : s.Conflict c) :
    ∃ others, s.edits.Perm (c.first :: c.second :: others) := by
  obtain ⟨before, after, happ, -⟩ := h.neighbours
  refine ⟨before ++ after, s.forward_perm.symm.trans ?_⟩
  rw [happ]
  exact List.perm_middle.trans (List.perm_middle.cons _)

theorem Conflict.isLE {c : EditConflict} (h : s.Conflict c) :
    (c.first.span.compare c.second.span).isLE := by
  obtain ⟨before, after, happ, -⟩ := h.neighbours
  have hsorted := s.pairwise_forward
  rw [happ] at hsorted
  exact (List.pairwise_cons.1 (List.pairwise_append.1 hsorted).2.1).1 _ List.mem_cons_self

section
variable (hforward : ∀ e ∈ s.edits, e.IsForward)

include hforward

theorem pairwise_clear_iff : s.edits.Pairwise Edit.Clear ↔ s.edits.Pairwise Edit.Apart :=
  List.Pairwise.iff_of_mem fun he hf => Edit.clear_iff (hforward _ he) (hforward _ hf)

/-- The edits that are carried out before an edit all start behind it. -/
theorem CarriesOut.exists_behind {cs : List Char} (hapart : s.edits.Pairwise Edit.Apart)
    (h : s.CarriesOut text e cs) : e ∈ s.edits ∧ ∃ behind,
      fromBack? behind text.toList = some cs ∧ ∀ f ∈ behind, e.span.stop ≤ f.span.start := by
  obtain ⟨before, behind, happ, hcs⟩ := carriesOut_iff.1 h
  have hsorted := separate_placed hforward hapart
  have hmem : e ∈ s.placed := by
    rw [happ]
    exact List.mem_append_right _ List.mem_cons_self
  rw [happ] at hsorted
  exact ⟨s.placed_perm.mem_iff.1 hmem, behind, hcs,
    (List.pairwise_cons.1 (List.pairwise_append.1 hsorted).2.1).1⟩

end

/-- **A change set finds every overlap and otherwise splices,** in whatever order its edits were
added. -/
theorem splices_of_boundaries (hforward : ∀ e ∈ s.edits, e.IsForward)
    (hbounds : ∀ e ∈ s.edits,
      IsBoundary text.toList e.span.start ∧ IsBoundary text.toList e.span.stop)
    (hone : s.edits.Pairwise Edit.InsertElsewhere) : s.Splices text := by
  have hnone := conflict?_eq_none_iff hforward
  refine ⟨hnone.trans (pairwise_clear_iff hforward).symm, fun c hc => ?_, fun h s' hperm => ?_,
    fun h e cs hcs => ?_⟩
  · have hconflict := conflict_of_conflict? hforward hc
    have hover := hconflict.overlaps
    rw [Span.overlaps, decide_eq_true_iff] at hover
    exact ⟨hconflict.exists_perm, hconflict.isLE, hover.2⟩
  · have hapart := (hperm.symm.pairwise_iff Edit.Apart.symm).1 (hnone.1 h)
    have hforward' : ∀ e ∈ s'.edits, e.IsForward := fun e he => hforward e (hperm.mem_iff.1 he)
    have hreverse := (List.reverse_perm s'.edits).trans hperm
    have hsame : splice s'.edits.reverse text = splice s.edits text :=
      splice_perm hreverse ((hreverse.pairwise_iff Edit.Apart.symm).2 (hnone.1 h))
        ((hreverse.pairwise_iff Edit.InsertElsewhere.symm).2 hone) text
    rw [performChecked?, (conflict?_eq_none_iff hforward').2 hapart, ← hsame]
    dsimp only
    rw [perform?_eq_splice hforward' hapart fun e he => hbounds e (hperm.mem_iff.1 he)]
  · -- Up to the end of the edit the text is as it was.
    obtain ⟨he, behind, hbehind, hstart⟩ := hcs.exists_behind hforward (hnone.1 h)
    obtain ⟨before, after, happ, hlength⟩ := (hbounds e he).2
    rw [happ] at hbehind
    obtain ⟨rest, rfl⟩ := fromBack?_append (fun f hf => hlength ▸ hstart f hf) hbehind
    have hfirst := (hbounds e he).1
    rw [happ] at hfirst
    exact ⟨(hfirst.of_le (hlength ▸ hforward e he)).append rest, before, rest, rfl, hlength⟩

/-- Edits of a text with a character of two bytes: a replacement and an insertion where it starts,
another replacement that touches it, and an edit that does nothing between them. -/
def touchingSet : ChangeSet :=
  ⟨[⟨⟨1, 3⟩, "e"⟩, ⟨⟨3, 4⟩, "é"⟩, ⟨⟨1, 1⟩, "x"⟩, ⟨⟨3, 3⟩, ""⟩]⟩

theorem splices_of_boundaries_touchingSet :
    (∀ e ∈ touchingSet.edits, e.IsForward) ∧
      (∀ e ∈ touchingSet.edits,
        IsBoundary "aéb".toList e.span.start ∧ IsBoundary "aéb".toList e.span.stop) ∧
      touchingSet.edits.Pairwise Edit.InsertElsewhere ∧ touchingSet.Splices "aéb" :=
  have hforward : ∀ e ∈ touchingSet.edits, e.IsForward := by decide
  have hbounds : ∀ e ∈ touchingSet.edits,
      IsBoundary "aéb".toList e.span.start ∧ IsBoundary "aéb".toList e.span.stop := by decide
  have hone : touchingSet.edits.Pairwise Edit.InsertElsewhere := by decide
  ⟨hforward, hbounds, hone, splices_of_boundaries hforward hbounds hone⟩

example : splice touchingSet.edits "aéb" = "axeé" := by decide

end ChangeSet

end Xref
