import Xref.Proofs.Navigation.Orders
import Xref.Text.ChangeSet

/-!
# Replacements in a text

Edits of a text that do not overlap can all be carried out at once: the text falls into the parts
that they remove and the parts between these, and each part that is removed gives way to the new
text (`Replaces`). Carrying the edits out one after the other from the back comes to the same
(`perform?_eq`), as every edit leaves what stands before it where it was. An edit cannot end inside
a character if it ends at a boundary of the text as it was at the start.
-/

namespace Xref

open Text

/-! ## Spans in order -/

namespace Span

theorem isLE_compare_iff {s t : Span} :
    (s.compare t).isLE ↔ s.start < t.start ∨ s.start = t.start ∧ s.stop ≤ t.stop := by
  rw [compare, Ordering.isLE_iff_eq_lt_or_eq_eq, Ordering.then_eq_lt, Ordering.then_eq_eq,
    Nat.compare_eq_lt, Nat.compare_eq_eq, Nat.compare_eq_lt, Nat.compare_eq_eq]
  omega

theorem isGE_compare (s t : Span) : (s.compare t).isGE = (t.compare s).isLE := by
  have hswap : t.compare s = (s.compare t).swap := Std.OrientedCmp.eq_swap
  rw [hswap]
  cases s.compare t <;> rfl

/-- Of two spans in order that do not overlap the first ends before the second starts. -/
theorem overlaps_eq_false_iff {s t : Span} (ht : t.start ≤ t.stop) (h : (s.compare t).isLE) :
    s.overlaps t = false ↔ s.stop ≤ t.start := by
  rw [isLE_compare_iff] at h
  rw [overlaps, decide_eq_false_iff_not]
  omega

end Span

/-- Whether a span starts before it ends, or where it ends. -/
def Edit.IsForward (e : Edit) : Prop := e.span.start ≤ e.span.stop

instance (e : Edit) : Decidable e.IsForward := inferInstanceAs (Decidable (_ ≤ _))

/-- Two edits of which neither takes anything of what the other one takes. -/
def Edit.Apart (e f : Edit) : Prop := e.span.overlaps f.span = false

instance : DecidableRel Edit.Apart := fun e f =>
  inferInstanceAs (Decidable (e.span.overlaps f.span = false))

theorem Edit.Apart.symm {e f : Edit} (h : e.Apart f) : f.Apart e :=
  (Span.overlaps_comm _ _).trans h

/-! ## All edits at once -/

/-- The second text is the first one with the new text of every edit in the place of its span. The
edits stand in the order of their spans, which count from `offset` bytes before the texts. -/
inductive Replaces : Nat → List Edit → List Char → List Char → Prop
  | nil {offset : Nat} {cs : List Char} : Replaces offset [] cs cs
  | cons {offset : Nat} {e : Edit} {es : List Edit} {kept removed rest new : List Char} :
      e.span.start = offset + byteLength kept →
      e.span.stop = e.span.start + byteLength removed →
      Replaces e.span.stop es rest new →
      Replaces offset (e :: es) (kept ++ (removed ++ rest)) (kept ++ (e.newText.toList ++ new))

/-- Characters before the first edit stay. -/
theorem Replaces.skip {cs old new : List Char} {offset : Nat} {es : List Edit}
    (h : Replaces (offset + byteLength cs) es old new) :
    Replaces offset es (cs ++ old) (cs ++ new) := by
  cases h with
  | nil => exact .nil
  | @cons _ e es kept removed rest new hstart hstop hrest =>
    rw [← List.append_assoc, ← List.append_assoc cs kept]
    exact .cons (by rw [hstart, byteLength_append, Nat.add_assoc]) hstop hrest

/-- Whether a text can be cut at an offset. -/
def IsBoundary (cs : List Char) (offset : Nat) : Prop :=
  ∃ before after, cs = before ++ after ∧ byteLength before = offset

instance (cs : List Char) (offset : Nat) : Decidable (IsBoundary cs offset) :=
  decidable_of_iff (cut? cs offset).isSome <| by
    simp only [Option.isSome_iff_exists, Prod.exists, cut?_eq_some_iff, IsBoundary]

theorem IsBoundary.of_append {as bs : List Char} {n : Nat} (h : IsBoundary (as ++ bs) n)
    (hle : byteLength as ≤ n) : ∃ mid rest, bs = mid ++ rest ∧ n = byteLength as + byteLength mid := by
  obtain ⟨before, after, happ, rfl⟩ := h
  rcases List.append_eq_append_iff.1 happ with ⟨mid, rfl, hbs⟩ | ⟨mid, rfl, -⟩
  · exact ⟨mid, after, hbs, byteLength_append ..⟩
  · -- The cut lies in `as`, so nothing lies between it and the end of `as`.
    rw [byteLength_append] at hle
    have hmid : mid = [] := by
      cases mid with
      | nil => rfl
      | cons c cs => have := c.utf8Size_pos; rw [byteLength_cons] at hle; omega
    subst hmid
    exact ⟨[], bs, rfl, by simp⟩

theorem IsBoundary.append {as : List Char} {n : Nat} (h : IsBoundary as n) (bs : List Char) :
    IsBoundary (as ++ bs) n := by
  obtain ⟨before, after, rfl, hlength⟩ := h
  exact ⟨before, after ++ bs, List.append_assoc .., hlength⟩

/-- A boundary within the first part of a text is one of that part. -/
theorem IsBoundary.of_le {as bs : List Char} {n : Nat} (h : IsBoundary (as ++ bs) n)
    (hle : n ≤ byteLength as) : IsBoundary as n := by
  obtain ⟨before, after, happ, rfl⟩ := h
  rcases List.append_eq_append_iff.1 happ with ⟨mid, rfl, -⟩ | ⟨mid, has, -⟩
  · have hmid : mid = [] := by
      cases mid with
      | nil => rfl
      | cons c cs =>
        have := c.utf8Size_pos
        rw [byteLength_append, byteLength_cons] at hle
        omega
    subst hmid
    exact ⟨as, [], by simp, by simp⟩
  · exact ⟨before, mid, has, rfl⟩

/-- Edits in order that do not overlap can be carried out at once. -/
theorem exists_replaces {es : List Edit} (as cs : List Char)
    (hforward : ∀ e ∈ es, e.IsForward) (hafter : ∀ e ∈ es, byteLength as ≤ e.span.start)
    (hapart : es.Pairwise fun e f => e.span.stop ≤ f.span.start)
    (hbounds : ∀ e ∈ es, IsBoundary (as ++ cs) e.span.start ∧ IsBoundary (as ++ cs) e.span.stop) :
    ∃ new, Replaces (byteLength as) es cs new := by
  induction es generalizing as cs with
  | nil => exact ⟨cs, .nil⟩
  | cons e es ih =>
    rw [List.forall_mem_cons] at hforward hafter hbounds
    rw [List.pairwise_cons] at hapart
    obtain ⟨kept, behind, rfl, hstart⟩ := hbounds.1.1.of_append hafter.1
    rw [← List.append_assoc] at hbounds
    have hle : byteLength (as ++ kept) ≤ e.span.stop := by
      rw [byteLength_append, ← hstart]
      exact hforward.1
    obtain ⟨removed, rest, rfl, hstop⟩ := hbounds.1.2.of_append hle
    rw [byteLength_append, ← hstart] at hstop
    have hlength : byteLength (as ++ kept ++ removed) = e.span.stop := by
      rw [byteLength_append, byteLength_append, ← hstart, hstop]
    rw [← List.append_assoc] at hbounds
    obtain ⟨new, hnew⟩ := ih (as ++ kept ++ removed) rest hforward.2
      (fun f hf => hlength ▸ hapart.1 f hf) hapart.2 hbounds.2
    exact ⟨_, .cons hstart hstop (hlength ▸ hnew)⟩

/-! ## One edit after the other -/

/-- An edit replaces the part of the text that its span covers. -/
theorem Edit.perform?_eq {e : Edit} {before removed : List Char}
    (hstart : e.span.start = byteLength before)
    (hstop : e.span.stop = e.span.start + byteLength removed) (after : List Char) :
    e.perform? (before ++ (removed ++ after)) = some (before ++ (e.newText.toList ++ after)) := by
  have hlength : byteLength (before ++ (removed ++ after)) =
      e.span.stop + byteLength after := by
    rw [byteLength_append, byteLength_append, hstop, hstart, Nat.add_assoc]
  have hmin : min e.span.start (byteLength (before ++ (removed ++ after))) = e.span.start := by
    omega
  have hmax : max (min e.span.stop (byteLength (before ++ (removed ++ after)))) e.span.start =
      e.span.stop := by omega
  rw [Edit.perform?, hmin, hmax, splice?, if_pos (by omega), hstart, cut?_append,
    Option.bind_some, ← hstart, hstop, Nat.add_sub_cancel_left, cut?_append, Option.map_some,
    List.append_assoc]

/-- Carries out edits one after the other, from the last of the list to the first. -/
def fromBack? : List Edit → List Char → Option (List Char)
  | [], cs => some cs
  | e :: es, cs => (fromBack? es cs).bind e.perform?

theorem fromBack?_cons (e : Edit) (es : List Edit) (cs : List Char) :
    fromBack? (e :: es) cs = (fromBack? es cs).bind e.perform? := rfl

theorem foldlM_perform?_reverse (es : List Edit) (cs : List Char) :
    es.reverse.foldlM (fun cs (e : Edit) => e.perform? cs) cs = fromBack? es cs := by
  induction es with
  | nil => rfl
  | cons e es ih =>
    rw [List.reverse_cons, List.foldlM_append, ih, fromBack?_cons]
    exact congrArg (Option.bind (fromBack? es cs)) (funext fun cs => bind_pure (e.perform? cs))

/-- **Edits from the back are edits at once.** -/
theorem Replaces.fromBack? {es : List Edit} {offset : Nat} {old new : List Char}
    (h : Replaces offset es old new) (as : List Char) (has : byteLength as = offset) :
    fromBack? es (as ++ old) = some (as ++ new) := by
  induction h generalizing as with
  | nil => rfl
  | @cons offset e es kept removed rest new hstart hstop _ ih =>
    have hbefore : byteLength (as ++ kept) = e.span.start := by
      rw [byteLength_append, has, hstart]
    have hrest := ih (as ++ kept ++ removed) (by rw [byteLength_append, hbefore, hstop])
    have hone := e.perform?_eq hbefore.symm hstop new
    simp only [List.append_assoc] at hrest hone ⊢
    rw [fromBack?_cons, hrest]
    exact hone

namespace ChangeSet

variable {s : ChangeSet}

/-- The edits in the order in which their new texts come to stand: by their spans, and of edits at
one place the one that was added last comes first. -/
def placed (s : ChangeSet) : List Edit := s.backward.reverse

theorem placed_perm (s : ChangeSet) : s.placed.Perm s.edits :=
  (List.reverse_perm _).trans (List.mergeSort_perm ..)

theorem perform?_eq_fromBack? (s : ChangeSet) (text : String) :
    s.perform? text = (fromBack? s.placed text.toList).map String.ofList := by
  rw [perform?, ← foldlM_perform?_reverse, placed, List.reverse_reverse]

theorem pairwise_placed (s : ChangeSet) :
    s.placed.Pairwise fun e f => (e.span.compare f.span).isLE := by
  have htrans : ∀ a b c : Edit, (b.span.compare a.span).isLE → (c.span.compare b.span).isLE →
      (c.span.compare a.span).isLE := fun a b c hba hcb => Std.TransCmp.isLE_trans hcb hba
  rw [placed, List.pairwise_reverse, backward]
  simp only [Span.isGE_compare]
  exact List.pairwise_mergeSort htrans (fun a b => compare_isLE_total b.span a.span) s.edits

/-- Edits with different spans are placed in the order of their spans. -/
theorem placed_eq_of_perm {es : List Edit} (hperm : s.edits.Perm es)
    (hes : es.Pairwise fun e f => e.span.compare f.span = .lt) : s.placed = es := by
  have : Std.TransCmp fun a b : Span => b.compare a := Std.TransCmp.opposite
  rw [placed, backward]
  simp only [Span.isGE_compare]
  rw [mergeSort_eq_of_perm (fun a b => b.compare a) Edit.span
    (hperm.trans (List.reverse_perm _).symm) (List.pairwise_reverse.2 hes), List.reverse_reverse]

theorem pairwise_forward (s : ChangeSet) :
    s.forward.Pairwise fun e f => (e.span.compare f.span).isLE :=
  pairwise_isLE_mergeSort Span.compare Edit.span s.edits

theorem forward_perm (s : ChangeSet) : s.forward.Perm s.edits := List.mergeSort_perm ..

/-! ## Conflicts -/

/-- Edits in order are in conflict exactly if they overlap: two insertions in order never do. -/
theorem conflictsWith_eq {e f : Edit} (hf : f.IsForward)
    (h : (e.span.compare f.span).isLE) : e.conflictsWith f = e.span.overlaps f.span := by
  rw [Bool.eq_iff_iff, ← not_iff_not, Bool.not_eq_true, Bool.not_eq_true,
    Span.overlaps_eq_false_iff hf h]
  rw [Span.isLE_compare_iff] at h
  unfold Edit.IsForward at hf
  simp only [Edit.conflictsWith, Edit.isInsertion, Span.isEmpty, Bool.and_eq_false_iff,
    decide_eq_false_iff_not, Bool.not_eq_false', Bool.and_eq_true, beq_iff_eq]
  omega

theorem firstConflict_cons_cons (e f : Edit) (es : List Edit) :
    firstConflict (e :: f :: es) = if e.conflictsWith f then some ⟨e, f⟩ else
      firstConflict (f :: es) := rfl

/-- Edits in order have no neighbours in conflict exactly if no two of them overlap. -/
theorem firstConflict_eq_none_iff {es : List Edit} (hforward : ∀ e ∈ es, e.IsForward)
    (hsorted : es.Pairwise fun e f => (e.span.compare f.span).isLE) :
    firstConflict es = none ↔ es.Pairwise Edit.Apart := by
  induction es with
  | nil => exact iff_of_true rfl .nil
  | cons e es ih =>
    rw [List.forall_mem_cons] at hforward
    rw [List.pairwise_cons] at hsorted
    cases es with
    | nil => exact iff_of_true rfl (List.pairwise_singleton ..)
    | cons f es =>
      have hfirst := hsorted.1 f List.mem_cons_self
      have hf := hforward.2 f List.mem_cons_self
      rw [firstConflict_cons_cons, conflictsWith_eq hf hfirst, List.pairwise_cons,
        ← ih hforward.2 hsorted.2]
      cases hover : e.span.overlaps f.span with
      | true =>
        rw [if_pos rfl]
        refine iff_of_false (Option.some_ne_none _) fun h => ?_
        have := h.1 f List.mem_cons_self
        rw [Edit.Apart, hover] at this
        cases this
      | false =>
        rw [if_neg Bool.false_ne_true]
        -- What ends before its neighbour starts ends before all that stand behind it.
        refine (and_iff_right ?_).symm
        rw [Span.overlaps_eq_false_iff hf hfirst] at hover
        intro g hg
        have hg' := hforward.2 g hg
        refine (Span.overlaps_eq_false_iff hg' (hsorted.1 g hg)).2 ?_
        rcases List.mem_cons.1 hg with rfl | hg
        · exact hover
        · have := Span.isLE_compare_iff.1 ((List.pairwise_cons.1 hsorted.2).1 g hg)
          omega

/-- The conflict that is found: the edits before it do not overlap. -/
theorem firstConflict_eq_some {es : List Edit} {c : EditConflict} (h : firstConflict es = some c) :
    ∃ as bs, es = as ++ c.first :: c.second :: bs ∧ c.first.conflictsWith c.second ∧
      firstConflict (as ++ [c.first]) = none := by
  induction es with
  | nil => cases h
  | cons e es ih =>
    cases es with
    | nil => cases h
    | cons f es =>
      rw [firstConflict_cons_cons] at h
      split at h
      · rename_i hconflict
        cases h
        exact ⟨[], es, rfl, hconflict, rfl⟩
      · rename_i hno
        obtain ⟨as, bs, happ, hconflict, hnone⟩ := ih h
        refine ⟨e :: as, bs, by rw [happ]; rfl, hconflict, ?_⟩
        cases as with
        | nil =>
          rw [List.nil_append, List.cons.injEq] at happ
          rw [List.cons_append, List.nil_append, firstConflict_cons_cons, ← happ.1, if_neg hno]
          rfl
        | cons g as =>
          rw [List.cons_append, List.cons.injEq] at happ
          rw [List.cons_append, List.cons_append, firstConflict_cons_cons, ← happ.1, if_neg hno]
          rw [List.cons_append, ← happ.1] at hnone
          exact hnone

/-- Two edits are in conflict: they overlap, stand next to each other in the order of the spans, and
the edits up to the first of them do not overlap. -/
structure Conflict (s : ChangeSet) (c : EditConflict) : Prop where
  overlaps : c.first.span.overlaps c.second.span
  neighbours : ∃ as bs, s.forward = as ++ c.first :: c.second :: bs ∧
    (as ++ [c.first]).Pairwise Edit.Apart

theorem Conflict.not_apart {c : EditConflict} (h : s.Conflict c) :
    ¬ s.edits.Pairwise Edit.Apart := by
  intro hapart
  obtain ⟨as, bs, happ, -⟩ := h.neighbours
  have hall := (s.forward_perm.pairwise_iff Edit.Apart.symm).2 hapart
  rw [happ] at hall
  have hfirst := (List.pairwise_cons.1 (List.pairwise_append.1 hall).2.1).1 c.second
    List.mem_cons_self
  rw [Edit.Apart, h.overlaps] at hfirst
  cases hfirst

section
variable (hforward : ∀ e ∈ s.edits, e.IsForward)

include hforward

theorem conflict?_eq_none_iff : s.conflict? = none ↔ s.edits.Pairwise Edit.Apart := by
  rw [conflict?, firstConflict_eq_none_iff
    (fun e he => hforward e (s.forward_perm.mem_iff.1 he)) s.pairwise_forward]
  exact s.forward_perm.pairwise_iff Edit.Apart.symm

theorem conflict_of_conflict? {c : EditConflict} (h : s.conflict? = some c) : s.Conflict c := by
  obtain ⟨as, bs, happ, hconflict, hnone⟩ := firstConflict_eq_some h
  have hsorted := s.pairwise_forward
  have hin : ∀ e ∈ s.forward, e.IsForward := fun e he => hforward e (s.forward_perm.mem_iff.1 he)
  rw [happ] at hsorted hin
  have hsecond : c.second.IsForward := hin _ (by simp)
  have hle : (c.first.span.compare c.second.span).isLE :=
    (List.pairwise_cons.1 (List.pairwise_append.1 hsorted).2.1).1 _ List.mem_cons_self
  have hinit : (as ++ [c.first]).Sublist (as ++ c.first :: c.second :: bs) :=
    List.Sublist.append_left (List.singleton_sublist.2 List.mem_cons_self) as
  refine ⟨conflictsWith_eq hsecond hle ▸ hconflict, as, bs, happ, ?_⟩
  exact (firstConflict_eq_none_iff (fun e he => hin e (hinit.subset he))
    (hsorted.sublist hinit)).1 hnone

/-- Without overlap every edit ends before the next one starts. -/
theorem separate_placed (hapart : s.edits.Pairwise Edit.Apart) :
    s.placed.Pairwise fun e f => e.span.stop ≤ f.span.start := by
  have hboth := s.pairwise_placed.and ((s.placed_perm.pairwise_iff Edit.Apart.symm).2 hapart)
  exact hboth.imp_of_mem fun _ hf h =>
    (Span.overlaps_eq_false_iff (hforward _ (s.placed_perm.mem_iff.1 hf)) h.1).1 h.2

/-- Edits without overlap between boundaries of a text are carried out, all at once. -/
theorem perform?_eq {text : String} (hapart : s.edits.Pairwise Edit.Apart)
    (hbounds : ∀ e ∈ s.edits,
      IsBoundary text.toList e.span.start ∧ IsBoundary text.toList e.span.stop) :
    ∃ new, s.perform? text = some new ∧ Replaces 0 s.placed text.toList new.toList := by
  have hmem : ∀ {e}, e ∈ s.placed → e ∈ s.edits := s.placed_perm.mem_iff.1
  obtain ⟨new, hnew⟩ := exists_replaces [] text.toList (fun e he => hforward e (hmem he))
    (fun e _ => Nat.zero_le _) (separate_placed hforward hapart) (fun e he => hbounds e (hmem he))
  refine ⟨String.ofList new, ?_, by rw [String.toList_ofList]; exact hnew⟩
  rw [perform?_eq_fromBack?]
  exact congrArg (Option.map String.ofList) (hnew.fromBack? [] rfl)

end

end ChangeSet

end Xref
