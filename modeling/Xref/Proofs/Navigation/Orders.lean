import Mathlib.Data.List.Nodup
import Mathlib.Data.List.Pairwise
import Mathlib.Data.List.Sort
import Xref.Navigation.Analysis
import Xref.Proofs.Text.Lines

/-!
# Orders of sites and locations

Sites and locations are ordered part by part. Their orders are total and tell different sites and
locations apart, so a list without repetition is strictly increasing once it is sorted
(`pairwise_mergeSort`).
-/

namespace Xref

open Std

/-! ## Lawful comparisons -/

instance : TransOrd Span :=
  inferInstanceAs (TransCmp (compareLex (compareOn Span.start) (compareOn Span.stop)))

instance : TransCmp Span.compare := inferInstanceAs (TransOrd Span)

instance : LawfulEqCmp Span.compare where
  eq_of_compare {s t} h := by
    rw [Span.compare, Ordering.then_eq_eq, Nat.compare_eq_eq, Nat.compare_eq_eq] at h
    cases s
    cases t
    exact congrArg₂ Span.mk h.1 h.2

instance : TransOrd Position :=
  inferInstanceAs (TransCmp (compareLex (compareOn Position.line) (compareOn Position.character)))

instance : TransCmp Position.compare := inferInstanceAs (TransOrd Position)

instance : LawfulEqCmp Position.compare where
  eq_of_compare h := Position.compare_eq_eq_iff.1 h

instance : TransCmp Uri.compare := inferInstanceAs (TransCmp (compareOn Uri.text))

instance : LawfulEqCmp Uri.compare where
  eq_of_compare {u v} h := by
    cases u
    cases v
    exact congrArg Uri.mk (LawfulEqCmp.eq_of_compare h)

instance : TransCmp Site.compare :=
  inferInstanceAs <| TransCmp <| compareLex
    (compareLex (compareOn fun a : Site => a.module.name) (compareOn Site.unit))
    (compareOn Site.span)

instance : LawfulEqCmp Site.compare where
  eq_of_compare {a b} h := by
    rw [Site.compare, Ordering.then_eq_eq, Ordering.then_eq_eq] at h
    obtain ⟨⟨hmodule, hunit⟩, hspan⟩ := h
    obtain ⟨⟨m⟩, unit, span⟩ := a
    obtain ⟨⟨m'⟩, unit', span'⟩ := b
    obtain rfl : m = m' := LawfulEqCmp.eq_of_compare hmodule
    obtain rfl : unit = unit' := LawfulEqCmp.eq_of_compare hunit
    obtain rfl : span = span' := LawfulEqCmp.eq_of_compare hspan
    rfl

instance : TransCmp Location.compare :=
  inferInstanceAs <| TransCmp <| compareLex
    (compareLex (compareOn fun l : Location => l.uri.text)
      (compareOn fun l : Location => l.range.start))
    (compareOn fun l : Location => l.range.stop)

instance : LawfulEqCmp Location.compare where
  eq_of_compare {l m} h := by
    rw [Location.compare, Ordering.then_eq_eq, Ordering.then_eq_eq] at h
    obtain ⟨⟨huri, hstart⟩, hstop⟩ := h
    obtain ⟨uri, start, stop⟩ := l
    obtain ⟨uri', start', stop'⟩ := m
    obtain rfl : uri = uri' := LawfulEqCmp.eq_of_compare huri
    obtain rfl : start = start' := LawfulEqCmp.eq_of_compare hstart
    obtain rfl : stop = stop' := LawfulEqCmp.eq_of_compare hstop
    rfl

/-! ## Sorting -/

section
variable {α : Type} {cmp : α → α → Ordering} [TransCmp cmp] {l : List α}

theorem compare_isLE_total (a b : α) : (cmp a b).isLE || (cmp b a).isLE := by
  have hswap : cmp b a = (cmp a b).swap := OrientedCmp.eq_swap
  rw [hswap]
  cases cmp a b <;> rfl

variable (cmp) in
/-- Sorting by a key puts the keys in order. -/
theorem pairwise_isLE_mergeSort {β : Type} (key : β → α) (l : List β) :
    (l.mergeSort fun a b => (cmp (key a) (key b)).isLE).Pairwise fun a b =>
      (cmp (key a) (key b)).isLE := by
  have htrans : ∀ a b c : β, (cmp (key a) (key b)).isLE → (cmp (key b) (key c)).isLE →
      (cmp (key a) (key c)).isLE := fun a b c hab hbc => TransCmp.isLE_trans hab hbc
  exact List.pairwise_mergeSort htrans (fun a b => compare_isLE_total (key a) (key b)) l

/-- A list without repetition is strictly increasing once it is sorted. -/
theorem pairwise_mergeSort [LawfulEqCmp cmp] (h : l.Nodup) :
    (l.mergeSort fun a b => (cmp a b).isLE).Pairwise fun a b => cmp a b = .lt := by
  have hsorted : (l.mergeSort fun a b => (cmp a b).isLE).Pairwise fun a b => (cmp a b).isLE :=
    pairwise_isLE_mergeSort cmp id l
  have hnodup : (l.mergeSort fun a b => (cmp a b).isLE).Nodup :=
    (List.mergeSort_perm l _).nodup_iff.2 h
  refine (hsorted.and hnodup).imp ?_
  rintro a b ⟨hle, hne⟩
  cases hcmp : cmp a b with
  | lt => rfl
  | eq => exact absurd (LawfulEqCmp.eq_of_compare hcmp) hne
  | gt => rw [hcmp] at hle; cases hle

theorem ne_of_compare_lt {a b : α} (h : cmp a b = .lt) : a ≠ b := by
  rintro rfl
  have hself : cmp a a = .eq := ReflCmp.compare_self
  rw [hself] at h
  cases h

variable (cmp) in
/-- Sorting gives the strictly increasing order if there is one. -/
theorem mergeSort_eq_of_perm {β : Type} (key : β → α) {l m : List β} (hperm : l.Perm m)
    (hm : m.Pairwise fun a b => cmp (key a) (key b) = .lt) :
    l.mergeSort (fun a b => (cmp (key a) (key b)).isLE) = m := by
  have hsorted := pairwise_isLE_mergeSort cmp key l
  have hsort := List.mergeSort_perm l fun a b => (cmp (key a) (key b)).isLE
  refine List.Perm.eq_of_pairwise ?_ hsorted (hm.imp fun h => ?_) (hsort.trans hperm)
  · intro a b ha hb hab hba
    have : Std.Symm fun a b => cmp (key a) (key b) ≠ .eq :=
      ⟨fun _ _ h heq => h (OrientedCmp.eq_symm heq)⟩
    have hdifferent : m.Pairwise fun a b => cmp (key a) (key b) ≠ .eq :=
      hm.imp fun h heq => by rw [h] at heq; cases heq
    by_contra hne
    exact hdifferent.forall ((hsort.trans hperm).mem_iff.1 ha) hb hne
      (OrientedCmp.isLE_antisymm hab hba)
  · rw [h]
    rfl

variable (cmp) in
/-- What is so of all members of an increasing list, each before the other, is so of any two in
order. -/
theorem forall_of_increasing {β : Type} (key : β → α) {l : List β} {R : β → β → Prop}
    (hl : l.Pairwise fun a b => cmp (key a) (key b) = .lt) (h : l.Pairwise R) {a b : β}
    (ha : a ∈ l) (hb : b ∈ l) (hlt : cmp (key a) (key b) = .lt) : R a b := by
  have hboth : l.Pairwise fun a b => (cmp (key a) (key b) = .lt → R a b) ∧
      (cmp (key b) (key a) = .lt → R b a) :=
    (hl.and h).imp fun {a b} hab =>
      ⟨fun _ => hab.2, fun hba => absurd hba (OrientedCmp.not_lt_of_lt hab.1)⟩
  have : Std.Symm fun a b : β => (cmp (key a) (key b) = .lt → R a b) ∧
      (cmp (key b) (key a) = .lt → R b a) := ⟨fun _ _ => And.symm⟩
  have hne : a ≠ b := fun heq => ne_of_compare_lt hlt (congrArg key heq)
  exact (hboth.forall ha hb hne).1 hlt

/-- Strictly increasing lists with the same elements are the same list. -/
theorem eq_of_mem_iff {l m : List α} (hl : l.Pairwise fun a b => cmp a b = .lt)
    (hm : m.Pairwise fun a b => cmp a b = .lt) (h : ∀ a, a ∈ l ↔ a ∈ m) : l = m := by
  have : Std.Antisymm fun a b => cmp a b = .lt :=
    ⟨fun _ _ hab hba => absurd hba (OrientedCmp.not_lt_of_lt hab)⟩
  have : Std.Irrefl fun a b => cmp a b = .lt :=
    ⟨fun _ haa => OrientedCmp.not_lt_of_lt haa haa⟩
  exact hl.eq_of_mem_iff hm h

end

theorem mapM_ok {α β ε : Type} {f : α → Except ε β} {g : α → β} {l : List α}
    (h : ∀ a ∈ l, f a = .ok (g a)) : l.mapM f = .ok (l.map g) := by
  induction l with
  | nil => rfl
  | cons a l ih =>
    rw [List.forall_mem_cons] at h
    rw [List.mapM_cons, h.1, ih h.2]
    rfl

/-- Either all elements have results, or the first that has none decides. -/
theorem mapM_cases {α β ε : Type} (f : α → Except ε β) (l : List α) :
    (∃ bs, l.mapM f = .ok bs ∧ List.Forall₂ (fun a b => f a = .ok b) l bs) ∨
    ∃ before a after e, l = before ++ a :: after ∧ (∀ x ∈ before, ∃ b, f x = .ok b) ∧
      f a = .error e ∧ l.mapM f = .error e := by
  induction l with
  | nil => exact .inl ⟨[], rfl, .nil⟩
  | cons a l ih =>
    rw [List.mapM_cons]
    cases ha : f a with
    | error e => exact .inr ⟨[], a, l, e, rfl, (fun _ h => nomatch h), ha, rfl⟩
    | ok b =>
      rcases ih with ⟨bs, hbs, hall⟩ | ⟨before, x, after, e, rfl, hbefore, hx, herror⟩
      · exact .inl ⟨b :: bs, by rw [hbs]; rfl, .cons ha hall⟩
      · refine .inr ⟨a :: before, x, after, e, rfl, ?_, hx, by rw [herror]; rfl⟩
        exact List.forall_mem_cons.2 ⟨⟨b, ha⟩, hbefore⟩

/-! ## Insertion by site -/

namespace Reference

variable {r q : Reference} {l : List Reference}

/-- Whether references stand in the order of their sites, no two at one site. -/
def SiteSorted (l : List Reference) : Prop :=
  l.Pairwise fun a b => a.site.compare b.site = .lt

theorem SiteSorted.nil : SiteSorted [] := List.Pairwise.nil

theorem SiteSorted.nodup (h : SiteSorted l) : (l.map Reference.site).Nodup :=
  List.pairwise_map.2 (h.imp ne_of_compare_lt)

/-- A reference at a new site is put among the others. -/
theorem insertNew_perm (h : r.site ∉ l.map Reference.site) : (r.insertNew l).2.Perm (r :: l) := by
  induction l with
  | nil => exact .refl _
  | cons q l ih =>
    rw [List.map_cons, List.mem_cons, not_or] at h
    rw [insertNew]
    cases hcmp : r.site.compare q.site with
    | lt => exact .refl _
    | eq => exact absurd (LawfulEqCmp.eq_of_compare hcmp) h.1
    | gt => exact ((ih h.2).cons q).trans (.swap r q l)

/-- Where the site of a reference is taken nothing changes. -/
theorem insertNew_eq (hl : SiteSorted l) (h : r.site ∈ l.map Reference.site) :
    (r.insertNew l).2 = l := by
  induction l with
  | nil => cases h
  | cons q l ih =>
    obtain ⟨hq, hl⟩ := List.pairwise_cons.1 hl
    rw [insertNew]
    cases hcmp : r.site.compare q.site with
    | lt =>
      rcases List.mem_cons.1 h with heq | hmem
      · exact absurd heq (ne_of_compare_lt hcmp)
      · obtain ⟨a, ha, heq⟩ := List.mem_map.1 hmem
        exact absurd heq.symm (ne_of_compare_lt (TransCmp.lt_trans hcmp (hq a ha)))
    | eq => rfl
    | gt =>
      have hne : r.site ≠ q.site := by
        intro heq
        exact ne_of_compare_lt (OrientedCmp.lt_of_gt hcmp) heq.symm
      exact congrArg (q :: ·) (ih hl ((List.mem_cons.1 h).resolve_left hne))

theorem insertNew_sorted (hl : SiteSorted l) : SiteSorted (r.insertNew l).2 := by
  by_cases h : r.site ∈ l.map Reference.site
  · rw [insertNew_eq hl h]
    exact hl
  induction l with
  | nil => exact List.pairwise_singleton _ _
  | cons q l ih =>
    obtain ⟨hq, htail⟩ := List.pairwise_cons.1 hl
    rw [List.map_cons, List.mem_cons, not_or] at h
    rw [insertNew]
    cases hcmp : r.site.compare q.site with
    | lt =>
      refine List.pairwise_cons.2 ⟨?_, hl⟩
      intro a ha
      rcases List.mem_cons.1 ha with rfl | ha
      · exact hcmp
      · exact TransCmp.lt_trans hcmp (hq a ha)
    | eq => exact hl
    | gt =>
      refine List.pairwise_cons.2 ⟨?_, ih htail h.2⟩
      intro a ha
      rcases List.mem_cons.1 ((insertNew_perm h.2).mem_iff.1 ha) with rfl | ha
      · exact OrientedCmp.lt_of_gt hcmp
      · exact hq a ha

/-- A reference is refused exactly if its site is taken. -/
theorem insertNew_fst (hl : SiteSorted l) :
    (r.insertNew l).1 = false ↔ r.site ∈ l.map Reference.site := by
  induction l with
  | nil => exact iff_of_false Bool.noConfusion nofun
  | cons q l ih =>
    obtain ⟨hq, hl⟩ := List.pairwise_cons.1 hl
    rw [insertNew, List.map_cons, List.mem_cons]
    cases hcmp : r.site.compare q.site with
    | lt =>
      refine iff_of_false Bool.noConfusion ?_
      rintro (heq | hmem)
      · exact ne_of_compare_lt hcmp heq
      · obtain ⟨a, ha, heq⟩ := List.mem_map.1 hmem
        exact ne_of_compare_lt (TransCmp.lt_trans hcmp (hq a ha)) heq.symm
    | eq => exact iff_of_true rfl (.inl (LawfulEqCmp.eq_of_compare hcmp))
    | gt =>
      have hne : r.site ≠ q.site := by
        intro heq
        exact ne_of_compare_lt (OrientedCmp.lt_of_gt hcmp) heq.symm
      exact (ih hl).trans (or_iff_right hne).symm

/-- In a list in order there is one reference at a site. -/
theorem find?_site (hl : SiteSorted l) :
    l.find? (fun q => q.site = r.site) = some r ↔ r ∈ l := by
  refine ⟨List.mem_of_find?_eq_some, fun hr => ?_⟩
  cases hfind : l.find? fun q => q.site = r.site with
  | none => exact absurd (List.find?_eq_none.1 hfind r hr) (not_not.2 (decide_eq_true rfl))
  | some q =>
    have hsite : q.site = r.site := by simpa using List.find?_some hfind
    rw [List.inj_on_of_nodup_map hl.nodup (List.mem_of_find?_eq_some hfind) hr hsite]

theorem find?_site_eq_none {s : Site} :
    l.find? (fun q => q.site = s) = none ↔ s ∉ l.map Reference.site := by
  simp [List.find?_eq_none, List.mem_map]

end Reference

theorem Occurrences.siteSorted_toRename (o : Occurrences) : Reference.SiteSorted o.toRename :=
  List.foldlRecOn _ _ .nil fun _ h _ _ => Reference.insertNew_sorted h

end Xref
