import Xref.Proofs.Navigation.FileEdits
import Xref.Proofs.Text.Splices

/-!
# Overlapping references in one file

References in one file are sorted by their spans, of several at one span the first is kept, and
neighbours are compared. Since they are sorted, two neighbours overlap if any two do, so this is the
check of the change set that replaces the spans (`editsOf_checked`); there insertions are no
exception, as two empty spans at different offsets never overlap.
-/

namespace Xref

/-- Whether two references are at different spans that overlap: in the order of the spans the first
one ends after the second one starts. -/
structure Reference.Overlaps (r r' : Reference) : Prop where
  increasing : r.site.span.compare r'.site.span = .lt
  meets : r'.site.span.start < r.site.span.stop

/-- Whether a reference is the first one of a list that has its span. -/
def Reference.IsFirstIn (r : Reference) (refs : List Reference) : Prop :=
  refs.find? (fun q => q.site.span = r.site.span) = some r

/-- What the check of references in one file comes to. -/
structure Checked (uri : Uri) (refs : List Reference) (newName : String)
    (answer : Except RequestError (List TextEdit)) : Prop where
  /-- There is a conflict exactly if two references overlap, be they neighbours or not. -/
  conflict_iff : (∃ first second, answer = .error (.editConflict uri first second)) ↔
    ∃ r ∈ refs, ∃ r' ∈ refs, r.Overlaps r'
  /-- Nothing else can go wrong, and a conflict names the ranges of two such references. -/
  conflict (e : RequestError) (h : answer = .error e) :
    ∃ r ∈ refs, ∃ r' ∈ refs, r.Overlaps r' ∧ e = .editConflict uri r.range r'.range
  /-- There are edits exactly if the replacements of the different spans are not in conflict. -/
  ok_iff (spans : List Span) (hspans : spans.Nodup)
    (hmem : ∀ s, s ∈ spans ↔ s ∈ refs.map fun r => r.site.span) :
    (∃ edits, answer = .ok edits) ↔
      (ChangeSet.mk (spans.map fun s => ⟨s, newName⟩)).conflict? = none
  /-- The edits are at the ranges of the first references at all spans, in the order of the
  spans. -/
  edits (edits : List TextEdit) (h : answer = .ok edits) :
    ∃ chosen : List Reference, edits = chosen.map (Reference.edit newName) ∧
      (chosen.Pairwise fun r r' => r.site.span.compare r'.site.span = .lt) ∧
      ∀ r, r ∈ chosen ↔ r.IsFirstIn refs

/-! ## Different spans -/

section
variable {l : List (Span × Range)} {a b : Span × Range}

/-- What is left behind the places at one span is at later spans. -/
theorem compare_eq_lt_of_mem_dropWhile
    (hl : (a :: l).Pairwise fun a b => (a.1.compare b.1).isLE)
    (hb : b ∈ l.dropWhile fun c => c.1 == a.1) : a.1.compare b.1 = .lt := by
  rw [List.pairwise_cons] at hl
  have hsuffix := List.dropWhile_suffix (l := l) fun c => c.1 == a.1
  have hle := hl.1 b (hsuffix.subset hb)
  have hrest := hl.2.sublist hsuffix.sublist
  cases hdrop : l.dropWhile fun c => c.1 == a.1 with
  | nil =>
    rw [hdrop] at hb
    cases hb
  | cons c rest =>
    -- The first place that is left has another span, and `b` does not stand before it.
    have hc : c.1 ≠ a.1 := by
      have := List.head?_dropWhile_not (fun c : Span × Range => c.1 == a.1) l
      rw [hdrop] at this
      simpa using this
    rw [hdrop] at hb hrest hsuffix
    have hac := hl.1 c (hsuffix.subset List.mem_cons_self)
    have hcb : (c.1.compare b.1).isLE := by
      rcases List.mem_cons.1 hb with rfl | hb
      · exact Std.ReflCmp.isLE_rfl
      · exact (List.pairwise_cons.1 hrest).1 b hb
    rw [Ordering.isLE_iff_eq_lt_or_eq_eq] at hle
    refine hle.resolve_right fun heq => hc ?_
    rw [← Std.LawfulEqCmp.eq_of_compare heq] at hcb
    exact Std.LawfulEqCmp.eq_of_compare (Std.OrientedCmp.isLE_antisymm hcb hac)

theorem pairwise_dropEqualSpans (hl : l.Pairwise fun a b => (a.1.compare b.1).isLE) :
    (dropEqualSpans l).Pairwise fun a b => a.1.compare b.1 = .lt := by
  induction l using dropEqualSpans.induct with
  | case1 =>
    rw [dropEqualSpans]
    exact .nil
  | case2 a rest ih =>
    rw [dropEqualSpans]
    refine List.pairwise_cons.2 ⟨fun b hb => ?_, ih ?_⟩
    · exact compare_eq_lt_of_mem_dropWhile hl (mem_of_mem_dropEqualSpans hb)
    · exact (List.pairwise_cons.1 hl).2.sublist (List.dropWhile_suffix _).sublist

/-- Of the places at one span the first is kept. -/
theorem mem_dropEqualSpans_iff (hl : l.Pairwise fun a b => (a.1.compare b.1).isLE) :
    b ∈ dropEqualSpans l ↔ l.find? (fun c => c.1 = b.1) = some b := by
  induction l using dropEqualSpans.induct with
  | case1 => simp [dropEqualSpans]
  | case2 a rest ih =>
    have hsuffix := List.dropWhile_suffix (l := rest) fun c => c.1 == a.1
    rw [dropEqualSpans, List.mem_cons, ih ((List.pairwise_cons.1 hl).2.sublist hsuffix.sublist),
      List.find?_cons]
    by_cases hspan : a.1 = b.1
    · rw [decide_eq_true hspan, Option.some.injEq]
      refine (or_iff_left fun hfind => ?_).trans eq_comm
      exact ne_of_compare_lt (compare_eq_lt_of_mem_dropWhile hl (List.mem_of_find?_eq_some hfind))
        hspan
    · have hne : b ≠ a := fun heq => hspan (congrArg Prod.fst heq.symm)
      have hskip : (rest.takeWhile fun c => c.1 == a.1).find? (fun c => c.1 = b.1) = none := by
        refine List.find?_eq_none.2 fun c hc => ?_
        have hca := List.mem_takeWhile_imp (p := fun c : Span × Range => c.1 == a.1) hc
        simpa [eq_of_beq hca] using hspan
      rw [decide_eq_false hspan, or_iff_right hne]
      conv_rhs => rw [← List.takeWhile_append_dropWhile (p := fun c => c.1 == a.1) (l := rest),
        List.find?_append, hskip, Option.none_or]

end

/-! ## Places of references -/

section
variable {refs : List Reference} {place : Span × Range}

theorem pairwise_placesOf (refs : List Reference) :
    (placesOf refs).Pairwise fun a b => a.1.compare b.1 = .lt :=
  pairwise_dropEqualSpans (pairwise_isLE_mergeSort Span.compare Prod.fst _)

/-- The places are those of the first references at all spans. -/
theorem mem_placesOf_iff : place ∈ placesOf refs ↔
    (refs.find? fun r => r.site.span = place.1).map (fun r => (r.site.span, r.range)) =
      some place := by
  have htrans : ∀ a b c : Span × Range, (a.1.compare b.1).isLE → (b.1.compare c.1).isLE →
      (a.1.compare c.1).isLE := fun a b c hab hbc => Std.TransCmp.isLE_trans hab hbc
  have htotal : ∀ a b : Span × Range, (a.1.compare b.1).isLE || (b.1.compare a.1).isLE :=
    fun a b => compare_isLE_total a.1 b.1
  rw [placesOf, mem_dropEqualSpans_iff (pairwise_isLE_mergeSort Span.compare Prod.fst _),
    ← List.head?_filter, filter_mergeSort htrans htotal, List.head?_filter, List.find?_map]
  · rfl
  · intro a b ha hb
    rw [of_decide_eq_true ha, of_decide_eq_true hb]
    exact Std.ReflCmp.isLE_rfl

/-- The references whose places these are. -/
theorem exists_chosen (refs : List Reference) : ∃ chosen : List Reference,
    chosen.map (fun r => (r.site.span, r.range)) = placesOf refs ∧
      ∀ r, r ∈ chosen ↔ r.IsFirstIn refs := by
  refine ⟨(placesOf refs).filterMap fun place => refs.find? fun r => r.site.span = place.1, ?_, ?_⟩
  · rw [List.map_filterMap]
    refine Eq.trans (List.filterMap_congr fun place hplace => ?_) List.filterMap_some
    exact mem_placesOf_iff.1 hplace
  · intro r
    rw [List.mem_filterMap]
    constructor
    · rintro ⟨place, -, hfind⟩
      have hspan : r.site.span = place.1 := by simpa using List.find?_some hfind
      rwa [← hspan] at hfind
    · intro hfirst
      refine ⟨(r.site.span, r.range), mem_placesOf_iff.2 ?_, hfirst⟩
      rw [show (refs.find? fun q => q.site.span = r.site.span) = some r from hfirst]
      rfl

end

/-! ## Neighbours that overlap -/

section
variable {l : List (Span × Range)} (hl : l.Pairwise fun a b => a.1.compare b.1 = .lt)

include hl

/-- Neighbours that overlap are places that do. -/
theorem exists_of_firstOverlap {first second : Range} (h : firstOverlap l = some (first, second)) :
    ∃ a ∈ l, ∃ b ∈ l, a.1.compare b.1 = .lt ∧ b.1.start < a.1.stop ∧
      a.2 = first ∧ b.2 = second := by
  induction l with
  | nil => cases h
  | cons a l ih =>
    obtain ⟨hfirst, hrest⟩ := List.pairwise_cons.1 hl
    cases l with
    | nil => cases h
    | cons b l =>
      rw [firstOverlap] at h
      split at h
      · rename_i hoverlap
        cases h
        rw [Span.overlaps, decide_eq_true_eq] at hoverlap
        exact ⟨a, List.mem_cons_self, b, List.mem_cons_of_mem _ List.mem_cons_self,
          hfirst b List.mem_cons_self, hoverlap.2, rfl, rfl⟩
      · obtain ⟨c, hc, d, hd, hcd⟩ := ih hrest h
        exact ⟨c, List.mem_cons_of_mem _ hc, d, List.mem_cons_of_mem _ hd, hcd⟩

variable (hforward : ∀ a ∈ l, a.1.start ≤ a.1.stop)

include hforward

/-- The check of places is the check of a change set that replaces their spans, in any order. -/
theorem firstOverlap_eq_none_iff_conflict? (newName : String) {spans : List Span}
    (hspans : spans.Nodup) (hmem : ∀ s, s ∈ spans ↔ s ∈ l.map Prod.fst) :
    firstOverlap l = none ↔ (ChangeSet.mk (spans.map fun s => ⟨s, newName⟩)).conflict? = none := by
  have hperm : spans.Perm (l.map Prod.fst) := by
    refine (List.perm_ext_iff_of_nodup hspans ?_).2 hmem
    exact List.pairwise_map.2 (hl.imp ne_of_compare_lt)
  have hedits : ∀ e ∈ (ChangeSet.mk (spans.map fun s => ⟨s, newName⟩)).edits, e.IsForward := by
    refine List.forall_mem_map.2 fun s hs => ?_
    obtain ⟨a, ha, rfl⟩ := List.mem_map.1 ((hmem s).1 hs)
    exact hforward a ha
  have hreplaced := hperm.map fun s => (⟨s, newName⟩ : Edit)
  rw [ChangeSet.conflict?_eq_none_iff hedits, hreplaced.pairwise_iff Edit.Apart.symm,
    List.pairwise_map, List.pairwise_map]
  have hapart_iff {a b : Span × Range} (hb : b ∈ l) (hlt : a.1.compare b.1 = .lt) :
      (⟨a.1, newName⟩ : Edit).Apart ⟨b.1, newName⟩ ↔ a.1.stop ≤ b.1.start :=
    Span.overlaps_eq_false_iff (hforward b hb) (Ordering.isLE_iff_eq_lt_or_eq_eq.2 (.inl hlt))
  constructor
  · intro hnone
    exact (ahead_of_firstOverlap hl hforward hnone).imp_of_mem fun _ hb hahead =>
      (hapart_iff hb hahead.increasing).2 hahead.apart
  · intro hapart
    refine firstOverlap_eq_none ((hl.and hapart).imp_of_mem fun _ hb hboth => ?_)
    exact (hapart_iff hb hboth.1).1 hboth.2

end

/-! ## The check -/

section
variable {refs : List Reference}

/-- Neighbours among the places that overlap are references that do. -/
theorem exists_overlaps_of_firstOverlap {first second : Range}
    (h : firstOverlap (placesOf refs) = some (first, second)) :
    ∃ r ∈ refs, ∃ r' ∈ refs, r.Overlaps r' ∧ first = r.range ∧ second = r'.range := by
  obtain ⟨a, ha, b, hb, hlt, hmeets, hfirst, hsecond⟩ :=
    exists_of_firstOverlap (pairwise_placesOf refs) h
  obtain ⟨r, hr, rfl⟩ := exists_of_mem_placesOf ha
  obtain ⟨r', hr', rfl⟩ := exists_of_mem_placesOf hb
  exact ⟨r, hr, r', hr', ⟨hlt, hmeets⟩, hfirst.symm, hsecond.symm⟩

/-- The places are forward if the references are. -/
theorem forward_placesOf (hforward : ∀ r ∈ refs, r.site.span.start ≤ r.site.span.stop) :
    ∀ place ∈ placesOf refs, place.1.start ≤ place.1.stop := by
  intro place hplace
  obtain ⟨r, hr, rfl⟩ := exists_of_mem_placesOf hplace
  exact hforward r hr

/-- If no neighbours among the places overlap, then no references do. -/
theorem not_overlaps_of_firstOverlap
    (hforward : ∀ r ∈ refs, r.site.span.start ≤ r.site.span.stop)
    (h : firstOverlap (placesOf refs) = none) {r r' : Reference} (hr : r ∈ refs) (hr' : r' ∈ refs) :
    ¬ r.Overlaps r' := by
  intro hoverlaps
  obtain ⟨a, ha, hspan⟩ := exists_mem_placesOf hr
  obtain ⟨b, hb, hspan'⟩ := exists_mem_placesOf hr'
  have hincreasing := hoverlaps.increasing
  rw [← hspan, ← hspan'] at hincreasing
  have hahead := ahead_of_firstOverlap (pairwise_placesOf refs) (forward_placesOf hforward) h
  have hapart := (forall_of_increasing Span.compare Prod.fst (pairwise_placesOf refs) hahead
    ha hb hincreasing).apart
  rw [hspan, hspan'] at hapart
  exact absurd hoverlaps.meets (Nat.not_lt.2 hapart)

/-- The spans of the places are those of the references. -/
theorem mem_map_placesOf (refs : List Reference) (s : Span) :
    s ∈ (placesOf refs).map Prod.fst ↔ s ∈ refs.map fun r => r.site.span := by
  rw [List.mem_map, List.mem_map]
  constructor
  · rintro ⟨place, hplace, rfl⟩
    obtain ⟨r, hr, rfl⟩ := exists_of_mem_placesOf hplace
    exact ⟨r, hr, rfl⟩
  · rintro ⟨r, hr, rfl⟩
    exact exists_mem_placesOf hr

/-- **The check of the references in one file.** They are in conflict if any two overlap, which is
so exactly if the change set that replaces their spans has a conflict; else every span is replaced
once, in order. -/
theorem editsOf_checked (uri : Uri) (refs : List Reference) (newName : String)
    (hforward : ∀ r ∈ refs, r.site.span.start ≤ r.site.span.stop) :
    Checked uri refs newName (editsOf uri refs newName) := by
  have hconflict? (spans : List Span) (hspans : spans.Nodup)
      (hmem : ∀ s, s ∈ spans ↔ s ∈ refs.map fun r => r.site.span) :=
    firstOverlap_eq_none_iff_conflict? (pairwise_placesOf refs) (forward_placesOf hforward) newName
      hspans fun s => (hmem s).trans (mem_map_placesOf refs s).symm
  rw [editsOf]
  cases hoverlap : firstOverlap (placesOf refs) with
  | some ranges =>
    obtain ⟨first, second⟩ := ranges
    obtain ⟨r, hr, r', hr', hoverlaps, rfl, rfl⟩ := exists_overlaps_of_firstOverlap hoverlap
    constructor
    case conflict_iff =>
      exact iff_of_true ⟨_, _, rfl⟩ ⟨r, hr, r', hr', hoverlaps⟩
    case conflict =>
      intro e h
      exact ⟨r, hr, r', hr', hoverlaps, (Except.error.inj h).symm⟩
    case ok_iff =>
      intro spans hspans hmem
      refine iff_of_false ?_ fun hnone => ?_
      · rintro ⟨edits, h⟩
        cases h
      · rw [(hconflict? spans hspans hmem).2 hnone] at hoverlap
        cases hoverlap
    case edits =>
      intro edits h
      cases h
  | none =>
    constructor
    case conflict_iff =>
      refine iff_of_false ?_ ?_
      · rintro ⟨first, second, h⟩
        cases h
      · rintro ⟨r, hr, r', hr', hoverlaps⟩
        exact not_overlaps_of_firstOverlap hforward hoverlap hr hr' hoverlaps
    case conflict =>
      intro e h
      cases h
    case ok_iff =>
      intro spans hspans hmem
      exact iff_of_true ⟨_, rfl⟩ ((hconflict? spans hspans hmem).1 hoverlap)
    case edits =>
      intro edits h
      obtain ⟨chosen, hchosen, hfirst⟩ := exists_chosen refs
      refine ⟨chosen, ?_, ?_, hfirst⟩
      · rw [← Except.ok.inj h, ← hchosen, List.map_map]
        rfl
      · have hplaces := pairwise_placesOf refs
        rwa [← hchosen, List.pairwise_map] at hplaces

/-- A usage at a span. -/
def usageAt (start stop : Nat) : Reference :=
  ⟨default, ⟨.current, "a.nav", ⟨start, stop⟩⟩, ⟨⟨0, start⟩, ⟨0, stop⟩⟩, .usage⟩

/-- References out of order. One of them encloses two others and one stands twice. -/
def nestedRefs : List Reference := [usageAt 5 6, usageAt 2 3, usageAt 0 10, usageAt 2 3]

/-- The last of these spans overlaps the first one, which is no neighbour of it. -/
theorem editsOf_checked_nestedRefs :
    let uri : Uri := ⟨"file:///workspace/a.nav"⟩
    (∀ r ∈ nestedRefs, r.site.span.start ≤ r.site.span.stop) ∧
      Checked uri nestedRefs "g" (editsOf uri nestedRefs "g") ∧
      ∃ first second, editsOf uri nestedRefs "g" = .error (.editConflict uri first second) := by
  intro uri
  have hforward : ∀ r ∈ nestedRefs, r.site.span.start ≤ r.site.span.stop := by decide
  have hchecked := editsOf_checked uri nestedRefs "g" hforward
  refine ⟨hforward, hchecked, hchecked.conflict_iff.2 ?_⟩
  exact ⟨usageAt 0 10, by decide, usageAt 5 6, by decide, by decide, by decide⟩

end

end Xref
