import Xref.Proofs.Navigation.RenamedTokens
import Xref.Proofs.Text.Replacements

/-!
# The edits of one file

The edits that a rename makes of a file are those of the references there, in the order of their
sites (`Occurrences.editsAt_renameEdit`). In one unit none overlaps another. Where several units lie at one URI
their edits are put one after the other as they are, so edits of a file may come out of order or
twice: they do not exactly if the references of an earlier unit end before those of a later one start
(`Occurrences.renameEdit_ahead_iff`).
-/

namespace Xref

open Text (byteLength)

/-! ## Ranges one behind the other -/

/-- Whether a span comes before another and ends before it starts. -/
structure Span.Ahead (s t : Span) : Prop where
  increasing : s.compare t = .lt
  apart : s.stop ≤ t.start

instance (s t : Span) : Decidable (s.Ahead t) :=
  decidable_of_iff (s.compare t = .lt ∧ s.stop ≤ t.start)
    ⟨fun h => ⟨h.1, h.2⟩, fun h => ⟨h.increasing, h.apart⟩⟩

/-- Whether a range comes before another and ends before it starts. -/
structure Range.Ahead (a b : Range) : Prop where
  increasing : (a.start.compare b.start).then (a.stop.compare b.stop) = .lt
  apart : a.stop.precedes b.start

/-- Whether a reference is at a place in a text. -/
structure Reference.InText (r : Reference) (text : String) : Prop where
  forward : r.site.span.start ≤ r.site.span.stop
  start : IsBoundary text.toList r.site.span.start
  stop : IsBoundary text.toList r.site.span.stop
  range : r.range = (LineIndex.ofText text).range r.site.span

/-- Boundaries of a text are at positions in the same order. -/
theorem LineIndex.compare_position {text : String} {m n : Nat} (hm : IsBoundary text.toList m)
    (hn : IsBoundary text.toList n) :
    ((ofText text).position m).compare ((ofText text).position n) = compare m n := by
  obtain ⟨as, bs, happend, rfl⟩ := hm
  obtain ⟨as', bs', happend', rfl⟩ := hn
  rcases Nat.lt_trichotomy (byteLength as) (byteLength as') with hlt | heq | hgt
  · rw [Nat.compare_eq_lt.2 hlt]
    exact Position.compare_eq_lt_iff.2 (position_before happend happend' hlt)
  · rw [heq, Nat.compare_eq_eq.2 rfl]
    exact Position.compare_eq_eq_iff.2 rfl
  · rw [Nat.compare_eq_gt.2 hgt]
    apply Std.OrientedCmp.gt_of_lt
    exact Position.compare_eq_lt_iff.2 (position_before happend' happend hgt)

theorem Reference.InText.ahead_iff {r r' : Reference} {text : String} (h : r.InText text)
    (h' : r'.InText text) : r.range.Ahead r'.range ↔ r.site.span.Ahead r'.site.span := by
  have hincreasing : (r.range.start.compare r'.range.start).then
      (r.range.stop.compare r'.range.stop) = r.site.span.compare r'.site.span := by
    rw [h.range, h'.range, LineIndex.range, LineIndex.range,
      LineIndex.compare_position h.start h'.start, LineIndex.compare_position h.stop h'.stop]
    rfl
  have hapart : r.range.stop.precedes r'.range.start ↔ r.site.span.stop ≤ r'.site.span.start := by
    rw [h.range, h'.range, LineIndex.range, LineIndex.range, Position.precedes,
      LineIndex.compare_position h.stop h'.start]
    exact Nat.isLE_compare
  constructor
  · intro hahead
    exact ⟨hincreasing ▸ hahead.increasing, hapart.1 hahead.apart⟩
  · intro hahead
    exact ⟨hincreasing ▸ hahead.increasing, hapart.2 hahead.apart⟩

/-! ## One unit -/

section
variable {l : List (Span × Range)} {refs : List Reference} {u : UnitId} {newName : String}
  {uri : Uri} {edits : List TextEdit}

/-- Spans in order of which no two neighbours overlap are one behind the other. -/
theorem ahead_of_firstOverlap (hsorted : l.Pairwise fun a b => a.1.compare b.1 = .lt)
    (hforward : ∀ a ∈ l, a.1.start ≤ a.1.stop) (h : firstOverlap l = none) :
    l.Pairwise fun a b => a.1.Ahead b.1 := by
  induction l with
  | nil => exact .nil
  | cons a l ih =>
    obtain ⟨hfirst, hrest⟩ := List.pairwise_cons.1 hsorted
    cases l with
    | nil => exact List.pairwise_singleton _ _
    | cons b l =>
      rw [firstOverlap] at h
      split at h
      · cases h
      · rename_i hoverlap
        have hahead := ih hrest (fun c hc => hforward c (List.mem_cons_of_mem _ hc)) h
        have ha := hforward a List.mem_cons_self
        have hb := hforward b (List.mem_cons_of_mem _ List.mem_cons_self)
        -- The next span starts behind `a`, and all others behind the next.
        have hnext : a.1.stop ≤ b.1.start := by
          have hlt := hfirst b List.mem_cons_self
          rw [Span.compare, Ordering.then_eq_lt, Nat.compare_eq_lt, Nat.compare_eq_eq,
            Nat.compare_eq_lt] at hlt
          rw [Span.overlaps, decide_eq_true_eq] at hoverlap
          omega
        refine List.pairwise_cons.2 ⟨fun c hc => ⟨hfirst c hc, ?_⟩, hahead⟩
        rcases List.mem_cons.1 hc with rfl | hc
        · exact hnext
        · have hbehind := ((List.pairwise_cons.1 hahead).1 c hc).apart
          omega

/-- The references in a unit. -/
def refsIn (refs : List Reference) (u : UnitId) : List Reference :=
  refs.filter fun r => r.unit = u

theorem Reference.compare_site_of_unit_eq {r r' : Reference} (h : r.unit = r'.unit) :
    r.site.compare r'.site = r.site.span.compare r'.site.span := by
  obtain ⟨hmodule, hunit⟩ := UnitId.mk.inj h
  have hself : ∀ name : String, compare name name = .eq := fun _ => Std.ReflCmp.compare_self
  rw [Site.compare, hmodule, hunit, hself, hself]
  rfl

/-- The spans in a unit are in order if the sites are. -/
theorem pairwise_spans_refsIn (hsorted : Reference.SiteSorted refs) (u : UnitId) :
    (refsIn refs u).Pairwise fun r r' => r.site.span.compare r'.site.span = .lt := by
  refine (hsorted.filter _).imp_of_mem fun {r r'} hr hr' hlt => ?_
  have hunit : r.unit = u := of_decide_eq_true (List.mem_filter.1 hr).2
  have hunit' : r'.unit = u := of_decide_eq_true (List.mem_filter.1 hr').2
  rwa [Reference.compare_site_of_unit_eq (hunit.trans hunit'.symm)] at hlt

/-- The edit that gives a reference a new text. -/
def Reference.edit (newName : String) (r : Reference) : TextEdit := ⟨r.range, newName⟩

/-- **In one unit the references are replaced in order, and none overlaps another.** -/
theorem editsOf_refsIn (hsorted : Reference.SiteSorted refs)
    (h : editsOf uri (refsIn refs u) newName = .ok edits) :
    edits = (refsIn refs u).map (Reference.edit newName) ∧
      ((∀ r ∈ refsIn refs u, r.site.span.start ≤ r.site.span.stop) →
        (refsIn refs u).Pairwise fun r r' => r.site.span.Ahead r'.site.span) := by
  have hspans := pairwise_spans_refsIn hsorted u
  have hplaces : ((refsIn refs u).map fun r => (r.site.span, r.range)).Pairwise fun a b =>
      a.1.compare b.1 = .lt := List.pairwise_map.2 hspans
  -- Nothing is left to sort or to drop.
  have hplacesOf : placesOf (refsIn refs u) =
      (refsIn refs u).map fun r => (r.site.span, r.range) := by
    rw [placesOf, mergeSort_eq_of_perm Span.compare Prod.fst (.refl _) hplaces]
    exact dropEqualSpans_eq_self (hplaces.imp ne_of_compare_lt)
  rw [editsOf, hplacesOf] at h
  split at h
  · cases h
  · rename_i hoverlap
    refine ⟨?_, fun hforward => ?_⟩
    · rw [← Except.ok.inj h, List.map_map]
      rfl
    · have hahead := ahead_of_firstOverlap hplaces (List.forall_mem_map.2 hforward) hoverlap
      rwa [List.pairwise_map] at hahead

end

/-! ## Several units -/

section
variable {refs : List Reference} {a : Analysis} {newName : String} {uri : Uri}
  {edits : List TextEdit} {changes changes' : List (Uri × List TextEdit)}

theorem eraseDups_sublist {α : Type} [BEq α] : ∀ l : List α, l.eraseDups.Sublist l
  | [] => .slnil
  | a :: l => by
    rw [List.eraseDups_cons]
    exact ((eraseDups_sublist _).trans List.filter_sublist).cons_cons a
termination_by l => l.length
decreasing_by exact Nat.lt_succ_of_le (List.length_filter_le _ l)

/-- Of units with different names the sites are in the order of the names. -/
theorem Reference.compare_site_of_unit_ne {r r' q q' : Reference} (hr : r.unit = q.unit)
    (hr' : r'.unit = q'.unit) (hne : r.unit ≠ r'.unit) (h : q.site.compare q'.site = .lt) :
    r.site.compare r'.site = .lt := by
  obtain ⟨hmodule, hunit⟩ := UnitId.mk.inj hr
  obtain ⟨hmodule', hunit'⟩ := UnitId.mk.inj hr'
  rw [Site.compare, Ordering.then_eq_lt] at h ⊢
  rw [hmodule, hunit, hmodule', hunit']
  rcases h with h | ⟨heq, -⟩
  · exact .inl h
  · exfalso
    rw [Ordering.then_eq_eq] at heq
    have hname : q.site.module.name = q'.site.module.name :=
      Std.LawfulEqCmp.eq_of_compare heq.1
    have hunits : q.site.unit = q'.site.unit := Std.LawfulEqCmp.eq_of_compare heq.2
    apply hne
    rw [hr, hr', Reference.unit, Reference.unit, hunits,
      show q.site.module = q'.site.module from congrArg ModuleId.mk hname]

theorem mem_refsIn {r : Reference} {u : UnitId} : r ∈ refsIn refs u ↔ r ∈ refs ∧ r.unit = u := by
  rw [refsIn, List.mem_filter, decide_eq_true_eq]

/-- References in order are those of the units, one unit after the other. -/
theorem flatMap_refsIn (hsorted : Reference.SiteSorted refs) (p : UnitId → Bool) :
    ((unitsOf refs).filter p).flatMap (refsIn refs) = refs.filter fun r => p r.unit := by
  have hunits : (unitsOf refs).Pairwise fun u v =>
      ∀ r ∈ refsIn refs u, ∀ r' ∈ refsIn refs v, r.site.compare r'.site = .lt := by
    have hfound : (refs.map Reference.unit).Pairwise fun u v =>
        ∃ q q' : Reference, q.unit = u ∧ q'.unit = v ∧ q.site.compare q'.site = .lt :=
      List.pairwise_map.2 (hsorted.imp fun {q q'} h => ⟨q, q', rfl, rfl, h⟩)
    refine ((hfound.sublist (eraseDups_sublist _)).and (nodup_unitsOf refs)).imp ?_
    rintro u v ⟨⟨q, q', rfl, rfl, hlt⟩, hne⟩ r hr r' hr'
    have hr := (mem_refsIn.1 hr).2
    have hr' := (mem_refsIn.1 hr').2
    exact Reference.compare_site_of_unit_ne hr hr' (by rwa [hr, hr']) hlt
  have : Std.Antisymm fun r r' : Reference => r.site.compare r'.site = .lt :=
    ⟨fun _ _ h h' => absurd h' (Std.OrientedCmp.not_lt_of_lt h)⟩
  have : Std.Irrefl fun r r' : Reference => r.site.compare r'.site = .lt :=
    ⟨fun _ h => Std.OrientedCmp.not_lt_of_lt h h⟩
  have hparts : (((unitsOf refs).filter p).flatMap (refsIn refs)).Pairwise fun r r' =>
      r.site.compare r'.site = .lt :=
    List.pairwise_flatMap.2 ⟨fun u _ => hsorted.filter _, hunits.filter _⟩
  refine hparts.eq_of_mem_iff (hsorted.filter _) fun r => ?_
  rw [List.mem_flatMap, List.mem_filter]
  constructor
  · rintro ⟨u, hu, hr⟩
    obtain ⟨hmem, rfl⟩ := mem_refsIn.1 hr
    exact ⟨hmem, (List.mem_filter.1 hu).2⟩
  · rintro ⟨hr, hp⟩
    refine ⟨r.unit, List.mem_filter.2 ⟨?_, hp⟩, mem_refsIn.2 ⟨hr, rfl⟩⟩
    rw [unitsOf, List.mem_eraseDups]
    exact List.mem_map_of_mem hr

/-- The edits that are listed for a URI. -/
def editsAt (changes : List (Uri × List TextEdit)) (uri : Uri) : List TextEdit :=
  (changes.lookup uri).getD []

theorem editsAt_of_mem (hnodup : (changes.map Prod.fst).Nodup) (h : (uri, edits) ∈ changes) :
    editsAt changes uri = edits := by
  induction changes with
  | nil => cases h
  | cons c changes ih =>
    obtain ⟨u, es⟩ := c
    rw [List.map_cons, List.nodup_cons] at hnodup
    rw [editsAt, List.lookup_cons]
    rcases List.mem_cons.1 h with heq | hmem
    · cases heq
      rw [beq_self_eq_true]
      rfl
    · have hne : uri ≠ u := by
        intro heq
        apply hnodup.1
        exact List.mem_map.2 ⟨_, hmem, heq⟩
      rw [beq_false_of_ne hne]
      exact ih hnodup.2 hmem

theorem exists_mem_of_editsAt (h : editsAt changes uri ≠ []) :
    (uri, editsAt changes uri) ∈ changes := by
  rw [editsAt] at h ⊢
  cases hfind : changes.lookup uri with
  | none => exact absurd (by rw [hfind]; rfl) h
  | some edits =>
    obtain ⟨before, after, rfl, -⟩ := List.lookup_eq_some_iff.1 hfind
    exact List.mem_append_right _ List.mem_cons_self

/-- Edits are added behind those of the same URI. -/
theorem editsAt_addEdits (u uri : Uri) :
    editsAt (addEdits u edits changes) uri =
      editsAt changes uri ++ if u = uri then edits else [] := by
  induction changes with
  | nil =>
    rw [addEdits, editsAt, editsAt, List.lookup_cons]
    by_cases heq : u = uri
    · subst heq
      simp
    · simp [heq, beq_false_of_ne (Ne.symm heq)]
  | cons c changes ih =>
    obtain ⟨v, es⟩ := c
    rw [addEdits]
    by_cases hv : v = u
    · subst hv
      rw [if_pos rfl, editsAt, editsAt, List.lookup_cons, List.lookup_cons]
      by_cases heq : v = uri
      · subst heq
        simp
      · simp [heq, beq_false_of_ne (Ne.symm heq)]
    · rw [if_neg hv, editsAt, editsAt, List.lookup_cons, List.lookup_cons]
      by_cases heq : uri = v
      · subst heq
        simp [Ne.symm hv]
      · rw [beq_false_of_ne heq]
        exact ih

theorem uriOfUnit_eq_ok {u : UnitId} :
    a.uriOfUnit u = .ok uri ↔ a.config.layout.uriOf? u = some uri := by
  rw [Analysis.uriOfUnit]
  cases a.config.layout.uriOf? u <;> simp

/-- The references of several units are added in the order of the units. -/
theorem editsOfUnits_refsIn (hsorted : Reference.SiteSorted refs) {units : List UnitId}
    (h : editsOfUnits a refs newName units changes = .ok changes') (uri : Uri) :
    editsAt changes' uri = editsAt changes uri ++
      ((units.filter fun u => a.config.layout.uriOf? u = some uri).flatMap (refsIn refs)).map
        (Reference.edit newName) ∧
    ∀ u ∈ units, a.config.layout.uriOf? u = some uri →
      (∀ r ∈ refsIn refs u, r.site.span.start ≤ r.site.span.stop) →
        (refsIn refs u).Pairwise fun r r' => r.site.span.Ahead r'.site.span := by
  induction units generalizing changes with
  | nil =>
    cases h
    exact ⟨(List.append_nil _).symm, fun _ hu => nomatch hu⟩
  | cons u units ih =>
    rw [editsOfUnits] at h
    obtain ⟨found, hfound, h⟩ := Except.bind_eq_ok.1 h
    obtain ⟨edits, hedits, h⟩ := Except.bind_eq_ok.1 h
    obtain ⟨hrest, hahead⟩ := ih h
    obtain ⟨rfl, hfirst⟩ := editsOf_refsIn hsorted hedits
    rw [uriOfUnit_eq_ok] at hfound
    refine ⟨?_, fun v hv hvuri => ?_⟩
    · rw [hrest, editsAt_addEdits, List.append_assoc, List.filter_cons, hfound]
      by_cases heq : found = uri
      · subst heq
        simp
      · simp [heq]
    · rcases List.mem_cons.1 hv with rfl | hv
      · exact hfirst
      · exact hahead v hv hvuri

theorem nodup_editsOfUnits {units : List UnitId}
    (h : editsOfUnits a refs newName units changes = .ok changes')
    (hnodup : (changes.map Prod.fst).Nodup) : (changes'.map Prod.fst).Nodup := by
  induction units generalizing changes with
  | nil =>
    cases h
    exact hnodup
  | cons u units ih =>
    rw [editsOfUnits] at h
    obtain ⟨found, -, h⟩ := Except.bind_eq_ok.1 h
    obtain ⟨edits, -, h⟩ := Except.bind_eq_ok.1 h
    exact ih h (nodup_addEdits _ _ hnodup)

/-- A single reference in a unit overlaps nothing. -/
theorem editsOf_singleton (uri : Uri) (r : Reference) (newName : String) :
    editsOf uri [r] newName = .ok [r.edit newName] := by
  have hplaces : placesOf [r] = [(r.site.span, r.range)] := by
    rw [placesOf, List.map_singleton, List.mergeSort_singleton, dropEqualSpans,
      List.dropWhile_nil, dropEqualSpans]
  rw [editsOf, hplaces]
  rfl

/-- Units with a single reference each are renamed without conflict. -/
theorem exists_editsOfUnits (newName : String) (changes : List (Uri × List TextEdit))
    {units : List UnitId} (huris : ∀ u ∈ units, (a.config.layout.uriOf? u).isSome)
    (hone : ∀ u ∈ units, (refsIn refs u).length = 1) :
    ∃ changes', editsOfUnits a refs newName units changes = .ok changes' := by
  induction units generalizing changes with
  | nil => exact ⟨changes, rfl⟩
  | cons u units ih =>
    rw [List.forall_mem_cons] at huris hone
    obtain ⟨uri, huri⟩ := Option.isSome_iff_exists.1 huris.1
    obtain ⟨r, hr⟩ := List.length_eq_one_iff.1 hone.1
    obtain ⟨changes', h⟩ := ih (addEdits uri [r.edit newName] changes) huris.2 hone.2
    refine ⟨changes', ?_⟩
    rw [editsOfUnits, uriOfUnit_eq_ok.2 huri]
    have hedits : editsOf uri (refs.filter fun r => r.unit = u) newName =
        .ok [r.edit newName] := by
      rw [← editsOf_singleton uri r newName, ← hr]
      rfl
    simp only [Except.bind, hedits]
    exact h

end

namespace Occurrences

/-! ## The edits of a rename -/

variable {a : Analysis} {o : Occurrences} {newName : String} {uri : Uri} {edits : List TextEdit}
  {changes : List (Uri × List TextEdit)}

/-- The references to replace at a URI, in the order of their sites. -/
def refsAt (o : Occurrences) (l : Layout) (uri : Uri) : List Reference :=
  o.toRename.filter fun r => l.uriOf? r.unit = some uri

/-- **The edits of a file are those of the references there,** in the order of their sites. -/
theorem editsAt_renameEdit (h : o.renameEdit a newName = .ok ⟨some changes⟩) (uri : Uri) :
    editsAt changes uri = (o.refsAt a.config.layout uri).map (Reference.edit newName) := by
  obtain ⟨changes', hchanges, heq⟩ := Except.map_eq_ok.1 h
  cases heq
  rw [(editsOfUnits_refsIn (siteSorted_toRename o) hchanges uri).1,
    flatMap_refsIn (siteSorted_toRename o)]
  rfl

/-- **When the edits of a file are in order.** Every file has one list of edits. It is strictly
increasing and without overlap exactly if the references there that different units have are, one unit
after the other; so it is if the references at the URI are all in one unit. -/
theorem renameEdit_ahead_iff (textAt : Uri → String)
    (htext : ∀ uri, ∀ r ∈ o.refsAt a.config.layout uri, r.InText (textAt uri))
    (h : o.renameEdit a newName = .ok ⟨some changes⟩) :
    (changes.map Prod.fst).Nodup ∧ ∀ uri edits, (uri, edits) ∈ changes →
      edits = (o.refsAt a.config.layout uri).map (Reference.edit newName) ∧
      ((edits.Pairwise fun e f => e.range.Ahead f.range) ↔
        ∀ r ∈ o.refsAt a.config.layout uri, ∀ r' ∈ o.refsAt a.config.layout uri,
          r.unit ≠ r'.unit → r.site.compare r'.site = .lt → r.site.span.Ahead r'.site.span) := by
  have hsorted := siteSorted_toRename o
  obtain ⟨changes', hchanges, heq⟩ := Except.map_eq_ok.1 h
  cases heq
  have hnodup := nodup_editsOfUnits hchanges List.nodup_nil
  refine ⟨hnodup, fun uri edits hmem => ?_⟩
  have hedits : edits = (o.refsAt a.config.layout uri).map (Reference.edit newName) := by
    rw [← editsAt_of_mem hnodup hmem, editsAt_renameEdit h]
  have hrefs : Reference.SiteSorted (o.refsAt a.config.layout uri) := hsorted.filter _
  have hspans : (edits.Pairwise fun e f => e.range.Ahead f.range) ↔
      (o.refsAt a.config.layout uri).Pairwise fun r r' => r.site.span.Ahead r'.site.span := by
    rw [hedits, List.pairwise_map]
    exact List.Pairwise.iff_of_mem fun hr hr' => (htext uri _ hr).ahead_iff (htext uri _ hr')
  refine ⟨hedits, hspans.trans ⟨fun hahead r hr r' hr' _ => ?_, fun hunits => ?_⟩⟩
  · exact forall_of_increasing Site.compare Reference.site hrefs hahead hr hr'
  · refine hrefs.imp_of_mem fun {r r'} hr hr' hlt => ?_
    by_cases hunit : r.unit = r'.unit
    · -- References in one unit were checked for overlaps.
      obtain ⟨hmem, hat⟩ := List.mem_filter.1 hr
      have hmem' := (List.mem_filter.1 hr').1
      have hlisted : r.unit ∈ unitsOf o.toRename := by
        rw [unitsOf, List.mem_eraseDups]
        exact List.mem_map_of_mem hmem
      have hforward : ∀ q ∈ refsIn o.toRename r.unit, q.site.span.start ≤ q.site.span.stop := by
        intro q hq
        obtain ⟨hq, hqunit⟩ := mem_refsIn.1 hq
        exact (htext uri q (List.mem_filter.2 ⟨hq, by rwa [hqunit]⟩)).forward
      have hahead := (editsOfUnits_refsIn hsorted hchanges uri).2 r.unit hlisted
        (of_decide_eq_true hat) hforward
      exact forall_of_increasing Site.compare Reference.site (hsorted.filter _) hahead
        (mem_refsIn.2 ⟨hmem, rfl⟩) (mem_refsIn.2 ⟨hmem', hunit.symm⟩) hlt
    · exact hunits r hr r' hr' hunit hlt

/-! ## Two units at one path -/

open Workspace (ofFiles usualLayout)

/-- Where a reference is: its unit, its span and its range. -/
def placeKey (r : Reference) : UnitId × Span × Range := (r.unit, r.site.span, r.range)

/-- The edits at the places of a URI. -/
def editsOfKeys (keys : List (UnitId × Span × Range)) (l : Layout) (newName : String) (uri : Uri) :
    List TextEdit :=
  (keys.filter fun key => l.uriOf? key.1 = some uri).map fun key => ⟨key.2.2, newName⟩

/-- Single references in several units can be renamed, and their places tell the edits. -/
theorem exists_renameEdit {keys : List (UnitId × Span × Range)}
    (hkeys : o.toRename.map placeKey = keys)
    (huris : ∀ key ∈ keys, (a.config.layout.uriOf? key.1).isSome)
    (hone : ∀ key ∈ keys, (keys.filter fun other => other.1 = key.1).length = 1)
    (newName : String) :
    ∃ changes, o.renameEdit a newName = .ok ⟨some changes⟩ ∧
      ∀ uri, editsAt changes uri = editsOfKeys keys a.config.layout newName uri := by
  have hmem : ∀ u ∈ unitsOf o.toRename, ∃ key ∈ keys, key.1 = u := by
    intro u hu
    rw [unitsOf, List.mem_eraseDups, List.mem_map] at hu
    obtain ⟨r, hr, rfl⟩ := hu
    exact ⟨placeKey r, hkeys ▸ List.mem_map_of_mem hr, rfl⟩
  have huris' : ∀ u ∈ unitsOf o.toRename, (a.config.layout.uriOf? u).isSome := by
    intro u hu
    obtain ⟨key, hkey, rfl⟩ := hmem u hu
    exact huris key hkey
  have hone' : ∀ u ∈ unitsOf o.toRename, (refsIn o.toRename u).length = 1 := by
    intro u hu
    obtain ⟨key, hkey, rfl⟩ := hmem u hu
    rw [← hone key hkey, ← hkeys, List.filter_map, List.length_map]
    rfl
  obtain ⟨changes, hchanges⟩ := exists_editsOfUnits newName [] huris' hone'
  have hedit : o.renameEdit a newName = .ok ⟨some changes⟩ := by
    rw [renameEdit, hchanges]
    rfl
  refine ⟨changes, hedit, fun uri => ?_⟩
  rw [editsAt_renameEdit hedit, editsOfKeys, ← hkeys, List.filter_map, List.map_map]
  rfl

/-- The text of two units that call a function. -/
def twinText : String := "import lib; fn g(){lib:f();}"

/-- A function, and two units at one path that call it. -/
def twinFiles : List SourceFile :=
  [⟨⟨⟨"lib"⟩, "l.nav"⟩, "fn f(){}"⟩, ⟨⟨.current, "src/m/a.nav"⟩, twinText⟩,
    ⟨⟨⟨"m"⟩, "a.nav"⟩, twinText⟩]

/-- The calls in these units. -/
def twinCalls : Occurrences :=
  let call (u : UnitId) : Reference :=
    ⟨default, ⟨u.module, u.unit, ⟨23, 24⟩⟩, ⟨⟨0, 23⟩, ⟨0, 24⟩⟩, .usage⟩
  ⟨none, [], [call ⟨.current, "src/m/a.nav"⟩, call ⟨⟨"m"⟩, "a.nav"⟩]⟩

/-- The calls have one place, so the edits of their file are not in order. -/
theorem renameEdit_ahead_iff_twinCalls :
    let a := Analysis.ofGraph .empty
    let uri : Uri := ⟨"file:///workspace/src/m/a.nav"⟩
    ∃ changes edits,
      (∀ uri, ∀ r ∈ twinCalls.refsAt a.config.layout uri, r.InText twinText) ∧
      twinCalls.renameEdit a "h" = .ok ⟨some changes⟩ ∧ (uri, edits) ∈ changes ∧
      (changes.map Prod.fst).Nodup ∧
      edits = (twinCalls.refsAt a.config.layout uri).map (Reference.edit "h") ∧
      ((edits.Pairwise fun e f => e.range.Ahead f.range) ↔
        ∀ r ∈ twinCalls.refsAt a.config.layout uri, ∀ r' ∈ twinCalls.refsAt a.config.layout uri,
          r.unit ≠ r'.unit → r.site.compare r'.site = .lt →
            r.site.span.Ahead r'.site.span) := by
  intro a uri
  have htext : ∀ uri, ∀ r ∈ twinCalls.refsAt a.config.layout uri, r.InText twinText := by
    intro uri r hr
    have hcalls : ∀ r ∈ twinCalls.toRename,
        r.site.span = ⟨23, 24⟩ ∧ r.range = ⟨⟨0, 23⟩, ⟨0, 24⟩⟩ := by decide +kernel
    obtain ⟨hspan, hrange⟩ := hcalls r (List.mem_filter.1 hr).1
    refine ⟨?_, ?_, ?_, ?_⟩
    · rw [hspan]
      decide
    · rw [hspan]
      exact ⟨twinText.toList.take 23, twinText.toList.drop 23, by decide, by decide⟩
    · rw [hspan]
      exact ⟨twinText.toList.take 24, twinText.toList.drop 24, by decide, by decide⟩
    · rw [hspan, hrange]
      decide +kernel
  have huris : ∀ key ∈ twinCalls.toRename.map placeKey,
      (a.config.layout.uriOf? key.1).isSome := fun key _ =>
    Option.isSome_iff_exists.2 ⟨_, UnitId.uriOf?_eq key.1⟩
  obtain ⟨changes, hedit, hat⟩ :=
    exists_renameEdit (a := a) (o := twinCalls) rfl huris (by decide +kernel) "h"
  have hmem : (uri, editsAt changes uri) ∈ changes := by
    apply exists_mem_of_editsAt
    rw [hat]
    decide +kernel
  obtain ⟨hnodup, hedits⟩ := renameEdit_ahead_iff (fun _ => twinText) htext hedit
  exact ⟨changes, _, htext, hedit, hmem, hnodup, hedits uri _ hmem⟩

/-- **Edits of a file may repeat.** Renaming the function replaces the one call twice. -/
theorem not_ahead_twinFiles : ∃ changes edits,
    ((ofFiles twinFiles).serve ((ofFiles twinFiles).analysis.rename
      ⟨"file:///workspace/src/lib/l.nav"⟩ ⟨0, 3⟩ "h")).1 = .ok ⟨some changes⟩ ∧
    (⟨"file:///workspace/src/m/a.nav"⟩, edits) ∈ changes ∧
    ¬ edits.Nodup ∧ ¬ edits.Pairwise fun e f => e.range.Ahead f.range := by
  let d := (ofFiles twinFiles).session.documents
  let g := (ofFiles twinFiles).graph
  let start : Uri := ⟨"file:///workspace/src/lib/l.nav"⟩
  let uri : Uri := ⟨"file:///workspace/src/m/a.nav"⟩
  let keys : List (UnitId × Span × Range) :=
    [(⟨.current, "src/m/a.nav"⟩, ⟨23, 24⟩, ⟨⟨0, 23⟩, ⟨0, 24⟩⟩),
      (⟨⟨"lib"⟩, "l.nav"⟩, ⟨3, 4⟩, ⟨⟨0, 3⟩, ⟨0, 4⟩⟩),
      (⟨⟨"m"⟩, "a.nav"⟩, ⟨23, 24⟩, ⟨⟨0, 23⟩, ⟨0, 24⟩⟩)]
  -- What the rename finds, up to the edit that it makes of it.
  have hfound : ((Analysis.renameTargetIn d g start ⟨0, 3⟩).bind fun r => r.checkRename.bind fun _ =>
      Analysis.occurrencesIn d g r).toOption.any fun o =>
        decide (o.toRename.map placeKey = keys) := by decide +kernel
  obtain ⟨o, ho, hkeys⟩ := exists_ok_of_any hfound
  obtain ⟨r, hr, ho⟩ := Except.bind_eq_ok.1 ho
  obtain ⟨_, hcheck, ho⟩ := Except.bind_eq_ok.1 ho
  have huris : ∀ key ∈ keys, ((Analysis.ofGraph g).config.layout.uriOf? key.1).isSome :=
    fun key _ => Option.isSome_iff_exists.2 ⟨_, UnitId.uriOf?_eq key.1⟩
  obtain ⟨changes, hedit, hat⟩ :=
    exists_renameEdit (of_decide_eq_true hkeys) huris (by decide +kernel) "h"
  have hrename : Analysis.renameIn d g start ⟨0, 3⟩ "h" = .ok ⟨some changes⟩ := by
    have hname : checkNewName "h" = .ok () := by decide
    rw [Analysis.renameIn, hname, hr]
    simp only [Except.bind, hcheck, ho]
    exact hedit
  have hserve : ((ofFiles twinFiles).serve ((ofFiles twinFiles).analysis.rename start ⟨0, 3⟩
      "h")).1 = Analysis.renameIn d g start ⟨0, 3⟩ "h" :=
    (Workspace.isUsual_ofFiles twinFiles).serve_rename
  have hedits : editsAt changes uri = [⟨⟨⟨0, 23⟩, ⟨0, 24⟩⟩, "h"⟩, ⟨⟨⟨0, 23⟩, ⟨0, 24⟩⟩, "h"⟩] := by
    rw [hat]
    decide +kernel
  have hmem : (uri, editsAt changes uri) ∈ changes := by
    apply exists_mem_of_editsAt
    rw [hedits]
    exact List.cons_ne_nil _ _
  rw [hedits] at hmem
  refine ⟨changes, _, hserve.trans hrename, hmem, by decide, fun h => ?_⟩
  have hahead := (List.pairwise_cons.1 h).1 _ List.mem_cons_self
  exact absurd hahead.increasing (by decide)

end Occurrences

end Xref
