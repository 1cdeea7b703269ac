import Xref.Proofs.Navigation.Orders

/-!
# What a search has gathered

Cursors, definitions and usages can be entered in any order, with prunings anywhere between them.
Whatever is entered, the first cursor counts, and definitions and usages stay in the order of their
sites, one per site. From this follow the laws of adding, pruning and renaming
(`Occurrences.lawful_enterAll`): the occurrences to rename are at the sites of those to report, and
each site has the cursor before a definition and a definition before a usage.
-/

namespace Xref.Occurrences

/-! ## Entries -/

/-- What a search can be told. -/
inductive Entry where
  | cursor (r : Reference)
  | definition (r : Reference)
  | usage (r : Reference)
  | prune

/-- The reference that an entry offers as the cursor. -/
def Entry.cursor? : Entry → Option Reference
  | .cursor r => some r
  | _ => none

/-- Enters something. -/
def enter (o : Occurrences) : Entry → Occurrences
  | .cursor r => (o.setCursor r).2
  | .definition r => (o.addDefinition r).2
  | .usage r => (o.addUsage r).2
  | .prune => o.prune

/-- Enters several things, one after the other. -/
def enterAll (o : Occurrences) (entries : List Entry) : Occurrences := entries.foldl enter o

/-! ## The laws -/

/-- Whether a reference is equivalent to the cursor. -/
def Matches (o : Occurrences) (r : Reference) : Prop :=
  ∃ c ∈ o.cursor, r.symbol.isEquivalent c.symbol

/-- Whether a reference is the one that is renamed at its site: the cursor, a definition away from the
cursor, or a usage away from both. -/
def Leads (o : Occurrences) (r : Reference) : Prop :=
  r ∈ o.cursor ∨
    r ∈ o.definitions ∧ r.site ∉ o.cursor.toList.map Reference.site ∨
    r ∈ o.usages ∧ r.site ∉ o.cursor.toList.map Reference.site ∧
      r.site ∉ o.definitions.map Reference.site

/-- The laws of what has been gathered from several entries. -/
structure Lawful (o : Occurrences) (entries : List Entry) : Prop where
  /-- The cursor is the first one that was offered. -/
  cursor : o.cursor = (entries.findSome? Entry.cursor?).map fun r => r.withRole .cursor
  definitions : Reference.SiteSorted o.definitions
  usages : Reference.SiteSorted o.usages
  /-- Adding a definition answers `false` and changes nothing exactly if there is one at its site. -/
  definition_taken (r : Reference) :
    o.addDefinition r = (false, o) ↔ r.site ∈ o.definitions.map Reference.site
  definition_added (r : Reference) (h : r.site ∉ o.definitions.map Reference.site) :
    ∃ l, l.Perm (r.withRole .definition :: o.definitions) ∧
      o.addDefinition r = (true, { o with definitions := l })
  /-- Adding a usage answers `false` and changes nothing exactly if there is one at its site. -/
  usage_taken (r : Reference) :
    o.addUsage r = (false, o) ↔ r.site ∈ o.usages.map Reference.site
  usage_added (r : Reference) (h : r.site ∉ o.usages.map Reference.site) :
    ∃ l, l.Perm (r.withRole .usage :: o.usages) ∧ o.addUsage r = (true, { o with usages := l })
  /-- A pruning keeps the cursor, and of the others exactly those that are equivalent to it. -/
  pruned_cursor : o.prune.cursor = o.cursor
  pruned_definitions (r : Reference) : r ∈ o.prune.definitions ↔ r ∈ o.definitions ∧ o.Matches r
  pruned_usages (r : Reference) : r ∈ o.prune.usages ↔ r ∈ o.usages ∧ o.Matches r
  pruned_without_cursor (h : o.cursor = none) : o.prune.definitions = [] ∧ o.prune.usages = []
  prune_prune : o.prune.prune = o.prune
  /-- The occurrences to rename are in order, at the sites of those to report. -/
  toRename : Reference.SiteSorted o.toRename
  toRename_sites (s : Site) :
    s ∈ o.toRename.map Reference.site ↔ s ∈ (o.found true).map Reference.site
  /-- At each site the cursor comes before a definition, and a definition before a usage. -/
  toRename_leads (r : Reference) : r ∈ o.toRename ↔ o.Leads r

variable {o : Occurrences} {entries : List Entry} {r : Reference}

/-! ## Invariants -/

theorem cursor_enter (o : Occurrences) (e : Entry) :
    (o.enter e).cursor = o.cursor.or (e.cursor?.map fun r => r.withRole .cursor) := by
  cases e with
  | cursor r =>
    rw [enter, setCursor]
    cases hcursor : o.cursor <;> simp [Entry.cursor?, hcursor]
  | definition r | usage r => exact Option.or_none.symm
  | prune =>
    rw [enter, prune]
    cases hcursor : o.cursor <;> simp [Entry.cursor?]

theorem cursor_enterAll (o : Occurrences) (entries : List Entry) :
    (o.enterAll entries).cursor =
      o.cursor.or ((entries.findSome? Entry.cursor?).map fun r => r.withRole .cursor) := by
  induction entries generalizing o with
  | nil => exact Option.or_none.symm
  | cons e entries ih =>
    rw [enterAll, List.foldl_cons, ← enterAll, ih, cursor_enter, Option.or_assoc,
      List.findSome?_cons]
    cases e.cursor? <;> rfl

/-- Whether definitions and usages are in the order of their sites. -/
structure Sorted (o : Occurrences) : Prop where
  definitions : Reference.SiteSorted o.definitions
  usages : Reference.SiteSorted o.usages

theorem Sorted.empty : Sorted .empty := ⟨.nil, .nil⟩

/-- Every entry keeps the order. -/
theorem Sorted.enter (h : o.Sorted) (e : Entry) : (o.enter e).Sorted := by
  cases e with
  | cursor r =>
    rw [Occurrences.enter, setCursor]
    split
    · exact h
    · exact ⟨h.definitions, h.usages⟩
  | definition r => exact ⟨Reference.insertNew_sorted h.definitions, h.usages⟩
  | usage r => exact ⟨h.definitions, Reference.insertNew_sorted h.usages⟩
  | prune =>
    rw [Occurrences.enter, prune]
    split
    · exact ⟨.nil, .nil⟩
    · exact ⟨h.definitions.filter _, h.usages.filter _⟩

theorem Sorted.enterAll (h : o.Sorted) (entries : List Entry) : (o.enterAll entries).Sorted :=
  List.foldlRecOn entries _ h fun _ h e _ => h.enter e

/-! ## Adding -/

/-- A reference is refused, and nothing changes, exactly if its site is taken. -/
theorem insertNew_eq_iff {l : List Reference} (hl : Reference.SiteSorted l) :
    r.insertNew l = (false, l) ↔ r.site ∈ l.map Reference.site := by
  constructor
  · intro heq
    exact (Reference.insertNew_fst hl).1 (congrArg Prod.fst heq)
  · intro hmem
    exact Prod.ext ((Reference.insertNew_fst hl).2 hmem) (Reference.insertNew_eq hl hmem)

/-- A reference at a new site is put among the others. -/
theorem exists_insertNew {l : List Reference} (hl : Reference.SiteSorted l)
    (hnew : r.site ∉ l.map Reference.site) :
    ∃ l', l'.Perm (r :: l) ∧ r.insertNew l = (true, l') := by
  refine ⟨_, Reference.insertNew_perm hnew, Prod.ext ?_ rfl⟩
  rw [← Bool.not_eq_false, Reference.insertNew_fst hl]
  exact hnew

theorem addDefinition_eq_iff {answer : Bool} {l : List Reference} :
    o.addDefinition r = (answer, { o with definitions := l }) ↔
      (r.withRole .definition).insertNew o.definitions = (answer, l) := by
  simp [addDefinition, Prod.ext_iff]

theorem addUsage_eq_iff {answer : Bool} {l : List Reference} :
    o.addUsage r = (answer, { o with usages := l }) ↔
      (r.withRole .usage).insertNew o.usages = (answer, l) := by
  simp [addUsage, Prod.ext_iff]

/-! ## Pruning -/

theorem mem_definitions_prune : r ∈ o.prune.definitions ↔ r ∈ o.definitions ∧ o.Matches r := by
  unfold prune Matches
  cases o.cursor <;> simp

theorem mem_usages_prune : r ∈ o.prune.usages ↔ r ∈ o.usages ∧ o.Matches r := by
  unfold prune Matches
  cases o.cursor <;> simp

theorem prune_prune (o : Occurrences) : o.prune.prune = o.prune := by
  unfold prune
  cases o.cursor <;> simp

/-! ## Renaming -/

/-- Of several references the first one at each site is put in. -/
theorem mem_foldl_insertNew {rs l : List Reference} (hl : Reference.SiteSorted l) :
    r ∈ rs.foldl (fun found q => (q.insertNew found).2) l ↔
      r ∈ l ∨ r.site ∉ l.map Reference.site ∧ rs.find? (fun q => q.site = r.site) = some r := by
  induction rs generalizing l with
  | nil => simp
  | cons q rs ih =>
    rw [List.foldl_cons, ih (Reference.insertNew_sorted hl), List.find?_cons]
    by_cases htaken : q.site ∈ l.map Reference.site
    · rw [Reference.insertNew_eq hl htaken]
      by_cases hsite : q.site = r.site
      · rw [← hsite]
        simp [htaken]
      · simp [hsite]
    · have hperm := Reference.insertNew_perm htaken
      rw [hperm.mem_iff, (hperm.map Reference.site).mem_iff, List.map_cons, List.mem_cons,
        List.mem_cons]
      by_cases hsite : q.site = r.site
      · rw [hsite] at htaken
        simp [hsite, htaken, eq_comm, or_comm]
      · have hne : r ≠ q := fun heq => hsite (congrArg Reference.site heq.symm)
        simp [hsite, hne, Ne.symm hsite]

theorem mem_toRename_iff (h : o.Sorted) : r ∈ o.toRename ↔ o.Leads r := by
  have hcursor : o.cursor.toList.find? (fun q => q.site = r.site) = some r ↔ r ∈ o.cursor := by
    cases o.cursor with
    | none => simp
    | some c =>
      rw [Option.toList_some, List.find?_singleton]
      by_cases hsite : c.site = r.site
      · simp [hsite]
      · have hne : c ≠ r := fun heq => hsite (congrArg Reference.site heq)
        simp [hsite, hne]
  rw [toRename, mem_foldl_insertNew .nil, List.find?_append, List.find?_append, Option.or_eq_some_iff,
    Option.or_eq_some_iff, Option.or_eq_none_iff, hcursor, Reference.find?_site h.definitions,
    Reference.find?_site h.usages, Reference.find?_site_eq_none, Reference.find?_site_eq_none]
  simp [Leads, and_comm, or_assoc]

/-- The sites of the occurrences to report are those of the cursor, the definitions and the usages. -/
theorem mem_sites_found (o : Occurrences) (s : Site) :
    s ∈ (o.found true).map Reference.site ↔
      s ∈ (o.cursor.toList ++ o.definitions ++ o.usages).map Reference.site := by
  have hcursor : o.cursorIsDefinition → ∀ c ∈ o.cursor, c.site ∈ o.definitions.map Reference.site := by
    intro h c hc
    rw [cursorIsDefinition, hc, Option.any_some, List.any_eq_true] at h
    obtain ⟨d, hd, heq⟩ := h
    exact List.mem_map.2 ⟨d, hd, eq_of_beq heq⟩
  rw [found, if_pos rfl]
  simp only [List.map_append, List.mem_append]
  split
  · rename_i h
    have hsub : s ∈ o.cursor.toList.map Reference.site → s ∈ o.definitions.map Reference.site := by
      intro hs
      obtain ⟨c, hc, rfl⟩ := List.mem_map.1 hs
      exact hcursor h c (Option.mem_toList.1 hc)
    simp only [List.map_nil, List.not_mem_nil, or_false]
    exact or_congr_left (or_iff_right_of_imp hsub).symm
  · exact Iff.trans or_comm or_assoc.symm

theorem mem_sites_toRename (o : Occurrences) (s : Site) :
    s ∈ o.toRename.map Reference.site ↔
      s ∈ (o.cursor.toList ++ o.definitions ++ o.usages).map Reference.site := by
  rw [toRename]
  generalize o.cursor.toList ++ o.definitions ++ o.usages = rs
  constructor
  · intro hs
    obtain ⟨r, hr, rfl⟩ := List.mem_map.1 hs
    obtain ⟨⟨⟩⟩ | ⟨-, hfind⟩ := (mem_foldl_insertNew .nil).1 hr
    exact List.mem_map_of_mem (List.mem_of_find?_eq_some hfind)
  · intro hs
    obtain ⟨q, hq, rfl⟩ := List.mem_map.1 hs
    cases hr : rs.find? fun p => p.site = q.site with
    | none => exact absurd (List.find?_eq_none.1 hr q hq) (not_not.2 (decide_eq_true rfl))
    | some r =>
      have hsite : r.site = q.site := by simpa using List.find?_some hr
      rw [← hsite] at hr ⊢
      exact List.mem_map_of_mem ((mem_foldl_insertNew .nil).2 (.inr ⟨List.not_mem_nil, hr⟩))

/-! ## Any number of entries -/

/-- **What has been gathered obeys the laws,** whatever was entered. -/
theorem lawful_enterAll (entries : List Entry) : (enterAll .empty entries).Lawful entries := by
  have hsorted : (enterAll .empty entries).Sorted := Sorted.empty.enterAll entries
  generalize ho : enterAll .empty entries = o at hsorted
  exact {
    cursor := by rw [← ho, cursor_enterAll]; rfl
    definitions := hsorted.definitions
    usages := hsorted.usages
    definition_taken := fun r =>
      addDefinition_eq_iff.trans (insertNew_eq_iff hsorted.definitions)
    definition_added := fun r hnew => by
      obtain ⟨l, hperm, hadd⟩ :=
        exists_insertNew (r := r.withRole .definition) hsorted.definitions hnew
      exact ⟨l, hperm, addDefinition_eq_iff.2 hadd⟩
    usage_taken := fun r => addUsage_eq_iff.trans (insertNew_eq_iff hsorted.usages)
    usage_added := fun r hnew => by
      obtain ⟨l, hperm, hadd⟩ := exists_insertNew (r := r.withRole .usage) hsorted.usages hnew
      exact ⟨l, hperm, addUsage_eq_iff.2 hadd⟩
    pruned_cursor := by unfold prune; cases o.cursor <;> rfl
    pruned_definitions := fun r => mem_definitions_prune
    pruned_usages := fun r => mem_usages_prune
    pruned_without_cursor := fun h => by rw [prune, h]; exact ⟨rfl, rfl⟩
    prune_prune := prune_prune o
    toRename := siteSorted_toRename o
    toRename_sites := fun s => (mem_sites_toRename o s).trans (mem_sites_found o s).symm
    toRename_leads := fun r => mem_toRename_iff hsorted }

end Xref.Occurrences
