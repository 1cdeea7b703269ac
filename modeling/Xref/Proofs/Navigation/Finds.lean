import Xref.Proofs.Navigation.Orders

/-!
# What a search finds

A search comes across occurrences one after the other and files each as a definition, a usage or the
one under the cursor (`Occurrences.put`). If they are all at different sites then none is lost and
none is reported twice (`Filed.found_perm`, `Filed.toRename_perm`).
-/

namespace Xref

namespace Occurrences

/-- An occurrence that a search comes across. -/
structure Find where
  /-- Whether it is the declaration of its symbol. -/
  declared : Bool
  /-- Whether it is the one under the cursor. -/
  isCursor : Bool
  reference : Reference

namespace Find

/-- The site of an occurrence. -/
def site (f : Find) : Site := f.reference.site

/-- The role in which an occurrence is reported. -/
def foundRole (f : Find) : Role :=
  if f.declared then .definition else if f.isCursor then .cursor else .usage

/-- The role in which an occurrence is replaced. -/
def renameRole (f : Find) : Role :=
  if f.isCursor then .cursor else if f.declared then .definition else .usage

/-- An occurrence in a role. -/
def inRole (role : Find → Role) (f : Find) : Reference := f.reference.withRole (role f)

end Find

/-- Files an occurrence. -/
def put (o : Occurrences) (f : Find) : Occurrences :=
  if f.isCursor then
    ((if f.declared then (o.addDefinition f.reference).2 else o).setCursor f.reference).2
  else if f.declared then (o.addDefinition f.reference).2
  else (o.addUsage f.reference).2

/-- The occurrences that a search comes across in a unit. -/
def findsIn (u : BoundUnit) (target : Symbol) (cursor : Option NodeId) : List Find :=
  u.tree.root.preorder.filterMap fun n =>
    (occurrence? u (.ofText u.tree.text) target n).map fun found =>
      ⟨found.1, decide (cursor = some n.id), found.2⟩

theorem gather_eq (o : Occurrences) (u : BoundUnit) (target : Symbol) (cursor : Option NodeId) :
    o.gather u target cursor = (findsIn u target cursor).foldl put o := by
  rw [gather, findsIn]
  induction u.tree.root.preorder generalizing o with
  | nil => rfl
  | cons n ns ih =>
    rw [List.foldl_cons, ih, record, List.filterMap_cons]
    cases occurrence? u (.ofText u.tree.text) target n with
    | none => rfl
    | some found =>
      obtain ⟨declared, r⟩ := found
      rw [Option.map_some, List.foldl_cons]
      congr 1
      by_cases hcursor : cursor = some n.id
      · simp [put, hcursor]
      · simp [put, hcursor]

/-! ## Filing -/

section
variable {o : Occurrences} {f c : Find} {fs gs : List Find}

/-- Whether exactly the given occurrences have been filed, each once. -/
structure Filed (o : Occurrences) (fs : List Find) : Prop where
  definitions : o.definitions.Perm
    ((fs.filter fun f => f.declared).map fun f => f.reference.withRole .definition)
  usages : o.usages.Perm
    ((fs.filter fun f => !f.declared && !f.isCursor).map fun f => f.reference.withRole .usage)
  cursor : o.cursor = (fs.find? fun f => f.isCursor).map fun f => f.reference.withRole .cursor
  sortedDefinitions : Reference.SiteSorted o.definitions
  sortedUsages : Reference.SiteSorted o.usages

theorem Filed.empty : Filed .empty [] := ⟨.refl _, .refl _, rfl, .nil, .nil⟩

theorem definitions_put (o : Occurrences) (f : Find) : (o.put f).definitions =
    if f.declared then ((f.reference.withRole .definition).insertNew o.definitions).2
    else o.definitions := by
  unfold put setCursor
  cases f.isCursor <;> cases f.declared <;> cases hcursor : o.cursor <;>
    simp [addDefinition, addUsage, hcursor]

theorem usages_put (o : Occurrences) (f : Find) : (o.put f).usages =
    if !f.declared && !f.isCursor then ((f.reference.withRole .usage).insertNew o.usages).2
    else o.usages := by
  unfold put setCursor
  cases f.isCursor <;> cases f.declared <;> cases hcursor : o.cursor <;>
    simp [addDefinition, addUsage, hcursor]

theorem cursor_put (o : Occurrences) (f : Find) : (o.put f).cursor =
    o.cursor.or (if f.isCursor then some (f.reference.withRole .cursor) else none) := by
  unfold put setCursor
  cases f.isCursor <;> cases f.declared <;> cases hcursor : o.cursor <;>
    simp [addDefinition, addUsage, hcursor]

/-- An occurrence at a new site is put among those that `p` holds of if `p` holds of it. -/
theorem insertNew_filed {l : List Reference} {p : Find → Bool} {role : Role}
    (hl : l.Perm ((fs.filter p).map fun f => f.reference.withRole role))
    (h : f.site ∉ fs.map Find.site) :
    (if p f then ((f.reference.withRole role).insertNew l).2 else l).Perm
      (((fs ++ [f]).filter p).map fun f => f.reference.withRole role) := by
  rw [List.filter_append, List.map_append, List.filter_singleton]
  split
  · rename_i hp
    rw [hp, cond_true]
    have hnew : (f.reference.withRole role).site ∉ l.map Reference.site := by
      intro hmem
      rw [(hl.map Reference.site).mem_iff, List.map_map] at hmem
      obtain ⟨g, hg, heq⟩ := List.mem_map.1 hmem
      refine h (List.mem_map.2 ⟨g, (List.mem_filter.1 hg).1, heq⟩)
    refine (Reference.insertNew_perm hnew).trans ?_
    exact (List.perm_append_singleton _ _).symm.trans (hl.append_right _)
  · rename_i hp
    rw [Bool.not_eq_true] at hp
    rw [hp, cond_false, List.map_nil, List.append_nil]
    exact hl

/-- An occurrence at a new site is filed besides the others. -/
theorem Filed.put (ho : Filed o fs) (h : f.site ∉ fs.map Find.site) :
    Filed (o.put f) (fs ++ [f]) where
  definitions := definitions_put o f ▸ insertNew_filed ho.definitions h
  usages := usages_put o f ▸ insertNew_filed ho.usages h
  cursor := by
    rw [cursor_put, ho.cursor, List.find?_append, List.find?_singleton, Option.map_or]
    cases f.isCursor <;> rfl
  sortedDefinitions := by
    rw [definitions_put]
    split
    · exact Reference.insertNew_sorted ho.sortedDefinitions
    · exact ho.sortedDefinitions
  sortedUsages := by
    rw [usages_put]
    split
    · exact Reference.insertNew_sorted ho.sortedUsages
    · exact ho.sortedUsages

theorem Filed.foldl_put (ho : Filed o fs) (h : ((fs ++ gs).map Find.site).Nodup) :
    Filed (gs.foldl Occurrences.put o) (fs ++ gs) := by
  induction gs generalizing o fs with
  | nil => simpa using ho
  | cons g gs ih =>
    have happend : fs ++ g :: gs = fs ++ [g] ++ gs := by simp
    have hnew : g.site ∉ fs.map Find.site := by
      rw [List.map_append, List.nodup_append] at h
      exact fun hmem => h.2.2 _ hmem _ (by simp) rfl
    rw [happend] at h ⊢
    exact ih (ho.put hnew) h

/-! ## Reporting -/

/-- Occurrences at one site are the same occurrence. -/
theorem eq_of_site_eq (hsites : (fs.map Find.site).Nodup) {f g : Find} (hf : f ∈ fs) (hg : g ∈ fs)
    (h : f.site = g.site) : f = g :=
  List.inj_on_of_nodup_map hsites hf hg h

theorem mem_of_filter_eq (hc : fs.filter (fun f => f.isCursor) = [c]) : c ∈ fs ∧ c.isCursor := by
  have hmem : c ∈ fs.filter fun f => f.isCursor := hc ▸ List.mem_singleton_self c
  simpa using hmem

theorem isCursor_iff (hsites : (fs.map Find.site).Nodup)
    (hc : fs.filter (fun f => f.isCursor) = [c]) {f : Find} (hf : f ∈ fs) :
    f.isCursor ↔ f.site = c.site := by
  obtain ⟨hmem, hcursor⟩ := mem_of_filter_eq hc
  constructor
  · intro h
    have : f ∈ fs.filter fun f => f.isCursor := List.mem_filter.2 ⟨hf, h⟩
    rw [hc, List.mem_singleton] at this
    rw [this]
  · intro h
    rwa [eq_of_site_eq hsites hf hmem h]

theorem Filed.cursor_eq (ho : Filed o fs) (hc : fs.filter (fun f => f.isCursor) = [c]) :
    o.cursor = some (c.reference.withRole .cursor) := by
  rw [ho.cursor, ← List.head?_filter, hc]
  rfl

/-- The cursor is a definition exactly if it is the declaration of its symbol. -/
theorem Filed.cursorIsDefinition_eq (ho : Filed o fs) (hsites : (fs.map Find.site).Nodup)
    (hc : fs.filter (fun f => f.isCursor) = [c]) : o.cursorIsDefinition = c.declared := by
  obtain ⟨hmem, -⟩ := mem_of_filter_eq hc
  rw [cursorIsDefinition, ho.cursor_eq hc, Option.any_some, Bool.eq_iff_iff, List.any_eq_true]
  constructor
  · rintro ⟨r, hr, heq⟩
    obtain ⟨f, hf, rfl⟩ := List.mem_map.1 (ho.definitions.mem_iff.1 hr)
    obtain ⟨hf, hdeclared⟩ := List.mem_filter.1 hf
    have hsite : f.site = c.site := eq_of_beq heq
    rwa [← eq_of_site_eq hsites hf hmem hsite]
  · intro hdeclared
    refine ⟨c.reference.withRole .definition, ho.definitions.mem_iff.2 ?_, by simp [Reference.withRole]⟩
    exact List.mem_map.2 ⟨c, List.mem_filter.2 ⟨hmem, hdeclared⟩, rfl⟩

/-- Those of several occurrences that are no declarations are the usages and perhaps the cursor. -/
theorem Filed.usages_perm (ho : Filed o fs) (hc : fs.filter (fun f => f.isCursor) = [c]) :
    (o.usages ++ if c.declared then [] else [c.reference.withRole .cursor]).Perm
      ((fs.filter fun f => !f.declared).map (Find.inRole Find.foundRole)) := by
  have hsplit := (List.filter_append_perm (fun f => !f.isCursor)
    (fs.filter fun f => !f.declared)).map (Find.inRole Find.foundRole)
  rw [List.map_append, List.filter_filter, List.filter_filter] at hsplit
  refine .trans (.append ?_ (.of_eq ?_)) hsplit
  · refine ho.usages.trans (.of_eq ?_)
    have hcomm : (fun f : Find => !f.isCursor && !f.declared) =
        fun f => !f.declared && !f.isCursor := funext fun f => Bool.and_comm _ _
    rw [hcomm]
    refine List.map_congr_left fun f hf => ?_
    have hf := (List.mem_filter.1 hf).2
    rw [Bool.and_eq_true, Bool.not_eq_true', Bool.not_eq_true'] at hf
    simp [Find.inRole, Find.foundRole, hf.1, hf.2]
  · have hcursor : (fs.filter fun f => !!f.isCursor && !f.declared) =
        (fs.filter fun f => f.isCursor).filter fun f => !f.declared := by
      rw [List.filter_filter]
      exact List.filter_congr fun f _ => by rw [Bool.not_not, Bool.and_comm]
    rw [hcursor, hc, List.filter_singleton]
    have := (mem_of_filter_eq hc).2
    cases hdeclared : c.declared <;> simp [Find.inRole, Find.foundRole, hdeclared, this]

/-- **Nothing is lost and nothing is reported twice:** with definitions every occurrence is
reported, without them every one that is no declaration. -/
theorem Filed.found_perm (ho : Filed o fs) (hsites : (fs.map Find.site).Nodup)
    (hc : fs.filter (fun f => f.isCursor) = [c]) (withDefinitions : Bool) :
    (o.found withDefinitions).Perm
      ((fs.filter fun f => withDefinitions || !f.declared).map (Find.inRole Find.foundRole)) := by
  have husages := ho.usages_perm hc
  rw [found, ho.cursorIsDefinition_eq hsites hc, ho.cursor_eq hc]
  cases withDefinitions with
  | false => simpa using husages
  | true =>
    have hdefinitions : o.definitions.Perm
        ((fs.filter fun f => f.declared).map (Find.inRole Find.foundRole)) := by
      refine ho.definitions.trans (.of_eq (List.map_congr_left fun f hf => ?_))
      have hf : f.declared = true := by simpa using (List.mem_filter.1 hf).2
      simp [Find.inRole, Find.foundRole, hf]
    have hsplit := (List.filter_append_perm (fun f => f.declared) fs).map
      (Find.inRole Find.foundRole)
    rw [List.map_append] at hsplit
    have hall := (hdefinitions.append husages).trans hsplit
    rw [← List.append_assoc] at hall
    simpa using hall

/-! ## Replacing -/

/-- Of references at several sites, those at new sites are put among the others. -/
theorem foldl_insertNew {rs l : List Reference} (hl : Reference.SiteSorted l)
    (hrs : (rs.map Reference.site).Nodup) :
    (rs.foldl (fun found r => (r.insertNew found).2) l).Perm
      (l ++ rs.filter fun r => decide (r.site ∉ l.map Reference.site)) := by
  induction rs generalizing l with
  | nil => simp
  | cons r rs ih =>
    obtain ⟨hr, hrs⟩ := List.nodup_cons.1 hrs
    rw [List.foldl_cons]
    refine (ih (Reference.insertNew_sorted hl) hrs).trans ?_
    by_cases hmem : r.site ∈ l.map Reference.site
    · rw [Reference.insertNew_eq hl hmem, List.filter_cons, if_neg (by simpa using hmem)]
    · have hperm := Reference.insertNew_perm hmem
      have hfilter : (rs.filter fun q => decide (q.site ∉ (r.insertNew l).2.map Reference.site)) =
          rs.filter fun q => decide (q.site ∉ l.map Reference.site) := by
        refine List.filter_congr fun q hq => ?_
        have hne : q.site ≠ r.site := fun heq => hr (heq ▸ List.mem_map_of_mem hq)
        rw [Bool.eq_iff_iff, decide_eq_true_eq, decide_eq_true_eq, (hperm.map Reference.site).mem_iff,
          List.map_cons, List.mem_cons]
        simp only [hne, false_or]
      rw [hfilter, List.filter_cons, if_pos (by simpa using hmem)]
      exact (hperm.append_right _).trans List.perm_middle.symm

/-- What is left of a list of occurrences once the one at the site of the cursor is left out. -/
theorem filter_others_perm (hsites : (fs.map Find.site).Nodup)
    (hc : fs.filter (fun f => f.isCursor) = [c]) {p : Find → Bool} {role : Role}
    {l : List Reference} (hl : l.Perm ((fs.filter p).map fun f => f.reference.withRole role)) :
    (l.filter fun r => decide (r.site ∉ [c.reference.withRole .cursor].map Reference.site)).Perm
      ((fs.filter fun f => p f && !f.isCursor).map fun f => f.reference.withRole role) := by
  refine (hl.filter _).trans (.of_eq ?_)
  rw [List.filter_map, List.filter_filter]
  refine congrArg _ (List.filter_congr fun f hf => ?_)
  rw [Bool.eq_iff_iff]
  have hsite : (f.reference.withRole role).site = f.site := rfl
  have hcursor : (c.reference.withRole .cursor).site = c.site := rfl
  simp only [Function.comp_apply, List.map_cons, List.map_nil, List.mem_singleton, hsite, hcursor,
    Bool.and_eq_true, decide_eq_true_eq, Bool.not_eq_true', ← Bool.not_eq_true,
    isCursor_iff hsites hc hf]
  exact and_comm

/-- The sites of the definitions and of the usages are all different. -/
theorem Filed.nodup_sites (ho : Filed o fs) (hsites : (fs.map Find.site).Nodup) :
    ((o.definitions ++ o.usages).map Reference.site).Nodup := by
  have hall := ho.definitions.append ho.usages
  rw [(hall.map Reference.site).nodup_iff, List.map_append, List.map_map, List.map_map,
    List.nodup_append]
  refine ⟨hsites.sublist (List.filter_sublist.map _), hsites.sublist (List.filter_sublist.map _), ?_⟩
  intro a ha b hb heq
  obtain ⟨f, hf, rfl⟩ := List.mem_map.1 ha
  obtain ⟨g, hg, rfl⟩ := List.mem_map.1 hb
  obtain ⟨hf, hfdeclared⟩ := List.mem_filter.1 hf
  obtain ⟨hg, hgdeclared⟩ := List.mem_filter.1 hg
  rw [eq_of_site_eq hsites hf hg heq] at hfdeclared
  rw [hfdeclared] at hgdeclared
  cases hgdeclared

/-- **Every occurrence is replaced once.** -/
theorem Filed.toRename_perm (ho : Filed o fs) (hsites : (fs.map Find.site).Nodup)
    (hc : fs.filter (fun f => f.isCursor) = [c]) :
    o.toRename.Perm (fs.map (Find.inRole Find.renameRole)) := by
  have hstart : Reference.SiteSorted [c.reference.withRole .cursor] := List.pairwise_singleton _ _
  rw [toRename, ho.cursor_eq hc, Option.toList_some, List.append_assoc, List.singleton_append,
    List.foldl_cons]
  refine (foldl_insertNew hstart (ho.nodup_sites hsites)).trans ?_
  rw [List.filter_append]
  have hsplit := (List.filter_append_perm (fun f => f.isCursor) fs).map (Find.inRole Find.renameRole)
  rw [List.map_append, hc] at hsplit
  refine .trans (.append (.of_eq ?_) ?_) hsplit
  · have := (mem_of_filter_eq hc).2
    simp [Find.inRole, Find.renameRole, this]
  · have hothers := (List.filter_append_perm (fun f => f.declared)
      (fs.filter fun f => !f.isCursor)).map (Find.inRole Find.renameRole)
    rw [List.map_append, List.filter_filter, List.filter_filter] at hothers
    refine .trans (.append ((filter_others_perm hsites hc ho.definitions).trans (.of_eq ?_))
      ((filter_others_perm hsites hc ho.usages).trans (.of_eq ?_))) hothers
    · refine List.map_congr_left fun f hf => ?_
      have hf := (List.mem_filter.1 hf).2
      rw [Bool.and_eq_true, Bool.not_eq_true'] at hf
      simp [Find.inRole, Find.renameRole, hf.1, hf.2]
    · have hsame : (fun f : Find => (!f.declared && !f.isCursor) && !f.isCursor) =
          fun f => !f.declared && !f.isCursor := funext fun f => by
        rw [Bool.and_assoc, Bool.and_self]
      rw [hsame]
      refine List.map_congr_left fun f hf => ?_
      have hf := (List.mem_filter.1 hf).2
      rw [Bool.and_eq_true, Bool.not_eq_true', Bool.not_eq_true'] at hf
      simp [Find.inRole, Find.renameRole, hf.1, hf.2]

/-- A pruning keeps all that is equivalent to the cursor. -/
theorem Filed.prune_eq (ho : Filed o fs) (hc : fs.filter (fun f => f.isCursor) = [c])
    (h : ∀ f ∈ fs, f.reference.symbol.isEquivalent c.reference.symbol) : o.prune = o := by
  have hkeep : ∀ {p : Find → Bool} {role : Role} {l : List Reference},
      l.Perm ((fs.filter p).map fun f => f.reference.withRole role) →
      (l.filter fun r => r.symbol.isEquivalent c.reference.symbol) = l := by
    intro p role l hl
    refine List.filter_eq_self.2 fun r hr => ?_
    obtain ⟨f, hf, rfl⟩ := List.mem_map.1 (hl.mem_iff.1 hr)
    exact h f (List.mem_filter.1 hf).1
  rw [prune, ho.cursor_eq hc]
  have hdefinitions := hkeep ho.definitions
  have husages := hkeep ho.usages
  obtain ⟨cursor, definitions, usages⟩ := o
  obtain rfl : cursor = _ := ho.cursor_eq hc
  exact congrArg₂ (Occurrences.mk _) hdefinitions husages

end

end Occurrences

end Xref
