import Xref.Proofs.Project.Addresses

/-!
# Layouts and the way back

Under every layout, the unit at a path has this path (`Layout.components_pathOf_of_unitAt?`). A unit
whose names are steps is found again at its path (`Layout.unitAt?_pathOf`), and its URI, where it has
one, stands for this path. Paths are any bytes, and roots need not be absolute.
-/

namespace Xref

open PathComponent

/-- Whether the names of a unit and of its module are steps of a path. The module without a name
counts as well. -/
def UnitId.IsPlain (u : UnitId) : Prop :=
  (u.module = .current ∨ IsComponent u.module.name) ∧ IsComponent u.unit

instance (u : UnitId) : Decidable u.IsPlain := by unfold UnitId.IsPlain; infer_instance

namespace Layout

variable {l : Layout} {u v : UnitId} {p : FilePath}

/-! ## From paths to units -/

theorem eq_map_stepOf {steps : List PathComponent} {names : List String}
    (h : steps.mapM text? = some names) : steps = names.map stepOf := by
  induction steps generalizing names with
  | nil =>
    cases h
    rfl
  | cons step steps ih =>
    rw [List.mapM_cons] at h
    obtain ⟨name, hname, h⟩ := Option.bind_eq_some_iff.1 h
    obtain ⟨rest, hrest, h⟩ := Option.bind_eq_some_iff.1 h
    cases h
    rw [List.map_cons, ← eq_stepOf_of_text? hname, ← ih hrest]

/-- The steps of a path that stands for a unit. -/
theorem exists_names_of_unitAt? (h : l.unitAt? p = some u) :
    ∃ names : List String, p.components = l.root.components ++ names.map stepOf ∧
      (names = [u.unit] ∧ u.module = .current ∨ names = [l.modulesDir, u.module.name, u.unit]) := by
  cases hread : (p.stepsFrom? l.root).bind (·.mapM text?) with
  | none =>
    rw [Layout.unitAt?, hread] at h
    cases h
  | some names =>
    obtain ⟨steps, hsteps, hnames⟩ := Option.bind_eq_some_iff.1 hread
    refine ⟨names, ?_, ?_⟩
    · rw [← eq_map_stepOf hnames]
      unfold FilePath.stepsFrom? at hsteps
      split at hsteps
      · rename_i hprefix
        obtain ⟨rest, hrest⟩ := List.isPrefixOf_iff_prefix.1 hprefix
        rw [← hrest, List.drop_left] at hsteps
        rw [← Option.some.inj hsteps, hrest]
      · cases hsteps
    · rw [Layout.unitAt?, hread] at h
      split at h
      · rename_i unit hunit
        cases h
        exact .inl ⟨Option.some.inj hunit, rfl⟩
      · rename_i dir module unit hunit
        split at h
        · rename_i hdir
          cases h
          exact .inr (hdir ▸ Option.some.inj hunit)
        · cases h
      · cases h

/-- **A path stands for a unit exactly if it has the steps of the unit.** -/
theorem unitAt?_eq_some_iff :
    l.unitAt? p = some u ↔ p.components = l.root.components ++ l.steps u := by
  refine ⟨fun h => ?_, unitAt?_of_components⟩
  obtain ⟨names, hsteps, ⟨rfl, hcurrent⟩ | rfl⟩ := exists_names_of_unitAt? h
  · rw [hsteps, steps, hcurrent]
    rfl
  · -- A dot is no step, so the module has a name.
    have hmodule : (stepOf u.module.name).Proper := by
      refine FilePath.proper_of_mem_components (p := p) ?_
      rw [hsteps]
      exact List.mem_append_right _ (by simp [stepOf])
    have hcurrent : ¬u.module.isCurrent := by
      intro hcurrent
      rw [show u.module = .current by simpa [ModuleId.isCurrent] using hcurrent] at hmodule
      exact absurd hmodule.part (by decide)
    rw [hsteps, steps, if_neg hcurrent]
    rfl

/-- **The unit at a path has this path.** -/
theorem components_pathOf_of_unitAt? (h : l.unitAt? p = some u) :
    (l.pathOf u).components = p.components := by
  have hsteps := unitAt?_eq_some_iff.1 h
  have hproper : ∀ name, stepOf name ∈ l.steps u → (stepOf name).Proper := fun name hname =>
    FilePath.proper_of_mem_components (p := p) (hsteps ▸ List.mem_append_right _ hname)
  rw [hsteps]
  refine components_pathOf_of_proper (hproper _ ?_) fun hcurrent => ⟨hproper _ ?_, hproper _ ?_⟩
  · exact List.mem_append_right _ (List.mem_singleton_self _)
  · rw [steps, hcurrent]
    exact List.mem_cons_self
  · rw [steps, hcurrent]
    exact List.mem_cons_of_mem _ List.mem_cons_self

/-! ## From units to paths -/

/-- **A unit whose names are steps is found again at its path.** -/
theorem unitAt?_pathOf (hdir : IsComponent l.modulesDir) (hu : u.IsPlain) :
    l.unitAt? (l.pathOf u) = some u := by
  obtain ⟨hmodule, hunit⟩ := hu
  refine unitAt?_of_components (components_pathOf_of_proper hunit.proper fun hcurrent =>
    ⟨hdir.proper, (hmodule.resolve_left fun heq => ?_).proper⟩)
  rw [heq] at hcurrent
  cases hcurrent

theorem pathOf_injective (hdir : IsComponent l.modulesDir) (hu : u.IsPlain) (hv : v.IsPlain)
    (h : (l.pathOf u).sameAs (l.pathOf v)) : u = v := by
  have hsteps := unitAt?_eq_some_iff.1 (unitAt?_pathOf hdir hv)
  rw [← FilePath.sameAs_iff.1 h, ← unitAt?_eq_some_iff, unitAt?_pathOf hdir hu] at hsteps
  exact Option.some.inj hsteps

/-! ## From units to URIs and back -/

theorem uriOf?_isSome_iff (l : Layout) (u : UnitId) :
    (l.uriOf? u).isSome ↔ (l.pathOf u).isAbsolute := by
  rw [uriOf?, Uri.ofFile?]
  split_ifs with habsolute <;> simp [habsolute]

theorem toFile?_uriOf? {uri : Uri} (h : l.uriOf? u = some uri) :
    ∃ q, uri.toFile? = some q ∧ q.sameAs (l.pathOf u) := by
  have habsolute := (uriOf?_isSome_iff l u).1 (h ▸ rfl)
  obtain ⟨found, q, hfound, hq, hcomponents⟩ := Uri.toFile?_ofFile? habsolute
  cases h.symm.trans hfound
  exact ⟨q, hq, FilePath.sameAs_iff.2 hcomponents⟩

/-- **The addresses of units can be undone.** The unit at a path has this path. If the directory of
modules is one step, a unit whose names are steps is found again at its path, so two such units have
different paths. A unit has a URI if its path is absolute, and the URI stands for this path. -/
theorem addresses_undone (l : Layout) :
    (∀ p u, l.unitAt? p = some u → (l.pathOf u).sameAs p) ∧
    (IsComponent l.modulesDir → ∀ u : UnitId, u.IsPlain → l.unitAt? (l.pathOf u) = some u ∧
      ∀ v : UnitId, v.IsPlain → (l.pathOf u).sameAs (l.pathOf v) → u = v) ∧
    ∀ u, ((l.uriOf? u).isSome ↔ (l.pathOf u).isAbsolute) ∧
      ∀ uri, l.uriOf? u = some uri → ∃ q, uri.toFile? = some q ∧ q.sameAs (l.pathOf u) :=
  ⟨fun _ _ h => FilePath.sameAs_iff.2 (components_pathOf_of_unitAt? h),
    fun hdir _ hu => ⟨unitAt?_pathOf hdir hu, fun _ hv h => pathOf_injective hdir hu hv h⟩,
    fun u => ⟨uriOf?_isSome_iff l u, fun _ h => toFile?_uriOf? h⟩⟩

/-- A layout whose names cannot stand in a URI as they are. -/
def spaced : Layout := ⟨.ofText "/work//./my files/", "50% #modules"⟩

theorem addresses_undone_spaced :
    let u : UnitId := ⟨⟨"a:b"⟩, "é?.nav"⟩
    let p := FilePath.ofText "/work/my files/50% #modules/./a:b//é?.nav/"
    (spaced.unitAt? p = some u ∧ (spaced.pathOf u).sameAs p) ∧
    (IsComponent spaced.modulesDir ∧ u.IsPlain ∧ spaced.unitAt? (spaced.pathOf u) = some u ∧
      ∀ v : UnitId, v.IsPlain → (spaced.pathOf u).sameAs (spaced.pathOf v) → u = v) ∧
    (spaced.pathOf u).isAbsolute ∧ ∃ uri q, spaced.uriOf? u = some uri ∧
      uri.toFile? = some q ∧ q.sameAs (spaced.pathOf u) := by
  intro u p
  have hat : spaced.unitAt? p = some u := by decide +kernel
  have hdir : IsComponent spaced.modulesDir := by decide
  have hplain : u.IsPlain := by decide
  have habsolute : (spaced.pathOf u).isAbsolute := by decide
  obtain ⟨hpath, hunit, huri⟩ := addresses_undone spaced
  obtain ⟨uri, hsome⟩ := Option.isSome_iff_exists.1 ((huri u).1.2 habsolute)
  obtain ⟨q, hq, hsame⟩ := (huri u).2 uri hsome
  exact ⟨⟨hat, hpath p u hat⟩, ⟨hdir, hplain, hunit hdir u hplain⟩, habsolute, uri, q, hsome, hq,
    hsame⟩

end Layout

end Xref
