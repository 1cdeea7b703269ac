import Xref.Proofs.Project.Projects

/-!
# Paths that are texts

The documents of a workspace lie at paths that are texts (`Workspace.isWritten_of_get?`). The unit at
such a path has the path back, whatever its names are (`UnitId.components_of_unitAt?`).
-/

namespace Xref

open PathComponent
open Workspace (usualLayout)

namespace FilePath

/-- Whether the steps of a path are those of a text. -/
def IsWritten (p : FilePath) : Prop := ∃ s, p.components = (ofText s).components

/-- A character without a slash is put in front of the first part. -/
theorem splitSlashes_append {as bs part : List UInt8} {rest : List (List UInt8)}
    (has : slash ∉ as) (h : splitSlashes bs = part :: rest) :
    splitSlashes (as ++ bs) = (as ++ part) :: rest := by
  induction as with
  | nil => exact h
  | cons a as ih =>
    rw [List.mem_cons, not_or] at has
    exact splitSlashes_cons (Ne.symm has.1) (ih has.2)

/-- The parts of a text between slashes are texts. -/
theorem exists_encode_of_mem {cs : List Char} {part : List UInt8}
    (h : part ∈ splitSlashes (Text.encode cs)) : ∃ ds, part = Text.encode ds := by
  induction cs generalizing part with
  | nil => exact ⟨[], List.mem_singleton.1 h⟩
  | cons c cs ih =>
    rw [Text.encode_cons] at h
    by_cases hc : c = '/'
    · subst hc
      rcases List.mem_cons.1 (show part ∈ [] :: splitSlashes (Text.encode cs) from h) with rfl | h
      · exact ⟨[], rfl⟩
      · exact ih h
    · obtain ⟨first, rest, hparts⟩ := List.exists_cons_of_ne_nil (splitSlashes_ne_nil (Text.encode cs))
      have hslash : slash ∉ String.utf8EncodeChar c := fun h => hc (eq_slash_of_mem_utf8EncodeChar h)
      rw [splitSlashes_append hslash hparts] at h
      rw [hparts] at ih
      rcases List.mem_cons.1 h with rfl | h
      · obtain ⟨ds, rfl⟩ := ih List.mem_cons_self
        exact ⟨c :: ds, rfl⟩
      · exact ih (List.mem_cons_of_mem _ h)

theorem ofPart?_ne_root {part : List UInt8} : ofPart? part ≠ some root := by
  unfold ofPart?
  split
  · exact nofun
  · split_ifs <;> exact nofun

/-- A path that starts at the root is absolute. -/
theorem isAbsolute_of_head? {p : FilePath} (h : p.components.head? = some root) :
    p.isAbsolute := by
  by_contra hrelative
  rw [components, if_neg hrelative] at h
  split at h
  · cases h
  · obtain ⟨part, -, hpart⟩ := List.mem_filterMap.1 (List.mem_of_mem_head? h)
    exact ofPart?_ne_root hpart

/-- A step of a text that is a name is the step by this name. -/
theorem eq_stepOf {s name : String} {step : PathComponent} (h : step ∈ (ofText s).components)
    (hname : step.text? = some name) : step = stepOf name := by
  have hpart : ∃ part ∈ splitSlashes (Text.encode s.toList), ofPart? part = some step := by
    rw [components, List.mem_append] at h
    rcases h with h | h
    · split_ifs at h
      · cases List.mem_singleton.1 h
        cases hname
      · cases List.mem_singleton.1 h
        cases hname
      · cases h
    · exact List.mem_filterMap.1 h
  obtain ⟨part, hpart, hstep⟩ := hpart
  obtain ⟨ds, rfl⟩ := exists_encode_of_mem hpart
  have hbytes := bytes_of_ofPart? hstep
  cases step with
  | name bs =>
    obtain rfl : bs = Text.encode ds := hbytes
    have htext := text?_stepOf (String.ofList ds)
    rw [stepOf, String.toList_ofList] at htext
    rw [hname] at htext
    rw [Option.some.inj htext, stepOf, String.toList_ofList]
  | root => cases hname
  | current => cases hname
  | parent => cases hname

theorem exists_join_eq (a b : String) : ∃ s, (ofText a).join (ofText b) = ofText s := by
  have hbytes : ∀ (s t : String), (ofText (s ++ t)).bytes = (ofText s).bytes ++ (ofText t).bytes :=
    fun s t => by rw [ofText, String.toList_append, Text.encode_append]; rfl
  unfold join
  split
  · exact ⟨b, rfl⟩
  · split
    · exact ⟨a ++ b, by rw [← hbytes]⟩
    · have hslash : (ofText ("/" ++ b)).bytes = slash :: (ofText b).bytes := hbytes "/" b
      exact ⟨a ++ ("/" ++ b), by rw [← hslash, ← hbytes]⟩

end FilePath

namespace UnitId

variable {u : UnitId} {path : FilePath}

theorem isWritten_pathOf (u : UnitId) : (usualLayout.pathOf u).IsWritten := by
  have hroot : usualLayout.root = .ofText "/workspace" := rfl
  unfold Layout.pathOf
  rw [hroot]
  split
  · obtain ⟨s, hs⟩ := FilePath.exists_join_eq "/workspace" u.unit
    exact ⟨s, by rw [hs]⟩
  · obtain ⟨dir, hdir⟩ := FilePath.exists_join_eq "/workspace" usualLayout.modulesDir
    obtain ⟨module, hmodule⟩ := FilePath.exists_join_eq dir u.module.name
    obtain ⟨s, hs⟩ := FilePath.exists_join_eq module u.unit
    exact ⟨s, by rw [hdir, hmodule, hs]⟩

theorem eq_map_stepOf {steps : List PathComponent} {names : List String}
    (hsteps : ∀ step ∈ steps, ∀ name, step.text? = some name → step = stepOf name)
    (h : steps.mapM text? = some names) : steps = names.map stepOf := by
  induction steps generalizing names with
  | nil =>
    cases h
    rfl
  | cons step steps ih =>
    rw [List.forall_mem_cons] at hsteps
    rw [List.mapM_cons] at h
    obtain ⟨name, hname, h⟩ := Option.bind_eq_some_iff.1 h
    obtain ⟨rest, hrest, h⟩ := Option.bind_eq_some_iff.1 h
    cases h
    rw [List.map_cons, ← hsteps.1 name hname, ← ih hsteps.2 hrest]

/-- Behind the root of the workspace, a path that is a text has steps that are texts, and no dots. -/
theorem exists_steps {steps : List PathComponent} (hwritten : path.IsWritten)
    (hread : path.stepsFrom? usualLayout.root = some steps) :
    path.components = root :: stepOf "workspace" :: steps ∧ (∀ step ∈ steps, step.Proper) ∧
      ∀ step ∈ steps, ∀ name, step.text? = some name → step = stepOf name := by
  obtain ⟨s, hs⟩ := hwritten
  rw [FilePath.stepsFrom?, components_root] at hread
  obtain ⟨hroot, hsteps⟩ := Option.ite_none_right_eq_some.1 hread
  obtain ⟨behind, hbehind⟩ := List.isPrefixOf_iff_prefix.1 hroot
  obtain rfl : behind = steps := by
    rw [← hbehind] at hsteps
    exact Option.some.inj hsteps
  have habsolute : (FilePath.ofText s).isAbsolute := by
    refine FilePath.isAbsolute_of_head? ?_
    rw [← hs, ← hbehind]
    rfl
  obtain ⟨bs, hbs⟩ := FilePath.isAbsolute_iff.1 habsolute
  refine ⟨hbehind.symm, fun step hstep => ?_, fun step hstep name hname => ?_⟩
  · suffices h : step ∈ (FilePath.mk (slash :: bs)).components.drop 1 from
      FilePath.proper_of_mem_filterMap h
    rw [show FilePath.mk (slash :: bs) = FilePath.ofText s from congrArg FilePath.mk hbs.symm,
      ← hs, ← hbehind]
    exact List.mem_cons_of_mem _ hstep
  · refine FilePath.eq_stepOf (s := s) ?_ hname
    rw [← hs, ← hbehind]
    exact List.mem_append_right _ hstep

/-- **The unit at a path that is a text has this path.** -/
theorem components_of_unitAt? (hwritten : path.IsWritten)
    (h : usualLayout.unitAt? path = some u) :
    (usualLayout.pathOf u).components = path.components := by
  obtain ⟨steps, hread⟩ : ∃ steps, path.stepsFrom? usualLayout.root = some steps := by
    rw [Layout.unitAt?] at h
    cases hread : path.stepsFrom? usualLayout.root with
    | none => rw [hread] at h; cases h
    | some steps => exact ⟨steps, rfl⟩
  obtain ⟨hsteps, hproper, hname⟩ := exists_steps hwritten hread
  rw [Layout.unitAt?, hread, Option.bind_some] at h
  cases hnames : steps.mapM text? with
  | none => rw [hnames] at h; cases h
  | some names =>
    obtain rfl := eq_map_stepOf hname hnames
    rw [hnames] at h
    suffices hu : u.steps = root :: stepOf "workspace" :: names.map stepOf ∧
        (stepOf u.unit).Proper ∧ (u.module.isCurrent = false → (stepOf u.module.name).Proper) by
      have hdir : IsComponent usualLayout.modulesDir := by decide
      rw [Layout.components_pathOf_of_proper hu.2.1 fun hcurrent => ⟨hdir.proper, hu.2.2 hcurrent⟩,
        ← steps_eq, hu.1, ← hsteps]
    split at h
    · rename_i unit hunit
      cases Option.some.inj hunit
      cases h
      exact ⟨rfl, hproper _ List.mem_cons_self, fun h => absurd rfl (ne_true_of_eq_false h)⟩
    · rename_i dir module unit hunit
      cases Option.some.inj hunit
      split at h
      · rename_i hdir
        subst hdir
        cases h
        have hmodule : (stepOf module).Proper := hproper _ (by simp)
        -- A dot is no step.
        have hcurrent : ModuleId.isCurrent ⟨module⟩ = false := by
          rw [Bool.eq_false_iff]
          intro hcurrent
          rw [show module = "." by simpa [ModuleId.isCurrent, ModuleId.current] using hcurrent]
            at hmodule
          exact absurd hmodule.part (by decide)
        refine ⟨?_, hproper _ (by simp), fun _ => hmodule⟩
        rw [steps, hcurrent]
        rfl
      · cases h
    · cases h

end UnitId

namespace Workspace

/-- The documents of a workspace lie at paths that are texts. -/
theorem isWritten_of_get? {files : List SourceFile} {path : FilePath} {text : String}
    (h : (ofFiles files).session.documents.get? path = some text) : path.IsWritten := by
  rcases get?_documentsOf files .empty path with ⟨hnone, -⟩ | ⟨f, -, hsame, -⟩
  · cases hnone.symm.trans h
  · obtain ⟨s, hs⟩ := UnitId.isWritten_pathOf f.unit
    exact ⟨s, (FilePath.sameAs_iff.1 hsame).symm.trans hs⟩

end Workspace

end Xref
