import Mathlib.Data.List.Nodup
import Xref.Proofs.Project.Addresses

/-!
# The module graph of several files

A graph searches every module once (`ModuleGraph.nodup_searchScope`), since its modules have different
names and none imports itself. The graph of several files lists exactly the units that there are files
for (`lists_graphOf`), and every module imports what its files import (`gathered_graphOf`).
-/

namespace Xref

namespace ModuleGraph

variable {g : ModuleGraph} {m : Module} {ms : List Module} {owner : ModuleId}

/-- Whether a unit is listed in the graph. -/
def Lists (g : ModuleGraph) (u : UnitId) : Prop := u.unit ∈ g.unitsOf u.module

instance (g : ModuleGraph) (u : UnitId) : Decidable (g.Lists u) := by unfold Lists; infer_instance

theorem get?_eq_some (hm : m ∈ g.modules) : g.get? m.id = some m := by
  have hids := g.nodup_ids
  rw [get?, List.find?_eq_some_iff_append]
  obtain ⟨as, bs, happend⟩ := List.append_of_mem hm
  refine ⟨by simp, as, bs, happend, fun a ha => ?_⟩
  rw [happend, List.map_append, List.nodup_append] at hids
  have hne := hids.2.2 a.id (List.mem_map_of_mem ha) m.id (by simp)
  simpa using hne

theorem mem_of_get? {id : ModuleId} (h : g.get? id = some m) :
    m ∈ g.modules ∧ m.id = id :=
  ⟨List.mem_of_find?_eq_some h, by simpa using List.find?_some h⟩

theorem exists_module_of_lists {u : UnitId} (h : g.Lists u) :
    ∃ m ∈ g.modules, m.id = u.module ∧ u.unit ∈ m.units := by
  rw [Lists, unitsOf] at h
  split at h
  · rename_i m hget
    obtain ⟨hm, hid⟩ := mem_of_get? hget
    exact ⟨m, hm, hid, h⟩
  · cases h

/-- A unit is listed if its module has it. -/
theorem lists_iff {u : UnitId} :
    g.Lists u ↔ ∃ m ∈ g.modules, m.id = u.module ∧ u.unit ∈ m.units := by
  refine ⟨exists_module_of_lists, ?_⟩
  rintro ⟨m, hm, hid, hu⟩
  rw [Lists, unitsOf, ← hid, get?_eq_some hm]
  exact hu

theorem insertInto_append (h : m.id ∉ ms.map Module.id) : insertInto m ms = ms ++ [m] := by
  induction ms with
  | nil => rfl
  | cons n ms ih =>
    rw [List.map_cons, List.mem_cons, not_or] at h
    rw [insertInto, if_neg (Ne.symm h.1), ih h.2, List.cons_append]

theorem modules_foldl_insert (h : ((g.modules ++ ms).map Module.id).Nodup) :
    (ms.foldl insert g).modules = g.modules ++ ms := by
  induction ms generalizing g with
  | nil => simp
  | cons m ms ih =>
    have hnew : m.id ∉ g.modules.map Module.id := by
      rw [List.map_append, List.nodup_append] at h
      exact fun hmem => h.2.2 _ hmem m.id (by simp) rfl
    have hinsert : (g.insert m).modules = g.modules ++ [m] := insertInto_append hnew
    rw [List.foldl_cons, ih (by rw [hinsert]; simpa using h), hinsert, List.append_assoc]
    rfl

/-- Modules with different names stay as they are. -/
theorem modules_ofList (h : (ms.map Module.id).Nodup) : (ofList ms).modules = ms :=
  modules_foldl_insert (g := empty) h

/-- No module is searched twice. -/
theorem nodup_searchScope (g : ModuleGraph) (owner : ModuleId) : (g.searchScope owner).Nodup := by
  have hids : ((g.importers owner).map Module.id).Nodup :=
    g.nodup_ids.sublist (List.filter_sublist.map _)
  rw [searchScope, List.nodup_append]
  refine ⟨by split <;> simp, hids, ?_⟩
  intro a ha b hb heq
  split at ha
  · obtain rfl := List.mem_singleton.1 ha
    obtain ⟨m, hm, rfl⟩ := List.mem_map.1 hb
    obtain ⟨-, himport⟩ := List.mem_filter.1 hm
    exact m.not_mem_imports (heq ▸ List.contains_iff_mem.1 himport)
  · cases ha

theorem nodup_unitsOf (g : ModuleGraph) (id : ModuleId) : (g.unitsOf id).Nodup := by
  rw [unitsOf]
  split
  · rename_i m _
    exact m.nodup_units
  · exact List.nodup_nil

end ModuleGraph

namespace Workspace

variable {files : List SourceFile} {file : SourceFile} {m : Module} {ms : List Module}

/-- Whether there is a file of a module with the given name. -/
def Known (files : List SourceFile) (name : String) : Prop :=
  ∃ other ∈ files, other.unit.module.name = name

/-- Whether a module has the unit of a file and what the file imports. -/
structure Shows (files : List SourceFile) (m : Module) (f : SourceFile) : Prop where
  id : m.id = f.unit.module
  unit : f.unit.unit ∈ m.units
  imports : ∀ name ∈ importsOfSource f.text, Known files name → ModuleId.mk name ≠ m.id →
    ModuleId.mk name ∈ m.imports

/-! ## One file -/

theorem imports_addImport {target name : ModuleId} (h : name ∈ m.imports) :
    name ∈ (m.addImport target).imports := by
  unfold Module.addImport
  split
  · exact h
  · exact List.mem_append_left _ h

theorem foldl_addImport (names : List String) (m : Module) :
    (names.foldl (fun m name => m.addImport ⟨name⟩) m).id = m.id ∧
      (names.foldl (fun m name => m.addImport ⟨name⟩) m).units = m.units ∧
      (∀ name ∈ m.imports, name ∈ (names.foldl (fun m name => m.addImport ⟨name⟩) m).imports) ∧
      ∀ name ∈ names, ModuleId.mk name ≠ m.id →
        ModuleId.mk name ∈ (names.foldl (fun m name => m.addImport ⟨name⟩) m).imports := by
  induction names generalizing m with
  | nil => exact ⟨rfl, rfl, fun _ h => h, fun _ h => nomatch h⟩
  | cons n names ih =>
    have hid : (m.addImport ⟨n⟩).id = m.id := by unfold Module.addImport; split <;> rfl
    have hunits : (m.addImport ⟨n⟩).units = m.units := by
      unfold Module.addImport; split <;> rfl
    obtain ⟨ihid, ihunits, ihold, ihnew⟩ := ih (m.addImport ⟨n⟩)
    refine ⟨ihid.trans hid, ihunits.trans hunits, fun _ h => ihold _ (imports_addImport h), ?_⟩
    intro name hname hne
    rcases List.mem_cons.1 hname with rfl | hname
    · refine ihold _ ?_
      unfold Module.addImport
      split
      · rename_i h
        exact h.resolve_left hne
      · exact List.mem_append_right _ (List.mem_singleton_self _)
    · exact ihnew name hname (by rwa [hid])

theorem id_addFile : (addFile files file m).id = m.id := by
  rw [addFile, (foldl_addImport _ _).1, Module.addUnit]
  split <;> rfl

theorem units_addFile : (addFile files file m).units = (m.addUnit file.unit.unit).units :=
  (foldl_addImport _ _).2.1

theorem imports_addFile {name : ModuleId} (h : name ∈ m.imports) :
    name ∈ (addFile files file m).imports := by
  refine (foldl_addImport _ _).2.2.1 name ?_
  unfold Module.addUnit
  split <;> exact h

theorem mem_units_addFile {unit : String} :
    unit ∈ (addFile files file m).units ↔ unit ∈ m.units ∨ unit = file.unit.unit := by
  rw [units_addFile, Module.addUnit]
  split
  · rename_i hmem
    exact (or_iff_left_of_imp fun h => h ▸ hmem).symm
  · rw [List.mem_append, List.mem_singleton]

theorem shows_addFile (hid : m.id = file.unit.module) : Shows files (addFile files file m) file where
  id := id_addFile.trans hid
  unit := mem_units_addFile.2 (.inr rfl)
  imports name hname hknown hne := by
    obtain ⟨other, hother, heq⟩ := hknown
    refine (foldl_addImport _ _).2.2.2 name ?_ ?_
    · rw [List.mem_filter, List.any_eq_true]
      exact ⟨hname, other, hother, by simpa using heq⟩
    · rw [id_addFile] at hne
      intro h
      refine hne (h.trans ?_)
      unfold Module.addUnit
      split <;> rfl

theorem Shows.addFile {f : SourceFile} (h : Shows files m f) : Shows files (addFile files file m) f where
  id := id_addFile.trans h.id
  unit := mem_units_addFile.2 (.inl h.unit)
  imports name hname hknown hne := imports_addFile (h.imports name hname hknown (by rwa [id_addFile] at hne))

/-! ## A list of modules -/

theorem ids_addToModules : (addToModules files file ms).map Module.id =
    if file.unit.module ∈ ms.map Module.id then ms.map Module.id
    else ms.map Module.id ++ [file.unit.module] := by
  induction ms with
  | nil => simp [addToModules, id_addFile, Module.empty]
  | cons m ms ih =>
    rw [addToModules]
    split
    · rename_i heq
      simp [id_addFile, heq]
    · rename_i hne
      rw [List.map_cons, ih, List.map_cons]
      simp only [List.mem_cons, Ne.symm hne, false_or]
      split <;> rfl

theorem forall_addToModules {P : Module → Prop} (h : ∀ m ∈ ms, P m)
    (hnew : P (addFile files file (.empty file.unit.module)))
    (hstep : ∀ m, m.id = file.unit.module → P m → P (addFile files file m)) :
    ∀ m ∈ addToModules files file ms, P m := by
  induction ms with
  | nil => simpa [addToModules] using hnew
  | cons m ms ih =>
    rw [List.forall_mem_cons] at h
    rw [addToModules]
    split
    · rename_i heq
      exact List.forall_mem_cons.2 ⟨hstep m heq h.1, h.2⟩
    · exact List.forall_mem_cons.2 ⟨h.1, ih h.2⟩

theorem exists_addToModules {P : Module → Prop} (h : ∃ m ∈ ms, P m)
    (hstep : ∀ m, P m → P (addFile files file m)) : ∃ m ∈ addToModules files file ms, P m := by
  induction ms with
  | nil => obtain ⟨_, hm, _⟩ := h; cases hm
  | cons m ms ih =>
    rw [List.exists_mem_cons_iff] at h
    rw [addToModules]
    split <;> rw [List.exists_mem_cons_iff]
    · exact h.imp (hstep m) id
    · exact h.imp id ih

theorem exists_shows_addToModules : ∃ m ∈ addToModules files file ms, Shows files m file := by
  induction ms with
  | nil => exact ⟨_, List.mem_singleton_self _, shows_addFile rfl⟩
  | cons m ms ih =>
    rw [addToModules]
    split <;> rw [List.exists_mem_cons_iff]
    · rename_i heq
      exact .inl (shows_addFile heq)
    · exact .inr ih

/-- Modules that hold what the files `seen` say, and no other units. -/
structure Gathered (files seen : List SourceFile) (ms : List Module) : Prop where
  nodup : (ms.map Module.id).Nodup
  names : ∀ m ∈ ms, ∃ f ∈ seen, f.unit.module = m.id
  units : ∀ m ∈ ms, ∀ unit ∈ m.units, ∃ f ∈ seen, f.unit = ⟨m.id, unit⟩
  shown : ∀ f ∈ seen, ∃ m ∈ ms, Shows files m f

theorem Gathered.addFile {seen : List SourceFile} (h : Gathered files seen ms) :
    Gathered files (seen ++ [file]) (addToModules files file ms) where
  nodup := by
    rw [ids_addToModules]
    split
    · exact h.nodup
    · rename_i hnot
      refine List.nodup_append.2 ⟨h.nodup, List.nodup_singleton _, ?_⟩
      intro a ha b hb heq
      rw [List.mem_singleton] at hb
      exact hnot (hb ▸ heq ▸ ha)
  names := by
    have hlast : ∃ f ∈ seen ++ [file], f.unit.module = file.unit.module := ⟨file, by simp, rfl⟩
    refine forall_addToModules ?_ ?_ ?_
    · intro m hm
      obtain ⟨f, hf, heq⟩ := h.names m hm
      exact ⟨f, List.mem_append_left _ hf, heq⟩
    · rw [id_addFile]
      exact hlast
    · intro m _ hm
      rw [id_addFile]
      exact hm
  units := by
    have hlast : ∃ f ∈ seen ++ [file], f.unit = file.unit := ⟨file, by simp, rfl⟩
    refine forall_addToModules ?_ ?_ ?_
    · intro m hm unit hunit
      obtain ⟨f, hf, heq⟩ := h.units m hm unit hunit
      exact ⟨f, List.mem_append_left _ hf, heq⟩
    · intro unit hunit
      rw [mem_units_addFile] at hunit
      rw [hunit.resolve_left (List.not_mem_nil), id_addFile]
      exact hlast
    · intro m hid hunits unit hunit
      rw [id_addFile]
      rcases mem_units_addFile.1 hunit with hunit | rfl
      · exact hunits unit hunit
      · rw [hid]
        exact hlast
  shown f hf := by
    rcases List.mem_append.1 hf with hf | hf
    · exact exists_addToModules (h.shown f hf) fun _ => Shows.addFile
    · rw [List.mem_singleton.1 hf]
      exact exists_shows_addToModules

theorem gathered_foldl {seen : List SourceFile} (fs : List SourceFile) (h : Gathered files seen ms) :
    Gathered files (seen ++ fs) (fs.foldl (fun ms file => addToModules files file ms) ms) := by
  induction fs generalizing seen ms with
  | nil => simpa using h
  | cons f fs ih =>
    have hnext : Gathered files (seen ++ [f]) (addToModules files f ms) := h.addFile
    have := ih hnext
    rwa [List.append_assoc, List.singleton_append] at this

/-! ## The graph -/

/-- The graph holds what the files say, and no other units. -/
theorem gathered_graphOf (files : List SourceFile) :
    Gathered files files (graphOf files).modules := by
  have h : Gathered files [] [] :=
    ⟨List.nodup_nil, (fun _ h => nomatch h), (fun _ h => nomatch h), fun _ h => nomatch h⟩
  have hall := gathered_foldl files h
  rw [graphOf, ModuleGraph.modules_ofList hall.nodup]
  exact hall

theorem lists_graphOf {u : UnitId} :
    (graphOf files).Lists u ↔ u ∈ files.map SourceFile.unit := by
  have h := gathered_graphOf files
  rw [ModuleGraph.lists_iff, List.mem_map]
  constructor
  · rintro ⟨m, hm, hid, hu⟩
    obtain ⟨f, hf, heq⟩ := h.units m hm u.unit hu
    exact ⟨f, hf, by rw [heq, hid]⟩
  · rintro ⟨f, hf, rfl⟩
    obtain ⟨m, hm, hshows⟩ := h.shown f hf
    exact ⟨m, hm, hshows.id, hshows.unit⟩

theorem known_of_contains {name : String} (h : (graphOf files).contains ⟨name⟩) :
    Known files name := by
  rw [ModuleGraph.contains, Option.isSome_iff_exists] at h
  obtain ⟨m, hm⟩ := h
  obtain ⟨hmem, hid⟩ := ModuleGraph.mem_of_get? hm
  obtain ⟨f, hf, heq⟩ := (gathered_graphOf files).names m hmem
  exact ⟨f, hf, by rw [heq, hid]⟩

end Workspace

end Xref
