import Xref.Symbol.Symbol

/-!
# Module graphs

A module is a list of units and a list of the modules that it imports. A graph keeps its modules in
the order in which they were first added. A search for a symbol looks at the module that owns it and
at those that import this module directly.
-/

namespace Xref

/-- A module with its units and imports, each without repetition. It does not import itself. -/
structure Module where
  id : ModuleId
  units : List String
  imports : List ModuleId
  nodup_units : units.Nodup
  nodup_imports : imports.Nodup
  not_mem_imports : id ∉ imports
  deriving DecidableEq, Repr

namespace Module

/-- A module without units and imports. -/
def empty (id : ModuleId) : Module :=
  ⟨id, [], [], List.nodup_nil, List.nodup_nil, List.not_mem_nil⟩

/-- A list without repetition stays so if something new is put at its end. -/
theorem nodup_concat {α : Type} {l : List α} {a : α} (hl : l.Nodup) (ha : a ∉ l) :
    (l ++ [a]).Nodup :=
  List.nodup_append.2 ⟨hl, List.pairwise_singleton _ _, fun _ hb _ hc heq =>
    ha (List.mem_singleton.1 hc ▸ heq ▸ hb)⟩

/-- Adds a unit at the end, unless it is there. -/
def addUnit (m : Module) (unit : String) : Module :=
  if h : unit ∈ m.units then m
  else { m with units := m.units ++ [unit], nodup_units := nodup_concat m.nodup_units h }

/-- Adds an import at the end, unless it is there or is the module itself. -/
def addImport (m : Module) (target : ModuleId) : Module :=
  if h : target = m.id ∨ target ∈ m.imports then m
  else
    { m with
      imports := m.imports ++ [target]
      nodup_imports := nodup_concat m.nodup_imports fun hmem => h (.inr hmem)
      not_mem_imports := fun hmem => (List.mem_append.1 hmem).elim m.not_mem_imports
        fun hlast => h (.inl (List.mem_singleton.1 hlast).symm) }

/-- A module with the given units and imports, as far as they can be added. -/
def ofLists (id : ModuleId) (units : List String) (imports : List ModuleId) : Module :=
  imports.foldl addImport (units.foldl addUnit (empty id))

end Module

/-- The modules of a project, no two of which have one name. -/
structure ModuleGraph where
  modules : List Module
  nodup_ids : (modules.map Module.id).Nodup
  deriving DecidableEq, Repr

namespace ModuleGraph

/-- The graph without modules. -/
def empty : ModuleGraph := ⟨[], List.nodup_nil⟩

/-- Puts `m` in the place of the first module with the same name, or at the end. -/
def insertInto (m : Module) : List Module → List Module
  | [] => [m]
  | n :: rest => if n.id = m.id then m :: rest else n :: insertInto m rest

theorem mem_insertInto {m n : Module} {ms : List Module} (h : n ∈ insertInto m ms) :
    n = m ∨ n ∈ ms := by
  induction ms with
  | nil => exact .inl (List.mem_singleton.1 h)
  | cons k ms ih =>
    rw [insertInto] at h
    split at h
    · rcases List.mem_cons.1 h with rfl | h
      · exact .inl rfl
      · exact .inr (List.mem_cons_of_mem _ h)
    · rcases List.mem_cons.1 h with rfl | h
      · exact .inr List.mem_cons_self
      · exact (ih h).imp_right (List.mem_cons_of_mem _)

theorem nodup_insertInto {m : Module} {ms : List Module} (h : (ms.map Module.id).Nodup) :
    ((insertInto m ms).map Module.id).Nodup := by
  induction ms with
  | nil => exact List.pairwise_singleton _ _
  | cons k ms ih =>
    rw [List.map_cons, List.nodup_cons] at h
    rw [insertInto]
    split
    · rename_i heq
      rw [List.map_cons, List.nodup_cons, ← heq]
      exact h
    · rename_i hne
      rw [List.map_cons, List.nodup_cons]
      refine ⟨fun hmem => ?_, ih h.2⟩
      obtain ⟨n, hn, hid⟩ := List.mem_map.1 hmem
      rcases mem_insertInto hn with rfl | hn
      · exact hne hid.symm
      · exact h.1 (hid ▸ List.mem_map_of_mem hn)

/-- Adds a module. One with the same name gives it its place. -/
def insert (g : ModuleGraph) (m : Module) : ModuleGraph :=
  ⟨insertInto m g.modules, nodup_insertInto g.nodup_ids⟩

/-- The graph of several modules. -/
def ofList (ms : List Module) : ModuleGraph := ms.foldl insert empty

/-- The number of modules. -/
def size (g : ModuleGraph) : Nat := g.modules.length

/-- The module with a given name. -/
def get? (g : ModuleGraph) (id : ModuleId) : Option Module := g.modules.find? (·.id == id)

/-- Whether there is a module with a given name. -/
def contains (g : ModuleGraph) (id : ModuleId) : Bool := (g.get? id).isSome

/-- The units of a module, none if the module is not in the graph. -/
def unitsOf (g : ModuleGraph) (id : ModuleId) : List String :=
  match g.get? id with
  | some m => m.units
  | none => []

/-- The modules that import `id` directly. -/
def importers (g : ModuleGraph) (id : ModuleId) : List Module :=
  g.modules.filter fun m => m.imports.contains id

/-- The modules where a symbol owned by `owner` can occur: the owner, if it is in the graph, and
those that import it directly. -/
def searchScope (g : ModuleGraph) (owner : ModuleId) : List ModuleId :=
  (if g.contains owner then [owner] else []) ++ (g.importers owner).map Module.id

end ModuleGraph

end Xref
