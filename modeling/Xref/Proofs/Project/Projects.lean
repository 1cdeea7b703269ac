import Xref.Proofs.Project.Graphs
import Xref.Proofs.Syntax.Spans

/-!
# Documents that fit a module graph

The documents of a workspace are the texts of the units that its graph lists, every module imports
what the texts of its units import, and nothing is locked (`fit_ofFiles`). Requests and renames keep
it so.
-/

namespace Xref

open Workspace (usualLayout)

namespace Documents

/-! ## One document changed -/

theorem get?_putFile (path q : FilePath) (text : String) (files : List (FilePath × String)) :
    ((putFile path text files).find? fun file => file.1.sameAs q).map (·.2) =
      if path.sameAs q then some text
      else (files.find? fun file => file.1.sameAs q).map (·.2) := by
  induction files with
  | nil =>
    rw [putFile, List.find?_cons]
    split <;> simp [*]
  | cons file rest ih =>
    obtain ⟨p, old⟩ := file
    rw [putFile]
    split
    · rename_i hsame
      have hiff : p.sameAs q = path.sameAs q := by
        rw [FilePath.sameAs_iff] at hsame
        rw [FilePath.sameAs, FilePath.sameAs, hsame]
      rw [List.find?_cons, List.find?_cons, hiff]
      split <;> simp [*]
    · rename_i hnot
      rw [List.find?_cons, List.find?_cons]
      cases hq : p.sameAs q
      · exact ih
      · have hne : path.sameAs q = false := by
          rw [Bool.eq_false_iff]
          intro h
          rw [FilePath.sameAs_iff] at h hq
          exact hnot (FilePath.sameAs_iff.2 (hq.trans h.symm))
        rw [hne, if_neg Bool.false_ne_true]

/-- Setting the text of a document changes this document only. -/
theorem get?_put (d : Documents) (path q : FilePath) (text : String) :
    (d.put path text).get? q = if path.sameAs q then some text else d.get? q :=
  get?_putFile path q text d.files

/-- What documents there are does not depend on locks. -/
theorem get?_of_files {d d' : Documents} (h : d.files = d'.files) : d.get? = d'.get? := by
  funext path
  rw [get?, get?, h]

theorem get?_congr (d : Documents) {p q : FilePath} (h : p.components = q.components) :
    d.get? p = d.get? q := by
  have : (fun file : FilePath × String => file.1.sameAs p) = fun file => file.1.sameAs q := by
    funext file
    rw [FilePath.sameAs, FilePath.sameAs, h]
  rw [get?, get?, this]

/-- The text of a unit. -/
def textOf? (d : Documents) (u : UnitId) : Option String := d.get? (usualLayout.pathOf u)

/-! ## Documents and graph -/

/-- Whether the documents are the texts of the units that a graph lists, each module of the graph
imports what those of these texts import that have a tree, and no document is locked. -/
structure Fit (d : Documents) (g : ModuleGraph) : Prop where
  wellNamed : ∀ u, g.Lists u → u.WellNamed
  text : ∀ u, g.Lists u → ∃ text, d.textOf? u = some text
  listed : ∀ path text, d.get? path = some text → ∃ u, g.Lists u ∧ path.components = u.steps
  imports : ∀ u text, g.Lists u → d.textOf? u = some text →
    text.utf8ByteSize ≤ Span.maxOffset → ∀ name ∈ Binding.importsOf (.ofSource text),
      g.contains ⟨name⟩ → ModuleId.mk name ≠ u.module →
        ∃ m ∈ g.modules, m.id = u.module ∧ ModuleId.mk name ∈ m.imports
  unlocked : d.locks.held = []

theorem content_eq_ok_iff {d : Documents} {path : FilePath} {text : String} :
    d.content path = .ok text ↔ d.get? path = some text := by
  rw [content]
  cases d.get? path <;> simp

theorem get?_of_steps {d : Documents} {u : UnitId} (hu : u.WellNamed) {path : FilePath}
    (hpath : path.components = u.steps) : d.get? path = d.textOf? u :=
  d.get?_congr (hpath.trans (components_pathOf hu).symm)

end Documents

namespace Workspace

variable {files : List SourceFile}

theorem get?_documentsOf (fs : List SourceFile) (d : Documents) (q : FilePath) :
    (fs.foldl (fun d file => d.put (usualLayout.pathOf file.unit) file.text) d).get? q = d.get? q ∧
      (∀ f ∈ fs, (usualLayout.pathOf f.unit).sameAs q = false) ∨
    ∃ f ∈ fs, (usualLayout.pathOf f.unit).sameAs q ∧
      (fs.foldl (fun d file => d.put (usualLayout.pathOf file.unit) file.text) d).get? q =
        some f.text := by
  induction fs generalizing d with
  | nil => exact .inl ⟨rfl, fun _ h => nomatch h⟩
  | cons f fs ih =>
    rw [List.foldl_cons, List.exists_mem_cons_iff, List.forall_mem_cons]
    rcases ih (d.put (usualLayout.pathOf f.unit) f.text) with ⟨hget, hnone⟩ | hsome
    · rw [Documents.get?_put] at hget
      cases hsame : (usualLayout.pathOf f.unit).sameAs q
      · rw [hsame, if_neg Bool.false_ne_true] at hget
        exact .inl ⟨hget, rfl, hnone⟩
      · rw [hsame, if_pos rfl] at hget
        exact .inr (.inl ⟨rfl, hget⟩)
    · exact .inr (.inr hsome)

theorem locks_documentsOf (fs : List SourceFile) (d : Documents) :
    (fs.foldl (fun d file => d.put (usualLayout.pathOf file.unit) file.text) d).locks = d.locks := by
  induction fs generalizing d with
  | nil => rfl
  | cons f fs ih => rw [List.foldl_cons, ih]; rfl

theorem held_ofFiles (files : List SourceFile) :
    (ofFiles files).session.documents.locks.held = [] :=
  congrArg Locks.held (locks_documentsOf files .empty)

theorem importsOfSource_eq {text : String} (hsize : text.utf8ByteSize ≤ Span.maxOffset) :
    importsOfSource text = Binding.importsOf (.ofSource text) := by
  rw [importsOfSource, parse_eq_ok hsize]

/-- **The documents of a workspace fit its graph.** -/
theorem fit_ofFiles (h : ∀ f ∈ files, f.unit.WellNamed) :
    (ofFiles files).session.documents.Fit (ofFiles files).graph := by
  have hgraph := gathered_graphOf files
  have hlists : ∀ u, (graphOf files).Lists u → ∃ f ∈ files, f.unit = u := fun u hu => by
    simpa using lists_graphOf.1 hu
  have hget : ∀ q, ((ofFiles files).session.documents.get? q = none ∧
      ∀ f ∈ files, (usualLayout.pathOf f.unit).sameAs q = false) ∨
      ∃ f ∈ files, (usualLayout.pathOf f.unit).sameAs q ∧
        (ofFiles files).session.documents.get? q = some f.text :=
    get?_documentsOf files .empty
  have hwell : ∀ u, (graphOf files).Lists u → u.WellNamed := by
    intro u hu
    obtain ⟨f, hf, rfl⟩ := hlists u hu
    exact h f hf
  refine ⟨hwell, ?_, ?_, ?_, held_ofFiles files⟩
  · intro u hu
    rcases hget (usualLayout.pathOf u) with ⟨-, hnone⟩ | ⟨f, -, -, hsome⟩
    · obtain ⟨f, hf, rfl⟩ := hlists u hu
      have := hnone f hf
      rw [FilePath.sameAs_refl] at this
      cases this
    · exact ⟨f.text, hsome⟩
  · intro path text htext
    rcases hget path with ⟨hempty, -⟩ | ⟨f, hf, hsame, -⟩
    · rw [hempty] at htext
      cases htext
    · refine ⟨f.unit, lists_graphOf.2 (List.mem_map_of_mem hf), ?_⟩
      rw [← components_pathOf (h f hf)]
      exact (FilePath.sameAs_iff.1 hsame).symm
  · intro u text hu htext hsize name hname hcontains hne
    rcases hget (usualLayout.pathOf u) with ⟨hempty, -⟩ | ⟨f, hf, hsame, hsome⟩
    · rw [Documents.textOf?, hempty] at htext
      cases htext
    · rw [Documents.textOf?, hsome] at htext
      obtain rfl := Option.some.inj htext
      rw [FilePath.sameAs_iff, components_pathOf (h f hf), components_pathOf (hwell u hu)] at hsame
      obtain rfl := steps_injective (h f hf) hsame
      obtain ⟨m, hm, hshows⟩ := hgraph.shown f hf
      refine ⟨m, hm, hshows.id, hshows.imports name ?_ (known_of_contains hcontains) ?_⟩
      · rwa [importsOfSource_eq hsize]
      · rwa [hshows.id]

end Workspace

end Xref
