import Xref.Proofs.Navigation.References

/-!
# Modules that a request does not look at

References and renames depend on three kinds of texts: the document of the cursor, the units of the
modules in scope, and the units of the modules that those import. Two stores that agree on them give
the same answers, whatever the texts of all other modules are (`references_rename_isolated`).
-/

namespace Xref

open Binding (SameTexts importedModules)

namespace Analysis

/-! ## What a request looks at -/

/-- The modules in the scope of a cursor: the one of its unit and, if there is a symbol under the
cursor, the owner of the symbol and the modules that import the owner directly. -/
inductive InScope (a : Analysis) (s : Store) (uri : Uri) (position : Position) : ModuleId → Prop
  | cursor {path : FilePath} {u : UnitId} (hplace : a.unitOfUri uri = .ok (path, u)) :
    InScope a s uri position u.module
  | owner {r : Reference} (hr : ((a.reference uri position).exec s).1 = .ok r) :
    InScope a s uri position r.symbol.owner
  | importer {r : Reference} {m : Module} (hr : ((a.reference uri position).exec s).1 = .ok r)
    (hm : m ∈ a.graph.importers r.symbol.owner) : InScope a s uri position m.id

/-- The modules of the graph that are named by an import declaration, in the document of the cursor
or in a unit of a module in scope. -/
inductive IsImported (a : Analysis) (s : Store) (uri : Uri) (position : Position)
    (m : ModuleId) : Prop
  | document {path : FilePath} {text : String} (hfile : uri.toFile? = some path)
    (htext : s.documents.get? path = some text) (hname : m.name ∈ Workspace.importsOfSource text)
    (hm : a.graph.contains m)
  | unit {n : ModuleId} {unit text : String} (hn : a.InScope s uri position n)
    (hunit : unit ∈ a.graph.unitsOf n)
    (htext : s.documents.get? (a.config.layout.pathOf ⟨n, unit⟩) = some text)
    (hname : m.name ∈ Workspace.importsOfSource text) (hm : a.graph.contains m)

/-- Whether two stores agree on what a request about a cursor looks at. What that is depends on the
first of them. -/
structure Agree (a : Analysis) (uri : Uri) (position : Position) (s s' : Store) : Prop where
  document : ∀ path, uri.toFile? = some path → s.documents.get? path = s'.documents.get? path
  scope : ∀ m, a.InScope s uri position m →
    SameTexts a.config.layout a.graph s.documents s'.documents m
  imports : ∀ m, a.IsImported s uri position m →
    SameTexts a.config.layout a.graph s.documents s'.documents m

/-! ## Equal answers -/

variable {a : Analysis} {d d' : Documents} {s s' : Store} {uri : Uri} {position : Position}
  {path : FilePath} {u : UnitId} (hcompiler : a.compiler = Binding.compiler a.config.layout)

include hcompiler

/-- A unit is the same if its text, its module and the modules that it imports are. -/
theorem unitFrom_congr (hpath : d.get? path = d'.get? path)
    (hown : SameTexts a.config.layout a.graph d d' u.module)
    (himports : ∀ text, d.get? path = some text → ∀ m, m.name ∈ Workspace.importsOfSource text →
      a.graph.contains m → SameTexts a.config.layout a.graph d d' m) :
    a.unitFrom d [] path u = a.unitFrom d' [] path u := by
  have hfree : ∀ p ∈ ([] : List FilePath), p.sameAs path = false := fun _ h => nomatch h
  cases htext : d.get? path with
  | none =>
    rw [unitFrom, unitFrom, Documents.content, Documents.content, ← hpath, htext]
    rfl
  | some text =>
    rw [unitFrom_of_get? hfree htext, unitFrom_of_get? hfree (hpath ▸ htext), hcompiler]
    refine congrArg _ (Binding.compile_congr_of_texts hown fun hsize m hm => ?_)
    obtain ⟨hmem, hknown⟩ := List.mem_filter.1 hm
    obtain ⟨name, hname, rfl⟩ := List.mem_map.1 hmem
    rw [Bool.and_eq_true] at hknown
    exact himports text htext _ (Workspace.importsOfSource_eq hsize ▸ hname) hknown.1

/-- The symbol under the cursor is the same. -/
theorem strictFrom_congr (h : a.Agree uri position s s') :
    a.strictFrom s.documents [] uri position = a.strictFrom s'.documents [] uri position := by
  rw [strictFrom, strictFrom]
  cases hplace : a.unitOfUri uri with
  | error e => rfl
  | ok place =>
    have hfile := (unitOfUri_eq_ok.1 hplace).1
    have hunit := unitFrom_congr hcompiler (h.document _ hfile) (h.scope _ (.cursor hplace))
      fun text htext m hname hm => h.imports m (.document hfile htext hname hm)
    simp only [Except.bind, hunit]

omit hcompiler in
theorem gatherFrom_congr {target : Symbol} {units : List UnitId}
    (h : ∀ v ∈ units, a.unitFrom d [] (a.config.layout.pathOf v) v =
      a.unitFrom d' [] (a.config.layout.pathOf v) v) (o : Occurrences) :
    a.gatherFrom d [] target units o = a.gatherFrom d' [] target units o := by
  induction units generalizing o with
  | nil => rfl
  | cons v rest ih =>
    rw [List.forall_mem_cons] at h
    rw [gatherFrom, gatherFrom, h.1]
    exact congrArg _ (funext fun b => ih h.2 _)

omit hcompiler in
/-- The units that are searched belong to modules in scope. -/
theorem inScope_of_mem {r : Resolved} (hr : ((a.reference uri position).exec s).1 = .ok r.cursor)
    {v : UnitId} (hv : v ∈ a.unitsToSearch r.symbol.owner r.unit) :
    a.InScope s uri position v.module ∧ v.unit ∈ a.graph.unitsOf v.module := by
  obtain ⟨m, hm, hv⟩ := List.mem_flatMap.1 (List.mem_filter.1 hv).1
  obtain ⟨unit, hunit, rfl⟩ := List.mem_map.1 hv
  refine ⟨?_, hunit⟩
  rw [ModuleGraph.searchScope, List.mem_append] at hm
  rcases hm with hm | hm
  · split at hm
    · cases List.mem_singleton.1 hm
      exact .owner hr
    · cases hm
  · obtain ⟨n, hn, rfl⟩ := List.mem_map.1 hm
    exact .importer hr hn

/-- All occurrences of the symbol are the same. -/
theorem occurrencesFrom_congr (h : a.Agree uri position s s') {r : Resolved}
    (hr : ((a.reference uri position).exec s).1 = .ok r.cursor) :
    a.occurrencesFrom s.documents [] r = a.occurrencesFrom s'.documents [] r := by
  rw [occurrencesFrom, occurrencesFrom]
  refine congrArg _ (gatherFrom_congr (fun v hv => ?_) _)
  obtain ⟨hscope, hunit⟩ := inScope_of_mem hr hv
  exact unitFrom_congr hcompiler (h.scope _ hscope v.unit hunit) (h.scope _ hscope)
    fun text htext m hname hm => h.imports m (.unit hscope hunit htext hname hm)

omit hcompiler

/-- What a rename starts from is what a strict request finds. -/
theorem strictFrom_of_renameTargetFrom {r : Resolved}
    (h : a.renameTargetFrom d [] uri position = .ok r) :
    a.strictFrom d [] uri position = .ok r := by
  rw [renameTargetFrom] at h
  cases hstrict : a.strictFrom d [] uri position with
  | ok found =>
    rw [hstrict] at h
    exact h
  | error e =>
    rw [hstrict] at h
    cases e <;> cases h

/-- **What a request does not look at does not matter.** If no document is locked in two stores, and
they agree on the document of the cursor, on the modules in scope and on the modules that are imported
there, then references and renames have the same answers in both. -/
theorem references_rename_isolated (config : Config) (g : ModuleGraph) (s s' : Store) (uri : Uri)
    (position : Position) (hs : s.documents.locks.held = [])
    (hs' : s'.documents.locks.held = []) :
    let a : Analysis := ⟨config, g, Binding.compiler config.layout⟩
    a.Agree uri position s s' →
    (∀ withDefinitions, ((a.references uri position withDefinitions).exec s).1 =
      ((a.references uri position withDefinitions).exec s').1) ∧
    ∀ newName, ((a.rename uri position newName).exec s).1 =
      ((a.rename uri position newName).exec s').1 := by
  intro a h
  have hcompiler : a.compiler = Binding.compiler a.config.layout := rfl
  have hreads : a.compiler.ReadsTexts := Binding.compiler_readsTexts config.layout
  have hstrict := strictFrom_congr hcompiler h
  have hreference := (reference_answersFrom hreads uri position s ⟨rfl, hs⟩).1
  have hoccurrences : ∀ r, a.strictFrom s.documents [] uri position = .ok r →
      a.occurrencesFrom s.documents [] r = a.occurrencesFrom s'.documents [] r := fun r hr =>
    occurrencesFrom_congr hcompiler h (by rw [hreference, hr]; rfl)
  constructor
  · intro withDefinitions
    rw [(references_answersFrom hreads uri position withDefinitions s ⟨rfl, hs⟩).1,
      (references_answersFrom hreads uri position withDefinitions s' ⟨rfl, hs'⟩).1, ← hstrict]
    cases hr : a.strictFrom s.documents [] uri position with
    | error e => simp only [Except.bind]
    | ok r => simp only [Except.bind, hoccurrences r hr]
  · intro newName
    have htarget : a.renameTargetFrom s.documents [] uri position =
        a.renameTargetFrom s'.documents [] uri position := by
      rw [renameTargetFrom, renameTargetFrom, hstrict]
    rw [(rename_answersFrom hreads uri position newName s ⟨rfl, hs⟩).1,
      (rename_answersFrom hreads uri position newName s' ⟨rfl, hs'⟩).1, ← htarget]
    refine congrArg _ (funext fun _ => ?_)
    cases hr : a.renameTargetFrom s.documents [] uri position with
    | error e => simp only [Except.bind]
    | ok r => simp only [Except.bind, hoccurrences r (strictFrom_of_renameTargetFrom hr)]

open Workspace (usualLayout ofFiles callFiles importsOfSource)

/-- The files with a call, and a module that neither of them has to do with. -/
def farFiles (text : String) : List SourceFile := callFiles ++ [⟨⟨⟨"far"⟩, "far.nav"⟩, text⟩]

theorem references_rename_isolated_farFiles :
    let a : Analysis := ⟨.ofLayout usualLayout, (ofFiles (farFiles "")).graph,
      Binding.compiler usualLayout⟩
    let uri : Uri := ⟨"file:///workspace/main.nav"⟩
    let s : Store := ⟨(ofFiles (farFiles "fn f() { lib:make(); }")).session.documents, []⟩
    let s' : Store := ⟨(ofFiles (farFiles "import lib; @")).session.documents, []⟩
    s.documents.get? (usualLayout.pathOf ⟨⟨"far"⟩, "far.nav"⟩) ≠
      s'.documents.get? (usualLayout.pathOf ⟨⟨"far"⟩, "far.nav"⟩) ∧
    a.Agree uri ⟨1, 17⟩ s s' ∧
    (∀ withDefinitions, ((a.references uri ⟨1, 17⟩ withDefinitions).exec s).1 =
      ((a.references uri ⟨1, 17⟩ withDefinitions).exec s').1) ∧
    ∀ newName, ((a.rename uri ⟨1, 17⟩ newName).exec s).1 =
      ((a.rename uri ⟨1, 17⟩ newName).exec s').1 := by
  intro a uri s s'
  have hreference : ((a.reference uri ⟨1, 17⟩).exec s).1.toOption.any
      fun r => r.symbol.owner == ⟨"lib"⟩ := by decide +kernel
  have himporters : (a.graph.importers ⟨"lib"⟩).map Module.id = [.current] := by decide +kernel
  have hfile : uri.toFile? = some (.ofText "/workspace/main.nav") := by decide +kernel
  have hat : usualLayout.unitAt? (.ofText "/workspace/main.nav") =
      some ⟨.current, "main.nav"⟩ := by decide +kernel
  have htexts : ∀ m ∈ [ModuleId.current, ⟨"lib"⟩], SameTexts usualLayout a.graph s.documents
      s'.documents m := by unfold SameTexts; decide +kernel
  have hdocument : s.documents.get? (.ofText "/workspace/main.nav") =
      s'.documents.get? (.ofText "/workspace/main.nav") := by decide +kernel
  have hcursor : ∀ text ∈ s.documents.get? (.ofText "/workspace/main.nav"),
      ∀ name ∈ importsOfSource text, name = "lib" := by decide +kernel
  have hunits : ∀ m ∈ [ModuleId.current, ⟨"lib"⟩], ∀ unit ∈ a.graph.unitsOf m,
      ∀ text ∈ s.documents.get? (usualLayout.pathOf ⟨m, unit⟩),
        ∀ name ∈ importsOfSource text, name = "lib" := by decide +kernel
  have howner : ∀ r, ((a.reference uri ⟨1, 17⟩).exec s).1 = .ok r → r.symbol.owner = ⟨"lib"⟩ := by
    intro r hr
    rw [hr] at hreference
    exact beq_iff_eq.1 hreference
  have hscope : ∀ m, a.InScope s uri ⟨1, 17⟩ m → m ∈ [ModuleId.current, ⟨"lib"⟩] := by
    intro m hm
    cases hm with
    | cursor hplace =>
      obtain ⟨hpath, hunit⟩ := unitOfUri_eq_ok.1 hplace
      cases hfile.symm.trans hpath
      cases hat.symm.trans hunit
      exact List.mem_cons_self
    | owner hr => rw [howner _ hr]; exact List.mem_cons_of_mem _ List.mem_cons_self
    | importer hr hm =>
      have hmem := List.mem_map_of_mem (f := Module.id) hm
      rw [howner _ hr, himporters, List.mem_singleton] at hmem
      rw [hmem]
      exact List.mem_cons_self
  have hagree : a.Agree uri ⟨1, 17⟩ s s' := by
    refine ⟨fun path hpath => ?_, fun m hm => htexts m (hscope m hm), fun m hm => htexts m ?_⟩
    · cases hfile.symm.trans hpath
      exact hdocument
    · have hlib : m.name = "lib" := by
        cases hm with
        | document hpath htext hname _ =>
          cases hfile.symm.trans hpath
          exact hcursor _ htext _ hname
        | unit hn hunit htext hname _ => exact hunits _ (hscope _ hn) _ hunit _ htext _ hname
      have hm : m = ⟨"lib"⟩ := congrArg ModuleId.mk hlib
      rw [hm]
      exact List.mem_cons_of_mem _ List.mem_cons_self
  exact ⟨by decide +kernel, hagree, references_rename_isolated (.ofLayout usualLayout)
    (ofFiles (farFiles "")).graph s s' uri ⟨1, 17⟩ (by decide +kernel) (by decide +kernel) hagree⟩

end Analysis

end Xref
