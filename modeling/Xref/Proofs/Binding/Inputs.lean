import Xref.Proofs.Binding.Compiled

/-!
# What compiling reads

A unit compiles from its own text, the texts of the other units of its module, and those of the
modules of the graph that it imports directly. No other text matters (`compile_congr_of_texts`), and
locks do not matter either (`compile_congr`). So what a unit sees is what these texts declare
(`exists_context_of_compile`).
-/

namespace Xref.Binding

variable {l : Layout} {d d' : Documents} {g : ModuleGraph}

/-- Whether two sets of documents have the same texts for all units that a graph lists in a module. -/
def SameTexts (l : Layout) (g : ModuleGraph) (d d' : Documents) (m : ModuleId) : Prop :=
  ∀ unit ∈ g.unitsOf m, d.get? (l.pathOf ⟨m, unit⟩) = d'.get? (l.pathOf ⟨m, unit⟩)

theorem readTree_congr {u : UnitId} (h : d.get? (l.pathOf u) = d'.get? (l.pathOf u)) :
    readTree l d u = readTree l d' u := by
  rw [readTree, readTree, Documents.content, Documents.content, h]

theorem addUnits_congr {read read' : String → Except CompileError Tree} {units : List String}
    (h : ∀ unit ∈ units, read unit = read' unit) (s : ModuleScope) :
    addUnits read s units = addUnits read' s units := by
  induction units generalizing s with
  | nil => rfl
  | cons unit rest ih =>
    rw [List.forall_mem_cons] at h
    rw [addUnits, addUnits, h.1]
    exact congrArg _ (funext fun t => ih h.2 _)

theorem moduleScope_congr {m : ModuleId} (h : SameTexts l g d d' m) :
    moduleScope l d g m = moduleScope l d' g m :=
  addUnits_congr (fun unit hunit => readTree_congr (h unit hunit)) _

theorem moduleScopes_congr {ms : List ModuleId} (h : ∀ m ∈ ms, SameTexts l g d d' m) :
    moduleScopes l d g ms = moduleScopes l d' g ms := by
  induction ms with
  | nil => rfl
  | cons m ms ih =>
    rw [List.forall_mem_cons] at h
    rw [moduleScopes, moduleScopes, moduleScope_congr h.1, ih h.2]

/-- The only unit of a module that is read and that the graph may not list is the one that is
compiled. -/
theorem mem_unitsOf_of_ne {units : List String} {own unit : String}
    (h : unit ∈ if own ∈ units then units else units ++ [own]) (hother : unit ≠ own) :
    unit ∈ units := by
  split at h
  · exact h
  · exact (List.mem_append.1 h).resolve_right fun hlast => hother (List.mem_singleton.1 hlast)

theorem moduleScopeWith_congr {u : UnitId} (h : SameTexts l g d d' u.module) (t : Tree) :
    moduleScopeWith l d g u t = moduleScopeWith l d' g u t := by
  refine addUnits_congr (fun unit hunit => ?_) _
  split_ifs with hown
  · rfl
  · exact readTree_congr (h unit (mem_unitsOf_of_ne hunit hown))

/-- **A unit compiles from its module and the modules that it imports.** -/
theorem compile_congr_of_texts {u : UnitId} {source : String}
    (hown : SameTexts l g d d' u.module)
    (himports : source.utf8ByteSize ≤ Span.maxOffset →
      ∀ m ∈ importedModules g u.module (.ofSource source), SameTexts l g d d' m) :
    compile l d g u source = compile l d' g u source := by
  rw [compile, compile]
  cases hparse : parseSource source with
  | error e => rfl
  | ok t =>
    obtain ⟨hsize, rfl⟩ := parseSource_eq_ok_iff.1 hparse
    rw [Except.bind, Except.bind, moduleScopeWith_congr hown, moduleScopes_congr (himports hsize)]

/-- What a unit compiles to does not depend on locks. -/
theorem compile_congr (h : d.files = d'.files) (l : Layout) (g : ModuleGraph) :
    compile l d g = compile l d' g := by
  have hsame : ∀ m, SameTexts l g d d' m := fun m unit _ => by rw [Documents.get?_of_files h]
  exact funext fun u => funext fun source =>
    compile_congr_of_texts (hsame u.module) fun _ m _ => hsame m

/-! ## What a unit sees -/

/-- Whether compiling a unit with the given source reads a text for a unit: its own source, or the
text of a unit of its module or of one that it imports. -/
inductive Reads (l : Layout) (d : Documents) (g : ModuleGraph) (u : UnitId) (source : String) :
    UnitId → String → Prop
  | own : Reads l d g u source u source
  | listed {v : UnitId} {text : String}
    (hmodule : v.module = u.module ∨ v.module ∈ importedModules g u.module (.ofSource source))
    (hlisted : g.Lists v) (htext : d.get? (l.pathOf v) = some text) : Reads l d g u source v text

variable {u : UnitId} {source : String} {P : Symbol → Prop}

theorem goodScope_empty (m : ModuleId) : GoodScope P (.empty m) := fun _ h => nomatch h

/-- What units add to a scope is what their items declare. -/
theorem addUnits_good {read : String → Except CompileError Tree} {units : List String}
    {s s' : ModuleScope} (hs : GoodScope P s)
    (hread : ∀ unit ∈ units, ∀ t, read unit = .ok t →
      ∀ n ∈ t.root.children, Covers P (itemPaths s.module n))
    (h : addUnits read s units = .ok s') : GoodScope P s' := by
  induction units generalizing s with
  | nil =>
    cases h
    exact hs
  | cons unit units ih =>
    rw [addUnits] at h
    obtain ⟨t, ht, h⟩ := Except.bind_eq_ok.1 h
    rw [List.forall_mem_cons] at hread
    refine ih (s := s.addUnit unit t) (fun item hitem => ?_) hread.2 h
    rcases List.mem_append.1 hitem with hitem | hitem
    · exact hs item hitem
    · obtain ⟨n, hn, hitem⟩ := List.mem_filterMap.1 hitem
      obtain ⟨⟨p, hp, hsymbol⟩, hfields⟩ := itemOf?_at hitem
      refine ⟨hread.1 t ht n hn p hp _ hsymbol, fun f hf => ?_⟩
      obtain ⟨q, hq, hfield⟩ := hfields f hf
      exact hread.1 t ht n hn q hq _ hfield

theorem moduleScopes_good {ms : List ModuleId} {scopes : List ModuleScope}
    (hread : ∀ m ∈ ms, ∀ unit ∈ g.unitsOf m, ∀ text, d.get? (l.pathOf ⟨m, unit⟩) = some text →
      ∀ n ∈ (Tree.ofSource text).root.children, Covers P (itemPaths m n))
    (h : moduleScopes l d g ms = .ok scopes) : ∀ scope ∈ scopes, GoodScope P scope := by
  induction ms generalizing scopes with
  | nil =>
    cases h
    exact fun _ h => nomatch h
  | cons m ms ih =>
    rw [moduleScopes] at h
    rw [List.forall_mem_cons] at hread
    obtain ⟨scope, hfirst, h⟩ := Except.bind_eq_ok.1 h
    obtain ⟨rest, hrest, rfl⟩ := Except.map_eq_ok.1 h
    refine List.forall_mem_cons.2 ⟨addUnits_good (goodScope_empty m) ?_ hfirst, ih hread.2 hrest⟩
    intro unit hunit t ht
    obtain ⟨text, htext, -, rfl⟩ := readTree_eq_ok_iff.1 ht
    exact hread.1 unit hunit text htext

/-- What a unit sees is what the texts declare that compiling reads. -/
theorem visible_good {own : ModuleScope} {imports : List ModuleScope}
    (hown : moduleScopeWith l d g u (.ofSource source) = .ok own)
    (himports : moduleScopes l d g (importedModules g u.module (.ofSource source)) = .ok imports)
    (hP : ∀ v text, Reads l d g u source v text →
      ∀ n ∈ (Tree.ofSource text).root.children, Covers P (itemPaths v.module n)) :
    Visible.Good P ⟨own, imports⟩ := by
  constructor
  · refine addUnits_good (goodScope_empty _) (fun unit hunit t ht => ?_) hown
    split at ht
    · cases ht
      exact hP u source .own
    · rename_i hother
      obtain ⟨text, htext, -, rfl⟩ := readTree_eq_ok_iff.1 ht
      exact hP ⟨u.module, unit⟩ text (.listed (.inl rfl) (mem_unitsOf_of_ne hunit hother) htext)
  · refine moduleScopes_good (fun m hm unit hunit text htext => ?_) himports
    exact hP ⟨m, unit⟩ text (.listed (.inr hm) hunit htext)

/-- Modules are imported by words. -/
theorem isWord_of_imported {m m' : ModuleId}
    (h : m' ∈ importedModules g m (.ofSource source)) : m'.IsWord := by
  obtain ⟨name, hname, rfl⟩ := List.mem_map.1 (List.mem_filter.1 h).1
  obtain ⟨n, hn, hname⟩ := List.mem_filterMap.1 hname
  obtain ⟨t, ht, rfl⟩ := Option.map_eq_some_iff.1 hname
  exact .inr (isWord_identifierAt? (Node.mem_preorder_child (List.mem_filter.1 hn).1) ht)

/-- **What a unit compiles to** is its tree, with what it mentions; what it sees is what the texts
declare that compiling reads. -/
theorem exists_context_of_compile {b : BoundUnit} (h : compile l d g u source = .ok b) :
    ∃ c : Context, c.module = u.module ∧ c.unit = u.unit ∧
      (∀ P, (∀ v text, Reads l d g u source v text →
        ∀ n ∈ (Tree.ofSource text).root.children, Covers P (itemPaths v.module n)) →
          c.visible.Good P) ∧
      b = .ofList u.module u.unit (.ofSource source) (bindTree c (.ofSource source)) := by
  obtain ⟨-, -, own, imports, hown, himports, rfl⟩ := compile_eq_ok.1 h
  exact ⟨_, rfl, rfl, fun P hP => visible_good hown himports hP, rfl⟩

end Xref.Binding
