import Xref.Binding.Compile
import Xref.Proofs.Binding.Arising
import Xref.Proofs.Binding.Mentions
import Xref.Proofs.Project.Projects
import Xref.Proofs.Syntax.Likeness
import Xref.Proofs.Syntax.Spans

/-!
# What compiled units mention

In a project whose documents fit its graph a unit compiles unless it holds an unknown character or
sees a text with too many bytes for offsets (`compile_eq_ok_iff`). Every symbol that it then
mentions is at a path of the project, and the owner of a symbol with a declaration is the module of
the unit or one that this module imports directly (`mention_known`). This is why a search for a
symbol need only look at the importers of its owner.
-/

/-! ## Results -/

namespace Except

variable {α β ε ε' : Type} {x : Except ε α} {b : β}

theorem bind_eq_ok {f : α → Except ε β} : x.bind f = .ok b ↔ ∃ a, x = .ok a ∧ f a = .ok b := by
  cases x <;> simp [Except.bind]

theorem map_eq_ok {f : α → β} : x.map f = .ok b ↔ ∃ a, x = .ok a ∧ f a = b := by
  cases x <;> simp [Except.map]

theorem mapError_eq_ok {f : ε → ε'} {a : α} : x.mapError f = .ok a ↔ x = .ok a := by
  cases x <;> simp [Except.mapError]

theorem toOption_eq_some {a : α} : x.toOption = some a ↔ x = .ok a := by
  cases x <;> simp [Except.toOption]

end Except

namespace Xref

open Workspace (usualLayout)

theorem exists_ok_of_any {α ε : Type} {x : Except ε α} {p : α → Bool} (h : x.toOption.any p) :
    ∃ a, x = .ok a ∧ p a := by
  cases x with
  | ok a => exact ⟨a, rfl, h⟩
  | error e => cases h

namespace Binding

variable {d : Documents} {g : ModuleGraph} {u : UnitId} {m : ModuleId} {source : String}

/-! ## Scopes of modules -/

/-- The items of a unit as the documents have it. -/
def itemsIn (d : Documents) (m : ModuleId) (unit : String) : List Item :=
  match d.textOf? ⟨m, unit⟩ with
  | some text => (Tree.ofSource text).root.children.filterMap (itemOf? m unit)
  | none => []

/-- The items of a module as the documents have it. -/
def scopeOf (d : Documents) (g : ModuleGraph) (m : ModuleId) : ModuleScope :=
  ⟨m, (g.unitsOf m).flatMap (itemsIn d m)⟩

/-- Whether offsets can count the bytes of every text of a module. -/
def Sized (d : Documents) (g : ModuleGraph) (m : ModuleId) : Prop :=
  ∀ unit ∈ g.unitsOf m, ∀ text, d.textOf? ⟨m, unit⟩ = some text →
    text.utf8ByteSize ≤ Span.maxOffset

theorem parseSource_eq_ok_iff {t : Tree} : parseSource source = .ok t ↔
    source.utf8ByteSize ≤ Span.maxOffset ∧ t = .ofSource source :=
  Except.mapError_eq_ok.trans parse_eq_ok_iff

theorem readTree_eq_ok_iff {l : Layout} {t : Tree} : readTree l d u = .ok t ↔
    ∃ text, d.get? (l.pathOf u) = some text ∧ text.utf8ByteSize ≤ Span.maxOffset ∧
      t = .ofSource text := by
  simp only [readTree, Except.bind_eq_ok, Except.mapError_eq_ok, Documents.content_eq_ok_iff,
    parseSource_eq_ok_iff]

theorem addUnits_eq_ok_iff {read : String → Except CompileError Tree} {units : List String}
    (h : ∀ unit ∈ units, ∃ text, d.textOf? ⟨m, unit⟩ = some text ∧
      ∀ t, read unit = .ok t ↔ text.utf8ByteSize ≤ Span.maxOffset ∧ t = .ofSource text)
    {s s' : ModuleScope} (hs : s.module = m) : addUnits read s units = .ok s' ↔
      (∀ unit ∈ units, ∀ text, d.textOf? ⟨m, unit⟩ = some text →
        text.utf8ByteSize ≤ Span.maxOffset) ∧
      s' = ⟨m, s.items ++ units.flatMap (itemsIn d m)⟩ := by
  induction units generalizing s with
  | nil =>
    rw [addUnits, List.flatMap_nil, List.append_nil, ← hs, Except.ok.injEq, eq_comm]
    simp
  | cons unit units ih =>
    rw [List.forall_mem_cons] at h
    obtain ⟨⟨text, htext, hread⟩, hrest⟩ := h
    have hitems : itemsIn d m unit =
        (Tree.ofSource text).root.children.filterMap (itemOf? s.module unit) := by
      rw [itemsIn, htext, hs]
    have hadded : (s.addUnit unit (.ofSource text)).items ++ units.flatMap (itemsIn d m) =
        s.items ++ (unit :: units).flatMap (itemsIn d m) := by
      rw [List.flatMap_cons, hitems, ModuleScope.addUnit, List.append_assoc]
    have hstep := ih hrest (s := s.addUnit unit (.ofSource text)) hs
    rw [hadded] at hstep
    have hfirst : (∀ text', d.textOf? ⟨m, unit⟩ = some text' →
        text'.utf8ByteSize ≤ Span.maxOffset) ↔ text.utf8ByteSize ≤ Span.maxOffset := by
      simp [htext]
    rw [addUnits, Except.bind_eq_ok, List.forall_mem_cons, hfirst, and_assoc, ← hstep]
    constructor
    · rintro ⟨t, ht, hadd⟩
      obtain ⟨hsize, rfl⟩ := (hread t).1 ht
      exact ⟨hsize, hadd⟩
    · rintro ⟨hsize, hadd⟩
      exact ⟨_, (hread _).2 ⟨hsize, rfl⟩, hadd⟩

theorem lists_of_mem_unitsOf {unit : String} (h : unit ∈ g.unitsOf m) : g.Lists ⟨m, unit⟩ := h

/-- The trees of the units that a graph lists are those of their texts. -/
theorem exists_readTree (hfit : d.Fit g) (hu : g.Lists u) : ∃ text, d.textOf? u = some text ∧
    ∀ t, readTree usualLayout d u = .ok t ↔
      text.utf8ByteSize ≤ Span.maxOffset ∧ t = .ofSource text := by
  obtain ⟨text, htext⟩ := hfit.text u hu
  have hget : d.get? (usualLayout.pathOf u) = some text := htext
  exact ⟨text, htext, fun t => by simp [readTree_eq_ok_iff, hget]⟩

theorem moduleScope_eq_ok_iff (hfit : d.Fit g) {scope : ModuleScope} :
    moduleScope usualLayout d g m = .ok scope ↔ Sized d g m ∧ scope = scopeOf d g m :=
  addUnits_eq_ok_iff (fun _ hunit => exists_readTree hfit (lists_of_mem_unitsOf hunit)) rfl

/-- The scope that a unit sees of its own module is the one that others see. -/
theorem moduleScopeWith_eq_ok_iff (hfit : d.Fit g) (hu : g.Lists u)
    (htext : d.textOf? u = some source) (hsize : source.utf8ByteSize ≤ Span.maxOffset)
    {scope : ModuleScope} : moduleScopeWith usualLayout d g u (.ofSource source) = .ok scope ↔
      Sized d g u.module ∧ scope = scopeOf d g u.module := by
  have hlisted : u.unit ∈ g.unitsOf u.module := hu
  rw [moduleScopeWith, if_pos hlisted]
  refine addUnits_eq_ok_iff (fun unit hunit => ?_) rfl
  split
  · rename_i heq
    exact ⟨source, heq ▸ htext, fun t => by simp [hsize, eq_comm]⟩
  · exact exists_readTree hfit (lists_of_mem_unitsOf hunit)

theorem moduleScopes_eq_ok_iff (hfit : d.Fit g) {ms : List ModuleId}
    {scopes : List ModuleScope} : moduleScopes usualLayout d g ms = .ok scopes ↔
      (∀ m ∈ ms, Sized d g m) ∧ scopes = ms.map (scopeOf d g) := by
  induction ms generalizing scopes with
  | nil => simp [moduleScopes, eq_comm]
  | cons m ms ih =>
    simp only [moduleScopes, Except.bind_eq_ok, Except.map_eq_ok, moduleScope_eq_ok_iff hfit, ih,
      List.forall_mem_cons, List.map_cons]
    constructor
    · rintro ⟨_, ⟨hfirst, rfl⟩, _, ⟨hrest, rfl⟩, rfl⟩
      exact ⟨⟨hfirst, hrest⟩, rfl⟩
    · rintro ⟨⟨hfirst, hrest⟩, rfl⟩
      exact ⟨_, ⟨hfirst, rfl⟩, _, ⟨hrest, rfl⟩, rfl⟩

/-! ## Compiling -/

/-- Trees that are alike import the same modules, if these are named by the same texts. -/
theorem importsOf_eq_of_alike {R : Token → Token → Prop} {t t' : Tree} (h : t.root.Alike R t'.root)
    (hkind : ∀ k k', R k k' → k'.kind = k.kind)
    (htext : ∀ n ∈ t.root.children, n.kind = .importDeclaration →
      ∀ k k', n.identifierAt? 1 = some k → R k k' → k'.text = k.text) :
    importsOf t' = importsOf t := by
  refine filterMap_eq_of_forall₂ (forall₂_mem (filter_rel h.children fun _ _ hn => ?_)) ?_
  · rw [hn.kind_eq]
  · rintro n n' ⟨hmem, -, hn⟩
    obtain ⟨hchild, himport⟩ := List.mem_filter.1 hmem
    rcases rel_cases (hn.identifierAt? hkind 1) with ⟨hk, hk'⟩ | ⟨k, k', hk, hk', hrel⟩
    · rw [hk, hk']
    · rw [hk, hk', Option.map_some, Option.map_some,
        htext n hchild (by simpa using himport) k k' hk hrel]

/-- Trees with tokens of the same kinds hold unknown characters at the same places. -/
theorem unknownToken?_rel {R : Token → Token → Prop} {source' : String}
    (h : (Tree.ofSource source).root.Alike R (Tree.ofSource source').root)
    (hkind : ∀ t t', R t t' → t'.kind = t.kind) :
    Option.Rel R (unknownToken? (.ofSource source)) (unknownToken? (.ofSource source')) := by
  have htokens := h.tokens
  rw [Tree.tokens_root, Tree.tokens_root] at htokens
  have hfind : ∀ source, unknownToken? (.ofSource source) =
      (sourceTokens source).find? fun t => t.kind == .unknown := fun source =>
    List.find?_toArray _ _
  rw [hfind, hfind]
  exact find?_rel htokens fun t t' ht => by rw [hkind t t' ht]

/-- What a unit with the given text sees. -/
def visibleIn (d : Documents) (g : ModuleGraph) (u : UnitId) (source : String) : Visible :=
  ⟨scopeOf d g u.module, (importedModules g u.module (.ofSource source)).map (scopeOf d g)⟩

/-- What a unit with the given text is bound in. -/
def contextIn (d : Documents) (g : ModuleGraph) (u : UnitId) (source : String) : Context :=
  ⟨u.module, u.unit, visibleIn d g u source⟩

/-- A unit with the given text, bound. -/
def boundUnit (d : Documents) (g : ModuleGraph) (u : UnitId) (source : String) : BoundUnit :=
  .ofList u.module u.unit (.ofSource source)
    (bindTree (contextIn d g u source) (.ofSource source))

/-- **A unit compiles** exactly if it has a tree, holds no unknown character and the scopes that it
needs can be made, to what its tree mentions in these scopes. -/
theorem compile_eq_ok {l : Layout} {b : BoundUnit} : compile l d g u source = .ok b ↔
    source.utf8ByteSize ≤ Span.maxOffset ∧ unknownToken? (.ofSource source) = none ∧
      ∃ own imports, moduleScopeWith l d g u (.ofSource source) = .ok own ∧
        moduleScopes l d g (importedModules g u.module (.ofSource source)) = .ok imports ∧
        b = .ofList u.module u.unit (.ofSource source)
          (bindTree ⟨u.module, u.unit, ⟨own, imports⟩⟩ (.ofSource source)) := by
  rw [compile, Except.bind_eq_ok]
  simp only [parseSource_eq_ok_iff, and_assoc]
  constructor
  · rintro ⟨t, hsize, rfl, h⟩
    refine ⟨hsize, ?_⟩
    cases hknown : unknownToken? (.ofSource source) with
    | some token => rw [hknown] at h; cases h
    | none =>
      rw [hknown] at h
      obtain ⟨own, hown, h⟩ := Except.bind_eq_ok.1 h
      obtain ⟨imports, himports, rfl⟩ := Except.map_eq_ok.1 h
      exact ⟨rfl, own, imports, hown, himports, rfl⟩
  · rintro ⟨hsize, hknown, own, imports, hown, himports, rfl⟩
    refine ⟨_, hsize, rfl, ?_⟩
    rw [hknown]
    exact Except.bind_eq_ok.2 ⟨own, hown, Except.map_eq_ok.2 ⟨imports, himports, rfl⟩⟩

/-- Whether a unit with the given text has all that it takes to compile: offsets can count the bytes
of the texts that it sees, and it holds no unknown character. -/
structure CanCompile (d : Documents) (g : ModuleGraph) (u : UnitId) (source : String) : Prop where
  known : unknownToken? (.ofSource source) = none
  own : Sized d g u.module
  imports : ∀ m ∈ importedModules g u.module (.ofSource source), Sized d g m

theorem compile_eq_ok_iff (hfit : d.Fit g) (hu : g.Lists u) (htext : d.textOf? u = some source)
    {b : BoundUnit} : compile usualLayout d g u source = .ok b ↔
      CanCompile d g u source ∧ b = boundUnit d g u source := by
  rw [compile_eq_ok]
  constructor
  · rintro ⟨hsize, hknown, own, imports, hown, himports, rfl⟩
    obtain ⟨hsized, rfl⟩ := (moduleScopeWith_eq_ok_iff hfit hu htext hsize).1 hown
    obtain ⟨hothers, rfl⟩ := (moduleScopes_eq_ok_iff hfit).1 himports
    exact ⟨⟨hknown, hsized, hothers⟩, rfl⟩
  · rintro ⟨⟨hknown, hsized, hothers⟩, rfl⟩
    have hsize := hsized u.unit hu source htext
    exact ⟨hsize, hknown, _, _, (moduleScopeWith_eq_ok_iff hfit hu htext hsize).2 ⟨hsized, rfl⟩,
      (moduleScopes_eq_ok_iff hfit).2 ⟨hothers, rfl⟩, rfl⟩

end Binding

/-- Of several mentions of a node the last counts. -/
theorem BoundUnit.mention?_ofList (module : ModuleId) (name : String) (tree : Tree)
    (mentions : List (NodeId × Binding.Mention)) (node : NodeId) :
    (BoundUnit.ofList module name tree mentions).mention? node =
      (mentions.reverse.find? fun a => a.1 == node).map (·.2) := by
  have hfold : ∀ found : Std.TreeMap NodeId Binding.Mention,
      (mentions.foldl (fun found a => found.insert a.1 a.2) found)[node]? =
        ((mentions.reverse.find? fun a => a.1 == node).map (·.2)).or found[node]? := by
    induction mentions with
    | nil => exact fun found => rfl
    | cons first rest ih =>
      intro found
      rw [List.foldl_cons, ih, Std.TreeMap.getElem?_insert, List.reverse_cons, List.find?_append]
      cases rest.reverse.find? fun a => a.1 == node with
      | some a => rfl
      | none =>
        rw [List.find?_singleton]
        by_cases h : first.1 = node
        · simp [h]
        · simp [h]
  have h := hfold ∅
  rw [Std.TreeMap.getElem?_emptyc, Option.or_none] at h
  exact h

theorem BoundUnit.mem_of_mention? {module : ModuleId} {name : String} {tree : Tree}
    {mentions : List (NodeId × Binding.Mention)} {node : NodeId} {a : Binding.Mention}
    (h : (BoundUnit.ofList module name tree mentions).mention? node = some a) :
    (node, a) ∈ mentions := by
  rw [mention?_ofList, Option.map_eq_some_iff] at h
  obtain ⟨⟨node', a'⟩, hfind, rfl⟩ := h
  obtain rfl : node' = node := by simpa using List.find?_some hfind
  exact List.mem_reverse.1 (List.mem_of_find?_eq_some hfind)

namespace Binding

variable {d : Documents} {g : ModuleGraph} {u : UnitId} {source : String}

/-! ## Paths of a project -/

/-- The paths that the units of a project introduce. -/
def projectPaths (d : Documents) (g : ModuleGraph) : List SymbolPath :=
  g.modules.flatMap fun m => m.units.flatMap fun unit =>
    match d.textOf? ⟨m.id, unit⟩ with
    | some text => unitPaths m.id unit (.ofSource text)
    | none => []

/-- Whether paths with different written forms have different identities. -/
def CollisionFree (paths : List SymbolPath) : Prop :=
  ∀ p ∈ paths, ∀ q ∈ paths, SymbolId.ofPath p = .ofPath q → p.text = q.text

instance (paths : List SymbolPath) : Decidable (CollisionFree paths) := by
  unfold CollisionFree; infer_instance

theorem mem_projectPaths {p : SymbolPath} : p ∈ projectPaths d g ↔
    ∃ u text, g.Lists u ∧ d.textOf? u = some text ∧
      p ∈ unitPaths u.module u.unit (.ofSource text) := by
  simp only [projectPaths, List.mem_flatMap]
  constructor
  · rintro ⟨m, hm, unit, hunit, hp⟩
    split at hp
    · rename_i text htext
      exact ⟨⟨m.id, unit⟩, text, ModuleGraph.lists_iff.2 ⟨m, hm, rfl, hunit⟩, htext, hp⟩
    · cases hp
  · rintro ⟨u, text, hu, htext, hp⟩
    obtain ⟨m, hm, hid, hunit⟩ := ModuleGraph.lists_iff.1 hu
    refine ⟨m, hm, u.unit, hunit, ?_⟩
    rw [hid, show d.textOf? ⟨u.module, u.unit⟩ = some text from htext]
    exact hp

/-- Whether a path is of a form that can arise and belongs to a module, if something is declared at
it. -/
def FormedIn (m : ModuleId) (p : SymbolPath) : Prop := p.Formed ∧ (p.isDeclared → p.owner = m)

theorem isModule_of_wellNamed (hu : u.WellNamed) :
    SymbolPath.IsModule u.module ∧ ':' ∉ u.unit.toList := by
  obtain ⟨hmodule, hunit, hne, hlanguage⟩ := hu
  refine ⟨⟨?_, hne, hlanguage⟩, hunit.2.2.2.2⟩
  rcases hmodule with hcurrent | hstep
  · rw [hcurrent]
    decide
  · exact hstep.2.2.2.2

/-- Paths that arise in a unit with a good name are formed well. -/
theorem formed_of_arises (hu : u.WellNamed) {p : SymbolPath}
    (h : p.Arises (· = u.module) u.module u.unit) : FormedIn u.module p := by
  obtain ⟨hm, hunit⟩ := isModule_of_wellNamed hu
  refine ⟨?_, h.owner_eq⟩
  cases h with
  | item hk hx => exact .item (hk ▸ hm) hx
  | itemField hk ht hx => exact .itemField (hk ▸ hm) ht hx
  | record n => exact .record hm hunit
  | recordField n hx => exact .recordField hm hunit hx
  | parameter hf hx => exact .parameter hm hunit hf hx
  | localVar n hf hx => exact .localVar hm hunit hf hx
  | module hx => exact .module hx
  | builtin hx => exact .builtin hx

/-- The paths of a unit with a good name are formed well. -/
theorem formed_of_mem_unitPaths (hu : u.WellNamed) {p : SymbolPath}
    (hp : p ∈ unitPaths u.module u.unit (.ofSource source)) : FormedIn u.module p :=
  formed_of_arises hu (arises_of_mem_unitPaths rfl hp)

/-- Where no identities collide, paths of a project with one identity are the same path. -/
theorem eq_of_ofPath_eq (hfit : d.Fit g) (hfree : CollisionFree (projectPaths d g))
    {p q : SymbolPath} (hp : p ∈ projectPaths d g) (hq : q ∈ projectPaths d g)
    (h : SymbolId.ofPath p = .ofPath q) : p = q := by
  have htext := hfree p hp q hq h
  obtain ⟨u, text, hu, -, hpu⟩ := mem_projectPaths.1 hp
  obtain ⟨v, text', hv, -, hqv⟩ := mem_projectPaths.1 hq
  exact SymbolPath.text_injective (formed_of_mem_unitPaths (hfit.wellNamed u hu) hpu).1
    (formed_of_mem_unitPaths (hfit.wellNamed v hv) hqv).1 htext

/-! ## What a unit mentions -/

/-- Whether a module is the given one or is imported by it directly. -/
def Reaches (g : ModuleGraph) (m owner : ModuleId) : Prop :=
  owner = m ∨ ∃ n ∈ g.modules, n.id = m ∧ owner ∈ n.imports

/-- Whether a symbol is at a path of the project, and if something is declared there the module `m`
reaches its owner. -/
def KnownIn (d : Documents) (g : ModuleGraph) (m : ModuleId) (s : Symbol) : Prop :=
  ∃ p ∈ projectPaths d g, s.At p ∧ (p.isDeclared → Reaches g m p.owner)

theorem covers_unitPaths (hfit : d.Fit g) (hu : g.Lists u) (htext : d.textOf? u = some source) :
    Covers (KnownIn d g u.module) (unitPaths u.module u.unit (.ofSource source)) :=
  fun p hp _ hs => ⟨p, mem_projectPaths.2 ⟨u, source, hu, htext, hp⟩, hs, fun hdeclared =>
    .inl ((formed_of_mem_unitPaths (hfit.wellNamed u hu) hp).2 hdeclared)⟩

/-- An item of a module is declared at the top of one of its units. -/
theorem exists_of_mem_scopeOf (hfit : d.Fit g) {m : ModuleId} {item : Item}
    (h : item ∈ (scopeOf d g m).items) : ∃ unit text n, g.Lists ⟨m, unit⟩ ∧
      d.textOf? ⟨m, unit⟩ = some text ∧ n ∈ (Tree.ofSource text).root.children ∧
        itemOf? m unit n = some item := by
  obtain ⟨unit, hunit, hitem⟩ := List.mem_flatMap.1 h
  have hlists := lists_of_mem_unitsOf hunit
  obtain ⟨text, htext⟩ := hfit.text _ hlists
  rw [itemsIn, htext] at hitem
  obtain ⟨n, hn, hitem⟩ := List.mem_filterMap.1 hitem
  exact ⟨unit, text, n, hlists, htext, hn, hitem⟩

/-- What a module declares is known in every module that reaches it. -/
theorem goodScope_scopeOf (hfit : d.Fit g) {m owner : ModuleId} (h : Reaches g m owner) :
    GoodScope (KnownIn d g m) (scopeOf d g owner) := by
  intro item hitem
  obtain ⟨unit, text, n, hlists, htext, hn, hitem⟩ := exists_of_mem_scopeOf hfit hitem
  have hknown : ∀ s : Symbol, (∃ p ∈ itemPaths owner n, s.At p) → KnownIn d g m s := by
    rintro s ⟨p, hp, hs⟩
    have hpath : p ∈ unitPaths owner unit (.ofSource text) := itemPaths_subset hn hp
    refine ⟨p, mem_projectPaths.2 ⟨⟨owner, unit⟩, text, hlists, htext, hpath⟩, hs, ?_⟩
    intro hdeclared
    rw [(formed_of_mem_unitPaths (hfit.wellNamed _ hlists) hpath).2 hdeclared]
    exact h
  obtain ⟨hsymbol, hfields⟩ := itemOf?_at hitem
  exact ⟨hknown _ hsymbol, fun g hg => hknown _ (hfields g hg)⟩

theorem visibleIn_good (hfit : d.Fit g) (hu : g.Lists u) (htext : d.textOf? u = some source)
    (hsize : source.utf8ByteSize ≤ Span.maxOffset) :
    (visibleIn d g u source).Good (KnownIn d g u.module) := by
  refine ⟨goodScope_scopeOf hfit (.inl rfl), ?_⟩
  intro scope hscope
  obtain ⟨m, hm, rfl⟩ := List.mem_map.1 hscope
  obtain ⟨hm, hcondition⟩ := List.mem_filter.1 hm
  obtain ⟨name, hname, rfl⟩ := List.mem_map.1 hm
  obtain ⟨hcontains, hne⟩ := Bool.and_eq_true_iff.1 hcondition
  refine goodScope_scopeOf hfit (.inr ?_)
  exact hfit.imports u source hu htext hsize name hname hcontains (by simpa using hne)

/-- **A unit mentions only what its module reaches,** each mention at a node of its tree and named by
a token right below it. -/
theorem mention_known (hfit : d.Fit g) (hu : g.Lists u) (htext : d.textOf? u = some source)
    (hsize : source.utf8ByteSize ≤ Span.maxOffset) {node : NodeId} {a : Mention}
    (h : (boundUnit d g u source).mention? node = some a) :
    Witnessed (KnownIn d g u.module) (Tree.ofSource source).root.preorder (node, a) := by
  have hmem : (node, a) ∈ bindTree (contextIn d g u source) (.ofSource source) :=
    BoundUnit.mem_of_mention? h
  have hv : (contextIn d g u source).visible.Good (KnownIn d g u.module) :=
    visibleIn_good hfit hu htext hsize
  exact bindTree_witnessed hv (covers_unitPaths hfit hu htext) _ hmem

/-- A symbol is equivalent to one with a declaration only if it has the same identity. -/
theorem isEquivalent_iff {m : ModuleId} {s target : Symbol} (htarget : KnownIn d g m target)
    (hdeclared : target.declaration.isSome) : s.isEquivalent target ↔ s.id = target.id := by
  obtain ⟨q, -, htarget, -⟩ := htarget
  refine Symbol.isEquivalent_of_no_shape (htarget.shape (SymbolPath.isRecord_of_isDeclared ?_))
  rw [← htarget.declaration]
  exact hdeclared

/-- Where no identities collide, known symbols with one identity are at the same path. -/
theorem exists_at_of_id_eq (hfit : d.Fit g) (hfree : CollisionFree (projectPaths d g))
    {m m' : ModuleId} {s target : Symbol} (hs : KnownIn d g m s) (htarget : KnownIn d g m' target)
    (hid : s.id = target.id) :
    ∃ p, s.At p ∧ target.At p ∧ (p.isDeclared → Reaches g m p.owner) := by
  obtain ⟨p, hp, hsp, hreach⟩ := hs
  obtain ⟨q, hq, htq, -⟩ := htarget
  have hpath : p = q := eq_of_ofPath_eq hfit hfree hp hq
    (hsp.id.symm.trans (hid.trans htq.id))
  subst hpath
  exact ⟨p, hsp, htq, hreach⟩

theorem known_of_id_eq (hfit : d.Fit g) (hfree : CollisionFree (projectPaths d g))
    {m m' : ModuleId} {s target : Symbol} (hs : KnownIn d g m s) (htarget : KnownIn d g m' target)
    (hid : s.id = target.id) (hdeclared : target.declaration.isSome) :
    s.name = target.name ∧ s.declaration.isSome ∧ Reaches g m target.owner := by
  obtain ⟨p, hsp, htp, hreach⟩ := exists_at_of_id_eq hfit hfree hs htarget hid
  rw [htp.declaration] at hdeclared
  rw [htp.owner]
  exact ⟨hsp.name.trans htp.name.symm, hsp.declaration.trans hdeclared, hreach hdeclared⟩

theorem owner_eq_of_id_eq (hfit : d.Fit g) (hfree : CollisionFree (projectPaths d g))
    {m m' : ModuleId} {s target : Symbol} (hs : KnownIn d g m s) (htarget : KnownIn d g m' target)
    (hid : s.id = target.id) : s.owner = target.owner := by
  obtain ⟨p, hsp, htp, -⟩ := exists_at_of_id_eq hfit hfree hs htarget hid
  rw [hsp.owner, htp.owner]

end Binding

end Xref
