import Xref.Proofs.Binding.LocalPaths

/-!
# Lexical scoping

A bare name in a unit that compiles means the variable that lexical scoping says, or else the first
declaration of the name at the top of the units of its module, or else something that the language
provides (`compile_isScoped`). Names that mean variables mention symbols at the same path only if they
mean the same declaration, where the names of functions and of parameters allow to tell them apart.
-/

namespace Xref

/-- The units of the module of a unit in the order of the graph. If the graph does not list the unit
it comes last. -/
def ModuleGraph.unitsWith (g : ModuleGraph) (u : UnitId) : List String :=
  if u.unit ∈ g.unitsOf u.module then g.unitsOf u.module else g.unitsOf u.module ++ [u.unit]

/-- Whether a node of a tree is a bare name, given by a token. -/
structure Node.IsBareName (root r : Node) (name : Token) : Prop where
  mem : r ∈ root.preorder
  kind : r.kind = .simpleNameReference
  name : r.identifierAt? 0 = some name

open Binding (Item builtin? localPath)
open Workspace (documentsOf graphOf usualLayout)

/-- Whether the bare names in a bound unit mean what lexical scoping says, where its module has the
given items. -/
structure BoundUnit.IsScoped (b : BoundUnit) (u : UnitId) (items : List Item) : Prop where
  /-- Where variables of the name are visible it means one of them. -/
  exists_local : ∀ r name, b.tree.root.IsBareName r name → ∀ scope d,
    b.tree.root.IsVisibleAt r name.text scope d → ∃ k, b.tree.root.IsLocalAt r name.text k
  /-- A name that means a variable mentions the symbol of its declaration. -/
  mention_local : ∀ r name, b.tree.root.IsBareName r name → ∀ d,
    b.tree.root.IsLocalAt r name.text d → ∃ a, b.mention? d.id = some a ∧
      a.symbol.id = .ofPath (localPath u b.tree.root d name.text) ∧
      b.mention? r.id = some ⟨a.symbol, name.id⟩
  /-- Any other name mentions the first item of the name, or else what the language provides. -/
  mention_other : ∀ r name, b.tree.root.IsBareName r name →
    (∀ scope d, ¬ b.tree.root.IsVisibleAt r name.text scope d) → b.mention? r.id =
      (((items.find? fun item => item.symbol.name == name.text).map Item.symbol).or
        (builtin? name.text)).map fun symbol => ⟨symbol, name.id⟩
  /-- Different declarations of variables have different paths. -/
  paths_apart : b.tree.root.FunctionsDistinct → b.tree.root.ParametersDistinct →
    ∀ r r' name name' d d', b.tree.root.IsBareName r name → b.tree.root.IsBareName r' name' →
      b.tree.root.IsLocalAt r name.text d → b.tree.root.IsLocalAt r' name'.text d' →
        ((localPath u b.tree.root d name.text).text = (localPath u b.tree.root d' name'.text).text ↔
          d = d')

namespace Binding

variable {l : Layout} {d : Documents} {g : ModuleGraph} {u : UnitId} {source : String}
  {b : BoundUnit} {c : Context}

/-! ## Items of a module -/

/-- The items of a module: those of its units, one unit after the other. -/
def moduleItems (m : ModuleId) (units : List String) (trees : String → Tree) : List Item :=
  units.flatMap fun unit => (trees unit).root.children.filterMap (itemOf? m unit)

theorem read_of_addUnits {read : String → Except CompileError Tree} {units : List String}
    {s s' : ModuleScope} (h : addUnits read s units = .ok s') :
    ∀ unit ∈ units, ∃ t, read unit = .ok t := by
  induction units generalizing s with
  | nil => exact fun _ hunit => nomatch hunit
  | cons unit units ih =>
    rw [addUnits] at h
    obtain ⟨t, ht, h⟩ := Except.bind_eq_ok.1 h
    exact List.forall_mem_cons.2 ⟨⟨t, ht⟩, ih h⟩

/-- Units that are read add their items. -/
theorem addUnits_of_read {read : String → Except CompileError Tree} {trees : String → Tree}
    {units : List String} (h : ∀ unit ∈ units, read unit = .ok (trees unit)) (s : ModuleScope) :
    addUnits read s units = .ok ⟨s.module, s.items ++ moduleItems s.module units trees⟩ := by
  induction units generalizing s with
  | nil => rw [addUnits, moduleItems, List.flatMap_nil, List.append_nil]
  | cons unit units ih =>
    rw [List.forall_mem_cons] at h
    rw [addUnits, h.1]
    refine (ih h.2 (s.addUnit unit (trees unit))).trans ?_
    rw [ModuleScope.addUnit, moduleItems, moduleItems, List.flatMap_cons, List.append_assoc]

/-- Whether each unit of a module has the given tree: the unit that is compiled its own, any other the
one that the documents have. -/
structure AreTrees (l : Layout) (d : Documents) (g : ModuleGraph) (u : UnitId) (t : Tree)
    (trees : String → Tree) : Prop where
  own : trees u.unit = t
  read : ∀ unit ∈ g.unitsOf u.module, unit ≠ u.unit →
    readTree l d ⟨u.module, unit⟩ = .ok (trees unit)

theorem exists_areTrees {t : Tree} {scope : ModuleScope}
    (h : moduleScopeWith l d g u t = .ok scope) : ∃ trees, AreTrees l d g u t trees ∧
      scope = ⟨u.module, moduleItems u.module (g.unitsWith u) trees⟩ := by
  let read unit := if unit = u.unit then .ok t else readTree l d ⟨u.module, unit⟩
  let trees unit := (read unit).toOption.getD t
  have h : addUnits read (.empty u.module) (g.unitsWith u) = .ok scope := h
  have hread : ∀ unit ∈ g.unitsWith u, read unit = .ok (trees unit) := by
    intro unit hunit
    obtain ⟨t', ht'⟩ := read_of_addUnits h unit hunit
    rw [show trees unit = (read unit).toOption.getD t from rfl, ht']
    rfl
  refine ⟨trees, ⟨?_, fun unit hunit hother => ?_⟩, ?_⟩
  · show (read u.unit).toOption.getD t = t
    rw [show read u.unit = .ok t from if_pos rfl]
    rfl
  · have hlisted : unit ∈ g.unitsWith u := by
      rw [ModuleGraph.unitsWith]
      split
      · exact hunit
      · exact List.mem_append_left _ hunit
    rw [← hread unit hlisted]
    exact (if_neg hother).symm
  · rw [addUnits_of_read hread] at h
    exact (Except.ok.inj h).symm

/-- What a unit compiles to is bound in the items of its module. -/
theorem exists_bound_of_compile (h : compile l d g u source = .ok b) : ∃ trees imports,
    AreTrees l d g u (.ofSource source) trees ∧
      b = (Context.mk u.module u.unit
        ⟨⟨u.module, moduleItems u.module (g.unitsWith u) trees⟩, imports⟩).bound source := by
  obtain ⟨-, -, own, imports, hown, -, rfl⟩ := compile_eq_ok.1 h
  obtain ⟨trees, htrees, rfl⟩ := exists_areTrees hown
  exact ⟨trees, imports, htrees, rfl⟩

/-! ## Names -/

/-- **What the binder makes of a source text** is as lexical scoping says. -/
theorem isScoped_bound (c : Context) (source : String) :
    (c.bound source).IsScoped ⟨c.module, c.unit⟩ c.visible.own.items where
  exists_local r name hr scope k hk := hk.exists_isLocalAt (Tree.regular_ofSource source)
    (width_of_identifier hr.mem hr.name)
  mention_local r name hr k hk := by
    obtain ⟨a, ha, hmention⟩ := mention?_of_isLocalAt (c := c) hr.mem hr.kind hr.name hk
    obtain ⟨t, ht, htext⟩ := Node.exists_localName_of_declaresLocal hk.declares
    obtain ⟨a', ha', -, hid⟩ := mention?_of_localName (c := c) hk.mem ht
    obtain rfl := Option.some.inj (ha.symm.trans ha')
    rw [htext] at hid
    exact ⟨a, ha, hid, hmention⟩
  mention_other r name hr hnone := mention?_of_not_isVisibleAt hr.mem hr.kind hr.name hnone
  paths_apart hfunctions hparameters r r' name name' k k' hr hr' hk hk' := by
    constructor
    · exact localPath_injective _ rfl hfunctions hparameters hk.mem hk'.mem hk.declares hk'.declares
    · rintro rfl
      obtain ⟨t, ht, htext⟩ := Node.exists_localName_of_declaresLocal hk.declares
      obtain ⟨t', ht', htext'⟩ := Node.exists_localName_of_declaresLocal hk'.declares
      rw [← htext, ← htext', Option.some.inj (ht.symm.trans ht')]

/-- **Names in a unit that compiles** mean what lexical scoping says: the variable that is declared
last in the innermost scope, or else the first item of the name in the units of the module, or else
what the language provides, or else nothing. -/
theorem compile_isScoped (h : compile l d g u source = .ok b) : ∃ trees,
    AreTrees l d g u b.tree trees ∧
      b.IsScoped u (moduleItems u.module (g.unitsWith u) trees) := by
  obtain ⟨trees, imports, htrees, rfl⟩ := exists_bound_of_compile h
  exact ⟨trees, htrees, isScoped_bound _ source⟩

/-- A function whose parameter is hidden by a variable in a block. -/
def shadowFiles : List SourceFile :=
  [⟨⟨.current, "main.nav"⟩, "fn f(x: int) -> int { let y = x; { let x = 1; y = x; } return x; }"⟩]

/-- The name in the block and the one behind it mean different variables. -/
theorem compile_isScoped_shadowFiles : ∃ b r r' name name' k k',
    (∃ file ∈ shadowFiles, compile usualLayout (documentsOf usualLayout shadowFiles)
      (graphOf shadowFiles) file.unit file.text = .ok b) ∧
    b.tree.root.IsBareName r name ∧ b.tree.root.IsBareName r' name' ∧ name.text = name'.text ∧
    b.tree.root.IsLocalAt r name.text k ∧ b.tree.root.IsLocalAt r' name'.text k' ∧
    (localPath ⟨.current, "main.nav"⟩ b.tree.root k name.text).text ≠
      (localPath ⟨.current, "main.nav"⟩ b.tree.root k' name'.text).text := by
  have hchecked : (compile usualLayout (documentsOf usualLayout shadowFiles)
      (graphOf shadowFiles) ⟨.current, "main.nav"⟩
      "fn f(x: int) -> int { let y = x; { let x = 1; y = x; } return x; }").toOption.any fun b =>
      decide (b.tree.root.FunctionsDistinct ∧ b.tree.root.ParametersDistinct ∧
        (∀ item ∈ b.tree.root.children.filterMap (itemOf? .current "main.nav"),
          item.symbol.name ≠ "x") ∧
        ∃ r ∈ b.tree.root.preorder, ∃ r' ∈ b.tree.root.preorder,
          r.kind = .simpleNameReference ∧ r'.kind = .simpleNameReference ∧
          (∃ name ∈ r.identifierAt? 0, name.text = "x") ∧
          (∃ name ∈ r'.identifierAt? 0, name.text = "x") ∧
          (b.mention? r.id).isSome ∧ (b.mention? r'.id).isSome ∧
          (b.mention? r.id).map Mention.symbol ≠ (b.mention? r'.id).map Mention.symbol) := by
    decide +kernel
  obtain ⟨b, hcompile, hchecked⟩ := exists_ok_of_any hchecked
  obtain ⟨hfunctions, hparameters, hitems, r, hr, r', hr', hkind, hkind', ⟨name, hname, htext⟩,
    ⟨name', hname', htext'⟩, hsome, hsome', hne⟩ := of_decide_eq_true hchecked
  obtain ⟨trees, htrees, hscoped⟩ := compile_isScoped hcompile
  have hname : b.tree.root.IsBareName r name := ⟨hr, hkind, hname⟩
  have hname' : b.tree.root.IsBareName r' name' := ⟨hr', hkind', hname'⟩
  -- The module has no item of the name, so that what is mentioned is a variable.
  have hlocal : ∀ {r name}, b.tree.root.IsBareName r name → name.text = "x" →
      (b.mention? r.id).isSome → ∃ k, b.tree.root.IsLocalAt r name.text k := by
    intro r name hname htext hsome
    by_contra hnone
    have hother := hscoped.mention_other r name hname fun scope d hd =>
      hnone (hscoped.exists_local r name hname scope d hd)
    rw [htext, show (graphOf shadowFiles).unitsWith ⟨.current, "main.nav"⟩ = ["main.nav"] by
      decide +kernel, moduleItems, List.flatMap_singleton, htrees.own,
      List.find?_eq_none.2 fun item hitem => by simpa using hitems item hitem] at hother
    rw [hother] at hsome
    cases hsome
  obtain ⟨k, hk⟩ := hlocal hname htext hsome
  obtain ⟨k', hk'⟩ := hlocal hname' htext' hsome'
  refine ⟨b, r, r', name, name', k, k', ⟨_, List.mem_singleton_self _, hcompile⟩, hname, hname',
    htext.trans htext'.symm, hk, hk', fun hpath => hne ?_⟩
  obtain rfl := (hscoped.paths_apart hfunctions hparameters r r' name name' k k' hname hname' hk
    hk').1 hpath
  obtain ⟨a, ha, -, hmention⟩ := hscoped.mention_local r name hname k hk
  obtain ⟨a', ha', -, hmention'⟩ := hscoped.mention_local r' name' hname' k hk'
  rw [hmention, hmention', Option.some.inj (ha.symm.trans ha')]
  rfl

end Binding

end Xref
