import Xref.Proofs.Binding.Visits

/-!
# Where a visit stands

At every node of a function the walk knows the name of the function, and it has declared fewer
variables of a name than there are in the function (`visits_within`). So what a visit declares is at
a path of the unit (`parameter_mem`, `localVar_mem`, `itemPaths_mem`, `recordPaths_mem`).
-/

namespace Xref.Binding

variable {c : Context} {n m : Node} {s : State} {v : Visit} {source : String}

/-! ## What a walk knows of the function around it -/

/-- A walk of part of a function declares the variables in it. -/
theorem bindNode_walks (hkind : ∀ m ∈ n.preorder, m.kind ≠ .functionDefinition) (isBody : Bool)
    (s : State) : Advances Anything n.preorder (localNames n) s (bindNode c isBody n s).2 := by
  have hlocals : Covers Anything
      (localPaths c.module c.unit s.functionName (s.declared ++ localNames n)) := covers_anything _
  refine (bindNode_advances (visible_anything _) hlocals n isBody s
    (fun m hm => ⟨covers_anything _, hkind m hm⟩) (fun _ => covers_anything _) rfl ?_
    (good_anything s)).2
  intro x _
  rw [List.count_append]

theorem bindSlots_walks {slots : List Child}
    (hkind : ∀ m ∈ Node.preorderOf slots, m.kind ≠ .functionDefinition) (inType : Bool)
    (s : State) : Advances Anything (Node.preorderOf slots) (localNamesIn slots) s
      (bindSlots c inType slots s).2 := by
  have hlocals : Covers Anything (localPaths c.module c.unit s.functionName
      (s.declared ++ localNamesIn slots)) := covers_anything _
  refine (bindSlots_advances (visible_anything _) hlocals slots inType s
    (fun m hm => ⟨covers_anything _, hkind m hm⟩) (fun _ _ _ => covers_anything _) rfl ?_
    (good_anything s)).2
  intro x _
  rw [List.count_append]

/-- Whether a visit stands in the function around a state and has declared fewer variables of its
name than the state has and `names` has. -/
structure Visit.Within (v : Visit) (s : State) (names : List String) : Prop where
  function : v.state.function = s.function
  declared : ∀ x ∈ nameIn? .variableDeclaration 1 v.node,
    v.state.declared.count x < s.declared.count x + names.count x

mutual

/-- **In a part of a function** every visit knows the function and has declared fewer variables than
there are. -/
theorem visits_within : ∀ (n : Node) (isBody : Bool) (s : State),
    (∀ m ∈ n.preorder, m.kind ≠ .functionDefinition) →
    ∀ v ∈ visits c isBody n s, v.Within s (localNames n)
  | ⟨id, kind, full, ends, slots⟩, isBody, s, hkind, v, hv => by
    have hself := hkind _ (Node.self_mem_preorder _)
    have hbelow : ∀ m ∈ Node.preorderOf slots, m.kind ≠ .functionDefinition :=
      fun m hm => hkind m (List.mem_cons_of_mem _ hm)
    have henter := enter_advances (c := c) (f := s.functionName) (covers_anything _) hself
      (good_anything s)
    rw [localNames_mk]
    rcases List.mem_cons.1 hv with rfl | hv
    · have hwalk := bindSlots_walks (c := c) hbelow (kind == .typeDefinition)
        (c.enter ⟨id, kind, full, ends, slots⟩ s)
      refine ⟨hwalk.function.trans henter.function, fun x hx => ?_⟩
      have hname : nameIn? .variableDeclaration 1 ⟨id, kind, full, ends, slots⟩ = some x := hx
      dsimp only
      rw [hwalk.count_declared, henter.count_declared, hname, List.count_append, Option.toList_some,
        List.count_singleton_self, List.count_nil]
      omega
    · have hwithin := visits_withinIn slots (kind == .typeDefinition) _ hbelow v hv
      refine ⟨hwithin.function.trans henter.function, fun x hx => ?_⟩
      have := hwithin.declared x hx
      rw [henter.count_declared, List.count_nil] at this
      rw [List.count_append]
      omega

theorem visits_withinIn : ∀ (slots : List Child) (inType : Bool) (s : State),
    (∀ m ∈ Node.preorderOf slots, m.kind ≠ .functionDefinition) →
    ∀ v ∈ visitsIn c inType slots s, v.Within s (localNamesIn slots)
  | [], _, _, _, v, hv => nomatch hv
  | .node n :: rest, inType, s, hkind, v, hv => by
    have hfirst : ∀ m ∈ n.preorder, m.kind ≠ .functionDefinition :=
      fun m hm => hkind m (List.mem_append_left _ hm)
    have hrest : ∀ m ∈ Node.preorderOf rest, m.kind ≠ .functionDefinition :=
      fun m hm => hkind m (List.mem_append_right _ hm)
    rw [localNamesIn_node]
    rcases List.mem_append.1 hv with hv | hv
    · have hwithin := visits_within n inType s hfirst v hv
      refine ⟨hwithin.function, fun x hx => ?_⟩
      have := hwithin.declared x hx
      rw [List.count_append]
      omega
    · have hwalk := bindNode_walks (c := c) hfirst inType s
      have hwithin := visits_withinIn rest inType _ hrest v hv
      refine ⟨hwithin.function.trans hwalk.function, fun x hx => ?_⟩
      have := hwithin.declared x hx
      rw [hwalk.count_declared] at this
      rw [List.count_append]
      omega
  | .token _ :: rest, inType, s, hkind, v, hv => visits_withinIn rest inType s hkind v hv
  | .missing :: rest, inType, s, hkind, v, hv => visits_withinIn rest inType s hkind v hv

end

/-! ## Visits of an item -/

theorem exists_of_mem_visitsIn {slots : List Child} {inType : Bool}
    (hv : v ∈ visitsIn c inType slots s) :
    ∃ n ∈ slots.filterMap Slot.node?, ∃ s', v ∈ visits c inType n s' := by
  induction slots generalizing s with
  | nil => cases hv
  | cons slot rest ih =>
    cases slot with
    | node n =>
      rcases List.mem_append.1 hv with hv | hv
      · exact ⟨n, List.mem_cons_self, s, hv⟩
      · obtain ⟨m, hm, hv⟩ := ih hv
        exact ⟨m, List.mem_cons_of_mem _ hm, hv⟩
    | token t => exact ih hv
    | missing => exact ih hv

/-- Whether what a visit declares is at the paths of an item. -/
structure Visit.StandsIn (c : Context) (v : Visit) (item : Node) : Prop where
  node : ∀ p ∈ nodePaths c.module c.unit v.state.functionName v.node,
    p ∈ pathsInItem c.module c.unit item
  localVar : ∀ x ∈ nameIn? .variableDeclaration 1 v.node,
    SymbolPath.localVar c.module c.unit v.state.functionName x (v.state.declared.count x + 1) ∈
      pathsInItem c.module c.unit item

theorem nodePaths_mem {item : Node} {p : SymbolPath} (hn : n ∈ item.preorder)
    (hp : p ∈ nodePaths c.module c.unit (functionNameOf item) n) :
    p ∈ pathsInItem c.module c.unit item :=
  List.mem_append_left _ (List.mem_flatMap.2 ⟨n, hn, hp⟩)

/-- A walk that enters a function knows its name, and has declared no variable in it. -/
theorem enter_function (hn : n.kind = .functionDefinition) :
    (c.enter n s).function = (n.identifierAt? 1).map Token.text ∧ (c.enter n s).declared = [] := by
  rw [Context.enter, hn]
  exact ⟨rfl, rfl⟩

/-- Visits of a function stand in it. -/
theorem standsIn_function (hn : n.kind = .functionDefinition)
    (hbelow : ∀ m, (∃ child ∈ n.children, m ∈ child.preorder) → m.kind ≠ .functionDefinition)
    (hv : v ∈ visits c false n s) : v.StandsIn c n := by
  have hmem : v.node ∈ n.preorder := by
    rw [← node_visits n false s]
    exact List.mem_map_of_mem hv
  have hslots : ∀ m ∈ Node.preorderOf n.slots, m.kind ≠ .functionDefinition := fun m hm =>
    hbelow m (by rwa [Node.preorderOf_eq, List.mem_flatMap] at hm)
  have henter := enter_function (c := c) (s := s) hn
  rw [visits_eq] at hv
  have hwithin : v.state.function = (n.identifierAt? 1).map Token.text ∧
      ∀ x ∈ nameIn? .variableDeclaration 1 v.node,
        v.state.declared.count x < (localNamesIn n.slots).count x := by
    rcases List.mem_cons.1 hv with rfl | hv
    · have hwalk := bindSlots_walks (c := c) hslots (n.kind == .typeDefinition) (c.enter n s)
      refine ⟨hwalk.function.trans henter.1, fun x hx => ?_⟩
      rw [nameIn?, if_neg (by rw [hn]; decide)] at hx
      cases hx
    · have hwithin := visits_withinIn n.slots (n.kind == .typeDefinition) _ hslots v hv
      refine ⟨hwithin.function.trans henter.1, fun x hx => ?_⟩
      have := hwithin.declared x hx
      rwa [henter.2, List.count_nil, Nat.zero_add] at this
  have hname : v.state.functionName = functionNameOf n := by
    rw [State.functionName, hwithin.1]
    rfl
  refine ⟨fun p hp => nodePaths_mem hmem (by rwa [← hname]), fun x hx => ?_⟩
  have hlt := Nat.lt_of_lt_of_le (hwithin.2 x hx) (localNamesIn_subset n x)
  refine List.mem_append_right _ (List.mem_flatMap.2 ⟨x, List.count_pos_iff.1 (by omega), ?_⟩)
  exact List.mem_map.2 ⟨_, List.mem_range.2 hlt, by rw [hname]⟩

/-- Visits of an item that is no function stand in it. -/
theorem standsIn_other (hstill : ∀ m ∈ n.preorder, m.kind.isStill)
    (hv : v ∈ visits c false n s) : v.StandsIn c n := by
  have hmem : v.node ∈ n.preorder := by
    rw [← node_visits n false s]
    exact List.mem_map_of_mem hv
  have hkind := hstill _ hmem
  refine ⟨fun p hp => nodePaths_mem hmem ?_, fun x hx => ?_⟩
  · rwa [nodePaths_of_isStill _ hkind] at hp
  · rw [nameIn?, if_neg] at hx
    · cases hx
    · intro heq
      rw [heq] at hkind
      cases hkind

/-- **Every visit but that of the root** stands in an item of the unit. -/
theorem exists_standsIn (hv : v ∈ unitVisits c source) :
    v.node = (Tree.ofSource source).root ∨
      ∃ item ∈ (Tree.ofSource source).root.children, v.StandsIn c item := by
  rw [unitVisits, visits_eq] at hv
  rcases List.mem_cons.1 hv with rfl | hv
  · exact .inl rfl
  · have htype : ((Tree.ofSource source).root.kind == NodeKind.typeDefinition) = false := by
      rw [Tree.kind_root]; rfl
    rw [htype] at hv
    obtain ⟨item, hitem, s, hv⟩ := exists_of_mem_visitsIn hv
    refine .inr ⟨item, hitem, ?_⟩
    by_cases hkind : item.kind = .functionDefinition
    · refine standsIn_function hkind (fun m hm heq => ?_) hv
      have := Tree.isBelowItem_below hitem hm
      rw [heq] at this
      cases this
    · exact standsIn_other (fun m hm => Tree.isStill_below hitem hkind hm) hv

/-! ## Paths of what a visit declares -/

section
variable {name : Token} {p : SymbolPath} (hv : v ∈ unitVisits c source)

include hv

theorem nodePaths_subset (hkind : v.node.kind ≠ .modulePart)
    (hp : p ∈ nodePaths c.module c.unit v.state.functionName v.node) :
    p ∈ unitPaths c.module c.unit (.ofSource source) := by
  rcases exists_standsIn hv with hroot | ⟨item, hitem, hstands⟩
  · rw [hroot, Tree.kind_root] at hkind
    exact absurd rfl hkind
  · exact List.mem_flatMap.2 ⟨item, hitem, hstands.node p hp⟩

theorem itemPaths_mem (hp : p ∈ itemPaths c.module v.node) :
    p ∈ unitPaths c.module c.unit (.ofSource source) := by
  refine nodePaths_subset hv (fun hkind => ?_) (by simp [nodePaths, hp])
  rw [itemPaths, hkind] at hp
  cases hp

theorem module_mem (hkind : v.node.kind = .importDeclaration)
    (hname : v.node.identifierAt? 1 = some name) :
    SymbolPath.module name.text ∈ unitPaths c.module c.unit (.ofSource source) := by
  refine nodePaths_subset hv (by rw [hkind]; decide) ?_
  simp [nodePaths, nameIn?, hkind, hname]

theorem builtin_mem (hkind : v.node.kind ≠ .modulePart) (hname : name ∈ v.node.childTokens)
    (hidentifier : name.kind = .identifier) (hbuiltin : (builtinDetail? name.text).isSome) :
    SymbolPath.builtin name.text ∈ unitPaths c.module c.unit (.ofSource source) := by
  refine nodePaths_subset hv hkind (List.mem_append_right _ (List.mem_filterMap.2 ⟨name, ?_, ?_⟩))
  · simpa [TokenKind.isIdentifier, hname] using hidentifier
  · obtain ⟨detail, hdetail⟩ := Option.isSome_iff_exists.1 hbuiltin
    rw [builtinPath?, hdetail]
    rfl

theorem parameter_mem (hkind : v.node.kind = .requiredParameter)
    (hname : v.node.identifierAt? 0 = some name) :
    SymbolPath.parameter c.module c.unit v.state.functionName name.text ∈
      unitPaths c.module c.unit (.ofSource source) := by
  refine nodePaths_subset hv (by rw [hkind]; decide) ?_
  simp [nodePaths, nameIn?, hkind, hname]

theorem localVar_mem (hkind : v.node.kind = .variableDeclaration)
    (hname : v.node.identifierAt? 1 = some name) :
    SymbolPath.localVar c.module c.unit v.state.functionName name.text
        (v.state.declared.count name.text + 1) ∈
      unitPaths c.module c.unit (.ofSource source) := by
  have hin : nameIn? .variableDeclaration 1 v.node = some name.text := by
    rw [nameIn?, if_pos hkind, hname]
    rfl
  rcases exists_standsIn hv with hroot | ⟨item, hitem, hstands⟩
  · rw [hroot, Tree.kind_root] at hkind
    cases hkind
  · exact List.mem_flatMap.2 ⟨item, hitem, hstands.localVar _ hin⟩

/-- A record written in place is not the body of a type definition, so the node above it introduces
its paths. -/
theorem recordPaths_mem (hkind : v.node.kind = .recordTypeDescriptor) (hbody : v.isBody = false)
    (hp : p ∈ recordPaths c.module c.unit v.node) :
    p ∈ unitPaths c.module c.unit (.ofSource source) := by
  rcases (below_visits _ _ _ v hv).2 with ⟨hroot, -⟩ | ⟨m, hm, hchild, hm'⟩
  · rw [hroot, Tree.kind_root] at hkind
    cases hkind
  · rw [hbody] at hm'
    have htype : m.kind ≠ .typeDefinition := by simpa using hm'.symm
    have hallows := Tree.allows_ofSource hm hchild
    obtain ⟨w, hw, rfl⟩ := exists_visit (c := c) hm
    refine nodePaths_subset hw (fun hroot => ?_) ?_
    · rw [hroot, hkind] at hallows
      cases hallows
    · rw [nodePaths, if_neg htype]
      simp only [List.mem_append, List.mem_flatMap]
      exact .inl (.inl (.inl (.inr ⟨_, hchild, hp⟩)))

end

end Xref.Binding
