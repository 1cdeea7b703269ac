import Xref.Proofs.Binding.Inputs
import Xref.Proofs.Binding.Scoping
import Xref.Proofs.Binding.VisitPaths

/-!
# Paths of local variables

The symbol of a variable is at a path with the function around its declaration and, for all but
parameters, the number of the declaration among those of its name (`mention?_of_localName`). The walk
counts as it goes, and the count at a declaration is that of the declarations before it in the tree
(`count_visits`). Where no two functions and no two parameters of a function have the same name,
different declarations have different paths (`localPath_injective`).
-/

namespace Xref

namespace Node

/-! ## Functions around declarations -/

/-- The function of a unit in which a node lies. -/
def functionAround? (root d : Node) : Option Node :=
  root.children.find? fun f => f.kind == .functionDefinition && f.preorder.any fun m => m.id == d.id

/-- Whether a node declares a local variable of the given name and ends before another starts. -/
def declaresBefore (d : Node) (name : String) (m : Node) : Bool :=
  m.kind == .variableDeclaration && m.declaresLocal name &&
    decide (m.fullSpan.stop ≤ d.fullSpan.start)

/-- How many local variables of a name the function around a node declares before it. -/
def variablesBefore (root d : Node) (name : String) : Nat :=
  (root.functionAround? d).elim 0 fun f => f.preorder.countP (d.declaresBefore name)

/-- Whether no two functions of a unit have the same name, and at most one has none. -/
def FunctionsDistinct (root : Node) : Prop :=
  ((root.preorder.filter fun n => n.kind == .functionDefinition).map fun f =>
    (f.identifierAt? 1).map Token.text).Nodup

/-- Whether no two parameters of one function have the same name. -/
def ParametersDistinct (root : Node) : Prop :=
  ∀ f ∈ root.preorder, f.kind = .functionDefinition →
    (f.preorder.filterMap (Binding.nameIn? .requiredParameter 0)).Nodup

instance (root : Node) : Decidable root.FunctionsDistinct := by
  unfold FunctionsDistinct
  infer_instance

instance (root : Node) : Decidable root.ParametersDistinct := by
  unfold ParametersDistinct
  infer_instance

variable {root f d k : Node} {name : String}

theorem FunctionsDistinct.eq {f' : Node} (h : root.FunctionsDistinct) (hf : f ∈ root.preorder)
    (hf' : f' ∈ root.preorder) (hkind : f.kind = .functionDefinition)
    (hkind' : f'.kind = .functionDefinition)
    (hname : (f.identifierAt? 1).map Token.text = (f'.identifierAt? 1).map Token.text) : f = f' :=
  List.inj_on_of_nodup_map h (List.mem_filter.2 ⟨hf, beq_iff_eq.2 hkind⟩)
    (List.mem_filter.2 ⟨hf', beq_iff_eq.2 hkind'⟩) hname

theorem ParametersDistinct.eq {d' : Node} (h : root.ParametersDistinct) (hf : f ∈ root.preorder)
    (hkind : f.kind = .functionDefinition) (hd : d ∈ f.preorder) (hd' : d' ∈ f.preorder)
    (hname : Binding.nameIn? .requiredParameter 0 d = some name)
    (hname' : Binding.nameIn? .requiredParameter 0 d' = some name) : d = d' := by
  have hpairwise := List.pairwise_filterMap.1 (h f hf hkind)
  have hsymm : Std.Symm fun d d' : Node => ∀ x, Binding.nameIn? .requiredParameter 0 d = some x →
      ∀ x', Binding.nameIn? .requiredParameter 0 d' = some x' → x ≠ x' :=
    ⟨fun _ _ h x hx x' hx' => (h x' hx' x hx).symm⟩
  by_contra hne
  exact hpairwise.forall hd hd' hne name hname name hname' rfl

theorem functionAround?_eq (hroot : root.Regular) (hf : f ∈ root.children)
    (hkind : f.kind = .functionDefinition) (hd : d ∈ f.preorder) :
    root.functionAround? d = some f := by
  have hhit : (f.kind == .functionDefinition && f.preorder.any fun m => m.id == d.id) = true := by
    rw [hkind, List.any_eq_true.2 ⟨d, hd, beq_self_eq_true d.id⟩]
    rfl
  cases hfind : root.functionAround? d with
  | none => exact absurd hhit (List.find?_eq_none.1 hfind f hf)
  | some f' =>
    have hhit' := List.find?_some hfind
    have hf' := List.mem_of_find?_eq_some hfind
    rw [Bool.and_eq_true, List.any_eq_true] at hhit'
    obtain ⟨-, m, hm, hid⟩ := hhit'
    have hmem : ∀ {f m : Node}, f ∈ root.children → m ∈ f.preorder → m ∈ root.preorder :=
      fun hf hm => preorder_trans (mem_preorder_child hf) hm
    obtain rfl := List.inj_on_of_nodup_map hroot.ids (hmem hf' hm) (hmem hf hd) (eq_of_beq hid)
    rw [child_unique hroot.ids hf' hf hm hd]

end Node

namespace Binding

open Node (declaresBefore)

variable {c : Context} {n m d r : Node} {s : State} {v : Visit} {source : String} {x : String}

/-- The path of what a node declares in a function. -/
def localPath (u : UnitId) (root d : Node) (name : String) : SymbolPath :=
  let function := (root.functionAround? d).elim unnamedFunction functionNameOf
  if d.kind = .requiredParameter then .parameter u.module u.unit function name
  else .localVar u.module u.unit function name (root.variablesBefore d name + 1)

theorem nameIn?_parameter {t : Token} (ht : d.localName? = some t)
    (hkind : d.kind = .requiredParameter) : nameIn? .requiredParameter 0 d = some t.text := by
  unfold Node.localName? at ht
  rw [hkind] at ht
  dsimp only at ht
  rw [nameIn?, if_pos hkind, ht]
  rfl

/-! ## Numbers of variables -/

/-- Whether a node declares a local variable of the given name. -/
def isVariable (x : String) (m : Node) : Bool := m.kind == .variableDeclaration && m.declaresLocal x

theorem nameIn?_variable : (nameIn? .variableDeclaration 1 m == some x) = isVariable x m := by
  unfold nameIn? isVariable Node.declaresLocal Node.localName?
  by_cases h : m.kind = .variableDeclaration
  · rw [if_pos h, h]
    cases m.identifierAt? 1 <;> simp
  · rw [if_neg h, beq_false_of_ne h]
    rfl

mutual

theorem count_localNames : ∀ n : Node,
    (localNames n).count x = n.preorder.countP (isVariable x)
  | ⟨id, kind, full, ends, slots⟩ => by
    rw [localNames_mk, List.count_append, count_localNamesIn slots, Node.preorder, List.countP_cons,
      ← nameIn?_variable]
    cases h : nameIn? .variableDeclaration 1 ⟨id, kind, full, ends, slots⟩ with
    | none => simp
    | some y => simp [List.count_singleton]

theorem count_localNamesIn : ∀ slots : List Child,
    (localNamesIn slots).count x = (Node.preorderOf slots).countP (isVariable x)
  | [] => rfl
  | .node n :: rest => by
    rw [localNamesIn_node, List.count_append, count_localNames n, count_localNamesIn rest,
      Node.preorderOf, List.countP_append]
  | .token _ :: rest => count_localNamesIn rest
  | .missing :: rest => count_localNamesIn rest

end

theorem declaresBefore_eq (d : Node) (x : String) (m : Node) : d.declaresBefore x m =
    (isVariable x m && decide (m.fullSpan.stop ≤ d.fullSpan.start)) := rfl

theorem isVariable_of_localName {t : Token} (ht : d.localName? = some t)
    (hkind : d.kind = .variableDeclaration) : isVariable t.text d := by
  rw [isVariable, hkind, Node.declaresLocal, ht, Option.any_some, beq_self_eq_true t.text]
  rfl

/-- Where everything ends before a node starts, all variables are declared before it. -/
theorem countP_declaresBefore {ms : List Node}
    (h : ∀ m ∈ ms, m.fullSpan.stop ≤ d.fullSpan.start) :
    ms.countP (d.declaresBefore x) = ms.countP (isVariable x) := by
  refine List.countP_congr fun m hm => ?_
  rw [declaresBefore_eq, decide_eq_true (h m hm), Bool.and_true]

theorem width_of_isVariable (hn : n.Regular) (hm : m ∈ n.preorder) (h : isVariable x m) :
    m.fullSpan.start < m.fullSpan.stop := by
  obtain ⟨t, ht, -⟩ := Node.exists_localName_of_declaresLocal (Bool.and_eq_true_iff.1 h).2
  exact hn.width hm (by rw [ht]; rfl)

/-- What does not start before a node declares no variable before it. -/
theorem countP_declaresBefore_eq_zero {ms : List Node}
    (hwidth : ∀ m ∈ ms, isVariable x m → m.fullSpan.start < m.fullSpan.stop)
    (h : ∀ m ∈ ms, d.fullSpan.start ≤ m.fullSpan.start) :
    ms.countP (d.declaresBefore x) = 0 := by
  rw [List.countP_eq_zero]
  intro m hm
  rw [declaresBefore_eq, Bool.and_eq_true, decide_eq_true_eq]
  rintro ⟨hvariable, hstop⟩
  have := hwidth m hm hvariable
  have := h m hm
  omega

/-- A node that ends before another declares all its variables before it. -/
theorem countP_before (hn : n.Regular) (hd : n.fullSpan.stop ≤ d.fullSpan.start) :
    n.preorder.countP (d.declaresBefore x) = n.preorder.countP (isVariable x) :=
  countP_declaresBefore fun _ hm => (hn.span_mem hm).2.2.trans hd

/-- Slots that do not start before a node declare no variable before it. -/
theorem countP_behind {slots : List Child} {start stop : Nat} (h : Tiles start slots stop)
    (hslots : ∀ n ∈ slots.filterMap Slot.node?, n.Regular) (hd : d.fullSpan.start ≤ start) :
    (Node.preorderOf slots).countP (d.declaresBefore x) = 0 := by
  have hspan := (Node.span_mem_slots h fun k hk _ => (hslots k hk).span_mem).2
  refine countP_declaresBefore_eq_zero (fun m hm => ?_) fun m hm => hd.trans (hspan m hm).1
  rw [Node.preorderOf_eq, List.mem_flatMap] at hm
  obtain ⟨k, hk, hm⟩ := hm
  exact width_of_isVariable (hslots k hk) hm

/-- In a declaration nothing is declared. -/
theorem eq_of_mem_declaration (hn : n.Regular) (hname : n.localName?.isSome) (hm : m ∈ n.preorder)
    (h : isVariable x m) : m = n := by
  refine (Node.mem_preorder.1 hm).resolve_right fun ⟨child, hchild, hm⟩ => ?_
  have hallows := hn.allows n n.self_mem_preorder child hchild
  have hstill : child.kind.isStill := by
    rcases Node.kind_of_localName hname with hkind | hkind <;> rw [hkind] at hallows <;>
      revert hallows <;> cases child.kind <;> decide
  have hkind := (hn.child hchild).isStill_below hstill hm
  rw [eq_of_beq (Bool.and_eq_true_iff.1 h).1] at hkind
  cases hkind

theorem count_localNamesIn_declaration (hn : n.Regular) (hname : n.localName?.isSome) :
    (localNamesIn n.slots).count x = 0 := by
  rw [count_localNamesIn, List.countP_eq_zero, Node.preorderOf_eq]
  intro m hm hvariable
  obtain ⟨child, hchild, hbelow⟩ := List.mem_flatMap.1 hm
  obtain rfl := eq_of_mem_declaration hn hname
    (Node.mem_preorder.2 (.inr ⟨child, hchild, hbelow⟩)) hvariable
  exact Node.self_not_below hn.ids hchild hbelow

/-- Of two variables one is declared before the other. -/
theorem variables_apart (hn : n.Regular) {k : Node} (hm : m ∈ n.preorder) (hk : k ∈ n.preorder)
    (hvariable : isVariable x m) (hvariable' : isVariable x k) (hne : m ≠ k) :
    m.fullSpan.stop ≤ k.fullSpan.start ∨ k.fullSpan.stop ≤ m.fullSpan.start := by
  have hname : ∀ {d : Node}, isVariable x d → d.localName?.isSome := by
    intro d hd
    obtain ⟨t, ht, -⟩ := Node.exists_localName_of_declaresLocal (Bool.and_eq_true_iff.1 hd).2
    rw [ht]
    rfl
  rcases hn.apart hm hk with hin | hin | hapart
  · exact absurd (eq_of_mem_declaration (hn.below hm) (hname hvariable) hin hvariable').symm hne
  · exact absurd (eq_of_mem_declaration (hn.below hk) (hname hvariable') hin hvariable) hne
  · exact hapart

/-- More variables are declared before a node that comes later. -/
theorem countP_declaresBefore_lt {ms : List Node} {d d' : Node} (hd : d ∈ ms)
    (hvariable : isVariable x d) (hwidth : d.fullSpan.start < d.fullSpan.stop)
    (hbefore : d.fullSpan.stop ≤ d'.fullSpan.start) :
    ms.countP (d.declaresBefore x) < ms.countP (d'.declaresBefore x) := by
  have hmono : ∀ ms : List Node,
      ms.countP (d.declaresBefore x) ≤ ms.countP (d'.declaresBefore x) := fun ms => by
    refine List.countP_mono_left fun m _ hm => ?_
    rw [declaresBefore_eq, Bool.and_eq_true, decide_eq_true_eq] at hm ⊢
    exact ⟨hm.1, by omega⟩
  have hself : d.declaresBefore x d = false := by
    rw [declaresBefore_eq, decide_eq_false (by omega), Bool.and_false]
  have hself' : d'.declaresBefore x d = true := by
    rw [declaresBefore_eq, hvariable, decide_eq_true hbefore]
    rfl
  obtain ⟨front, back, rfl⟩ := List.append_of_mem hd
  have hfront := hmono front
  have hback := hmono back
  rw [List.countP_append, List.countP_append, List.countP_cons, List.countP_cons, hself, hself',
    if_neg Bool.false_ne_true, if_pos rfl]
  omega

/-- Of the variables of a name in one tree no two have the same number before them. -/
theorem eq_of_countP_declaresBefore_eq (hn : n.Regular) {k : Node} (hm : m ∈ n.preorder)
    (hk : k ∈ n.preorder) (hvariable : isVariable x m) (hvariable' : isVariable x k)
    (h : n.preorder.countP (m.declaresBefore x) = n.preorder.countP (k.declaresBefore x)) :
    m = k := by
  by_contra hne
  rcases variables_apart hn hm hk hvariable hvariable' hne with hbefore | hbefore
  · have := countP_declaresBefore_lt hm hvariable (width_of_isVariable hn hm hvariable) hbefore
    omega
  · have := countP_declaresBefore_lt hk hvariable' (width_of_isVariable hn hk hvariable') hbefore
    omega

/-! ## Numbers on the walk -/

mutual

/-- **At a declaration** in a function the walk has declared the variables before it. -/
theorem count_visits : ∀ (n : Node) (isBody : Bool) (s : State), n.Regular →
    (∀ m ∈ n.preorder, m.kind ≠ .functionDefinition) →
    ∀ v ∈ visits c isBody n s, v.node.localName?.isSome → ∀ x,
      v.state.declared.count x = s.declared.count x + n.preorder.countP (v.node.declaresBefore x)
  | ⟨id, kind, full, ends, slots⟩, isBody, s, hn, hkind, v, hv, hname, x => by
    let n : Node := ⟨id, kind, full, ends, slots⟩
    have hself := hkind _ (Node.self_mem_preorder _)
    have hbelow : ∀ m ∈ Node.preorderOf slots, m.kind ≠ .functionDefinition :=
      fun m hm => hkind m (List.mem_cons_of_mem _ hm)
    have henter : (c.enter n s).declared.count x = s.declared.count x := by
      have := (enter_advances (c := c) (f := s.functionName) (covers_anything _) hself
        (good_anything s)).count_declared x
      rwa [List.count_nil, Nat.add_zero] at this
    rcases List.mem_cons.1 hv with rfl | hv
    · have hwalk : (bindSlots c (kind == .typeDefinition) slots (c.enter n s)).2.declared.count x =
          (c.enter n s).declared.count x + (localNamesIn slots).count x :=
        (bindSlots_walks (c := c) hbelow (kind == .typeDefinition) (c.enter n s)).count_declared x
      have hnone : (localNamesIn slots).count x = 0 := count_localNamesIn_declaration hn hname
      have hzero : n.preorder.countP (n.declaresBefore x) = 0 := countP_declaresBefore_eq_zero
        (fun m hm => width_of_isVariable hn hm) fun m hm => (hn.span_mem hm).1
      show (bindSlots c (kind == .typeDefinition) slots (c.enter n s)).2.declared.count x =
        s.declared.count x + n.preorder.countP (n.declaresBefore x)
      omega
    · have hrest := count_visitsIn slots (kind == .typeDefinition) _ _ _ hn.tiles
        (fun m hm => hn.child hm) hbelow v hv hname x
      have hmem : v.node ∈ n.preorder := by
        rw [← node_visits (c := c) n isBody s]
        exact List.mem_map_of_mem (List.mem_cons_of_mem _ hv)
      have hself : v.node.declaresBefore x n = false := by
        -- The node ends behind what lies in it.
        have : v.node.fullSpan.stop ≤ n.fullSpan.stop := (hn.span_mem hmem).2.2
        have := hn.width hmem hname
        rw [declaresBefore_eq, decide_eq_false (by omega), Bool.and_false]
      rw [hrest, henter, Node.preorder, List.countP_cons, hself]
      rfl

theorem count_visitsIn : ∀ (slots : List Child) (inType : Bool) (s : State) (start stop : Nat),
    Tiles start slots stop → (∀ n ∈ slots.filterMap Slot.node?, n.Regular) →
    (∀ m ∈ Node.preorderOf slots, m.kind ≠ .functionDefinition) →
    ∀ v ∈ visitsIn c inType slots s, v.node.localName?.isSome → ∀ x,
      v.state.declared.count x =
        s.declared.count x + (Node.preorderOf slots).countP (v.node.declaresBefore x)
  | [], _, _, _, _, _, _, _, v, hv, _, _ => nomatch hv
  | .node n :: rest, inType, s, start, stop, ⟨mid, hspan, hrest⟩, hslots, hkind, v, hv, hname, x => by
    have hspan : n.fullSpan = ⟨start, mid⟩ := hspan
    obtain ⟨hn, hothers⟩ := List.forall_mem_cons.1 hslots
    have hfirst : ∀ m ∈ n.preorder, m.kind ≠ .functionDefinition :=
      fun m hm => hkind m (List.mem_append_left _ hm)
    rw [Node.preorderOf, List.countP_append]
    rcases List.mem_append.1 hv with hv | hv
    · have hmem : v.node ∈ n.preorder := by
        rw [← node_visits (c := c) n inType s]
        exact List.mem_map_of_mem hv
      have hplace := hn.span_mem hmem
      rw [hspan] at hplace
      have hzero : (Node.preorderOf rest).countP (v.node.declaresBefore x) = 0 :=
        countP_behind hrest hothers (hplace.2.1.trans hplace.2.2)
      have hcount := count_visits n inType s hn hfirst v hv hname x
      omega
    · have hmem : v.node ∈ Node.preorderOf rest := by
        rw [← node_visitsIn (c := c) rest inType (bindNode c inType n s).2]
        exact List.mem_map_of_mem hv
      have hplace := (Node.span_mem_slots hrest fun k hk _ => (hothers k hk).span_mem).2 _ hmem
      have hall : n.preorder.countP (v.node.declaresBefore x) = n.preorder.countP (isVariable x) :=
        countP_before hn (by rw [hspan]; exact hplace.1)
      have hwalk := (bindNode_walks (c := c) hfirst inType s).count_declared x
      rw [count_localNames] at hwalk
      have hcount := count_visitsIn rest inType _ mid stop hrest hothers
        (fun m hm => hkind m (List.mem_append_right _ hm)) v hv hname x
      omega
  | .token _ :: rest, inType, s, start, stop, ⟨mid, _, hrest⟩, hslots, hkind, v, hv, hname, x =>
    count_visitsIn rest inType s mid stop hrest hslots hkind v hv hname x
  | .missing :: rest, inType, s, start, stop, ⟨mid, _, hrest⟩, hslots, hkind, v, hv, hname, x =>
    count_visitsIn rest inType s mid stop hrest hslots hkind v hv hname x

end

/-! ## Paths of declarations -/

/-- An item of a unit that declares a variable is a function. -/
theorem kind_around {f : Node} (hf : f ∈ (Tree.ofSource source).root.children)
    (hd : d ∈ f.preorder) (hname : d.localName?.isSome) : f.kind = .functionDefinition := by
  by_contra hother
  have hstill := Tree.isStill_below hf hother hd
  rcases Node.kind_of_localName hname with hkind | hkind <;> rw [hkind] at hstill <;> cases hstill

theorem exists_function_around (hd : d ∈ (Tree.ofSource source).root.preorder)
    (hname : d.localName?.isSome) : ∃ f ∈ (Tree.ofSource source).root.children,
      f.kind = .functionDefinition ∧ d ∈ f.preorder := by
  rcases Node.mem_preorder.1 hd with rfl | ⟨f, hf, hd⟩
  · have hroot : (Tree.ofSource source).root.kind = .modulePart := Tree.kind_root
    rcases Node.kind_of_localName hname with hkind | hkind <;> cases hroot.symm.trans hkind
  · exact ⟨f, hf, kind_around hf hd hname, hd⟩

/-- A declaration is visited in a function, where the walk knows the name of the function and has
declared the variables before the declaration. -/
theorem exists_function_of_visit (hv : v ∈ unitVisits c source) (hname : v.node.localName?.isSome) :
    ∃ f ∈ (Tree.ofSource source).root.children, f.kind = .functionDefinition ∧
      v.node ∈ f.preorder ∧ v.state.functionName = functionNameOf f ∧
      ∀ x, v.state.declared.count x = f.preorder.countP (v.node.declaresBefore x) := by
  have hkind := Node.kind_of_localName hname
  rw [unitVisits, visits_eq] at hv
  rcases List.mem_cons.1 hv with rfl | hv
  · have hroot : (Tree.ofSource source).root.kind = .modulePart := Tree.kind_root
    rcases hkind with hkind | hkind <;> cases hroot.symm.trans hkind
  obtain ⟨f, hf, s, hv⟩ := exists_of_mem_visitsIn hv
  rw [show ((Tree.ofSource source).root.kind == NodeKind.typeDefinition) = false by
    rw [Tree.kind_root]; rfl] at hv
  have hmem : v.node ∈ f.preorder := by
    rw [← node_visits f false s]
    exact List.mem_map_of_mem hv
  have hfunction := kind_around hf hmem hname
  refine ⟨f, hf, hfunction, hmem, ?_⟩
  have hregular := (Tree.regular_ofSource source).child hf
  have hslots : ∀ m ∈ Node.preorderOf f.slots, m.kind ≠ .functionDefinition := by
    intro m hm hkind
    rw [Node.preorderOf_eq, List.mem_flatMap] at hm
    have hbelow := Tree.isBelowItem_below hf hm
    rw [hkind] at hbelow
    cases hbelow
  obtain ⟨hknown, hfresh⟩ := enter_function (c := c) (s := s) hfunction
  rw [visits_eq] at hv
  rcases List.mem_cons.1 hv with rfl | hv
  · rcases hkind with hkind | hkind <;> cases hfunction.symm.trans hkind
  have hwithin := visits_withinIn f.slots (f.kind == .typeDefinition) _ hslots v hv
  refine ⟨?_, fun x => ?_⟩
  · rw [State.functionName, hwithin.function, hknown]
    rfl
  · have hself : v.node.declaresBefore x f = false := by
      rw [declaresBefore_eq, isVariable, hfunction]
      rfl
    rw [count_visitsIn f.slots _ _ _ _ hregular.tiles (fun m hm => hregular.child hm) hslots v hv
      hname x, hfresh, List.count_nil, Nat.zero_add, Node.preorder_eq, List.countP_cons, hself,
      Node.preorderOf_eq]
    rfl

/-- The path at which the binder declares a variable is the one of its declaration in the tree. -/
theorem localPath_of_visit (hv : v ∈ unitVisits c source) {t : Token}
    (ht : v.node.localName? = some t) : c.localPath v.state v.node t =
      localPath ⟨c.module, c.unit⟩ (Tree.ofSource source).root v.node t.text := by
  obtain ⟨f, hf, hkind, hmem, hfunction, hcount⟩ := exists_function_of_visit hv (by rw [ht]; rfl)
  have haround := Node.functionAround?_eq (Tree.regular_ofSource source) hf hkind hmem
  rw [Context.localPath, localPath, Node.variablesBefore, haround, hfunction, hcount]
  rfl

/-- **A declaration mentions** a symbol at the path of what it declares. -/
theorem mention?_of_localName (hd : d ∈ (Tree.ofSource source).root.preorder) {t : Token}
    (ht : d.localName? = some t) : ∃ a, (c.bound source).mention? d.id = some a ∧
      a.symbol.name = t.text ∧ a.symbol.id =
        .ofPath (localPath ⟨c.module, c.unit⟩ (Tree.ofSource source).root d t.text) := by
  obtain ⟨v, hv, rfl⟩ := exists_visit (c := c) hd
  obtain ⟨l, htext, hid, -, hmentions⟩ := leave_declaration (c := c) ht v.isBody v.below v.state
  have hkind := Node.kind_of_localName (d := v.node) (by rw [ht]; rfl)
  have hitem : v.node.kind.isItem = false := by
    rcases hkind with hkind | hkind <;> rw [hkind] <;> rfl
  refine ⟨_, mention?_eq_of_noted hv ?_ (noted_of_leave hitem hmentions), htext, ?_⟩
  · rcases hkind with hkind | hkind <;> rw [hkind] <;> decide
  · rw [hid, localPath_of_visit hv ht]

/-! ## Paths of different declarations -/

/-- How what a node declares is written in its path behind the function. -/
def localLabel (root d : Node) (name : String) : String :=
  if d.kind = .requiredParameter then name else
    SymbolPath.numbered name (root.variablesBefore d name + 1)

theorem parts_localPath (u : UnitId) (root d : Node) (name : String) :
    (localPath u root d name).parts = [u.module.name, u.unit,
      (root.functionAround? d).elim unnamedFunction functionNameOf, localLabel root d name] := by
  unfold localPath localLabel
  split <;> rfl

/-- A path of four parts says the last two where the first two are known. -/
theorem parts_of_text_eq {p q : SymbolPath} {m u f f' a a' : String} (hp : p.parts = [m, u, f, a])
    (hq : q.parts = [m, u, f', a']) (hf : ':' ∉ f.toList) (hf' : ':' ∉ f'.toList)
    (h : p.text = q.text) : f = f' ∧ a = a' := by
  have hlist := congrArg String.toList h
  rw [SymbolPath.toList_text, SymbolPath.toList_text, hp, hq] at hlist
  simp only [List.map_cons, List.map_nil, SymbolPath.joinParts, List.append_cancel_left_eq,
    List.cons.injEq, true_and] at hlist
  obtain ⟨hfunction, hrest⟩ := SymbolPath.append_cons_inj hf hf' hlist
  exact ⟨String.toList_injective hfunction, String.toList_injective (List.cons.inj hrest).2⟩

/-- The name of a function says whether it has one. -/
theorem functionNameOf_injective {f f' : Node} (hf : f ∈ (Tree.ofSource source).root.preorder)
    (hf' : f' ∈ (Tree.ofSource source).root.preorder) (h : functionNameOf f = functionNameOf f') :
    (f.identifierAt? 1).map Token.text = (f'.identifierAt? 1).map Token.text := by
  have hword : ∀ {f : Node}, f ∈ (Tree.ofSource source).root.preorder → ∀ t,
      f.identifierAt? 1 = some t → t.text ≠ unnamedFunction := by
    intro f hf t ht heq
    have hstart := isWord_identifierAt? hf ht
    rw [heq] at hstart
    revert hstart
    decide
  unfold functionNameOf at h
  cases ht : f.identifierAt? 1 with
  | none =>
    cases ht' : f'.identifierAt? 1 with
    | none => rfl
    | some t' => rw [ht, ht'] at h; exact absurd h.symm (hword hf' t' ht')
  | some t =>
    cases ht' : f'.identifierAt? 1 with
    | none => rw [ht, ht'] at h; exact absurd h (hword hf t ht)
    | some t' => rw [ht, ht'] at h; exact congrArg some h

theorem isWord_localName (hd : d ∈ (Tree.ofSource source).root.preorder) {t : Token}
    (ht : d.localName? = some t) : isWord t.text := by
  obtain ⟨i, hi⟩ := Node.exists_identifier_of_localName ht
  exact isWord_identifierAt? hd hi

/-- In one function different declarations are written differently where no two parameters have the
same name. -/
theorem localLabel_injective {root f d d' : Node} {t t' : Token}
    (hroot : root = (Tree.ofSource source).root) (hparameters : root.ParametersDistinct)
    (hf : f ∈ root.children) (hkind : f.kind = .functionDefinition) (hd : d ∈ f.preorder)
    (hd' : d' ∈ f.preorder) (ht : d.localName? = some t) (ht' : d'.localName? = some t')
    (h : localLabel root d t.text = localLabel root d' t'.text) : d = d' := by
  subst hroot
  have hregular := Tree.regular_ofSource source
  have hin := Node.mem_preorder_child hf
  have hword := isWord_localName (Node.preorder_trans hin hd) ht
  have hword' := isWord_localName (Node.preorder_trans hin hd') ht'
  unfold localLabel at h
  rcases Node.kind_of_localName (d := d) (by rw [ht]; rfl) with hdkind | hdkind <;>
    rcases Node.kind_of_localName (d := d') (by rw [ht']; rfl) with hdkind' | hdkind'
  · rw [if_pos hdkind, if_pos hdkind'] at h
    have hparameter' := nameIn?_parameter ht' hdkind'
    rw [← h] at hparameter'
    exact hparameters.eq hin hkind hd hd' (nameIn?_parameter ht hdkind) hparameter'
  · rw [if_pos hdkind, if_neg (by rw [hdkind']; decide)] at h
    exact absurd (h ▸ hword) (SymbolPath.not_isWord_numbered _ _)
  · rw [if_neg (by rw [hdkind]; decide), if_pos hdkind'] at h
    exact absurd (h.symm ▸ hword') (SymbolPath.not_isWord_numbered _ _)
  · rw [if_neg (by rw [hdkind]; decide), if_neg (by rw [hdkind']; decide)] at h
    obtain ⟨htext, hnumber⟩ := SymbolPath.numbered_injective hword hword' h
    have hvariable := isVariable_of_localName ht hdkind
    have hvariable' := isVariable_of_localName ht' hdkind'
    rw [← htext] at hvariable' hnumber
    rw [Node.variablesBefore, Node.functionAround?_eq hregular hf hkind hd, Node.variablesBefore,
      Node.functionAround?_eq hregular hf hkind hd'] at hnumber
    exact eq_of_countP_declaresBefore_eq (hregular.child hf) hd hd' hvariable hvariable'
      (Nat.succ.inj hnumber)

/-- **Different declarations have different paths** where no two functions, and no two parameters of
one function, have the same name. -/
theorem localPath_injective {root d d' : Node} {name name' : String} (u : UnitId)
    (hroot : root = (Tree.ofSource source).root) (hfunctions : root.FunctionsDistinct)
    (hparameters : root.ParametersDistinct) (hd : d ∈ root.preorder) (hd' : d' ∈ root.preorder)
    (hname : d.declaresLocal name) (hname' : d'.declaresLocal name')
    (h : (localPath u root d name).text = (localPath u root d' name').text) : d = d' := by
  subst hroot
  have hregular := Tree.regular_ofSource source
  obtain ⟨t, ht, rfl⟩ := Node.exists_localName_of_declaresLocal hname
  obtain ⟨t', ht', rfl⟩ := Node.exists_localName_of_declaresLocal hname'
  obtain ⟨f, hf, hkind, hmem⟩ := exists_function_around hd (by rw [ht]; rfl)
  obtain ⟨f', hf', hkind', hmem'⟩ := exists_function_around hd' (by rw [ht']; rfl)
  have hparts := parts_localPath u (Tree.ofSource source).root d t.text
  have hparts' := parts_localPath u (Tree.ofSource source).root d' t'.text
  rw [Node.functionAround?_eq hregular hf hkind hmem] at hparts
  rw [Node.functionAround?_eq hregular hf' hkind' hmem'] at hparts'
  have hin := Node.mem_preorder_child hf
  have hin' := Node.mem_preorder_child hf'
  obtain ⟨hfunction, hlabel⟩ := parts_of_text_eq hparts hparts'
    (SymbolPath.colon_not_mem_of_isFunction (isFunction_functionNameOf hin))
    (SymbolPath.colon_not_mem_of_isFunction (isFunction_functionNameOf hin')) h
  obtain rfl := hfunctions.eq hin hin' hkind hkind' (functionNameOf_injective hin hin' hfunction)
  exact localLabel_injective rfl hparameters hf hkind hmem hmem' ht ht' hlabel

end Binding

end Xref
