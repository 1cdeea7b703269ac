import Xref.Binding.Binder
import Xref.Proofs.Binding.Paths
import Xref.Proofs.Syntax.Nodes

/-!
# The paths of a unit

Every symbol has a path (`Symbol.At`). The paths that a unit gives rise to are read off its tree:
those of its items and their fields, of records written in place, of parameters and local
variables, of imported modules and of what the language provides.
-/

namespace Xref

/-- Whether a symbol is the one at a path. -/
structure Symbol.At (s : Symbol) (p : SymbolPath) : Prop where
  id : s.id = .ofPath p
  name : s.name = p.lastName
  owner : s.owner = p.owner
  declaration : s.declaration.isSome = p.isDeclared
  shape : p.isRecord = false → s.shape = none

namespace Symbol

variable {s t : Symbol}

theorem isEquivalent_comm (s t : Symbol) : s.isEquivalent t = t.isEquivalent s := by
  unfold isEquivalent
  rw [Bool.beq_comm (a := s.id)]
  cases s.shape <;> cases t.shape <;> simp [Bool.beq_comm]

/-- Only records have shapes, so everything else is compared by its identity. -/
theorem isEquivalent_of_no_shape (h : t.shape = none) : s.isEquivalent t ↔ s.id = t.id := by
  rw [isEquivalent, h]
  simp

theorem isEquivalent_of_shapes {x y : SymbolId} (hs : s.shape = some x) (ht : t.shape = some y) :
    s.isEquivalent t ↔ s.id = t.id ∨ x = y := by
  rw [isEquivalent, hs, ht]
  simp

end Symbol

namespace Binding

/-! ## Names in a tree -/

/-- The text of the identifier in slot `i` of a node of a certain kind. -/
def nameIn? (kind : NodeKind) (i : Nat) (n : Node) : Option String :=
  if n.kind = kind then (n.identifierAt? i).map Token.text else none

/-- The names of the local variables that are declared below a node, in order. -/
def localNames (n : Node) : List String := n.postorder.filterMap (nameIn? .variableDeclaration 1)

/-- The names of the local variables that are declared in several slots, in order. -/
def localNamesIn (slots : List Child) : List String :=
  (Node.postorderOf slots).filterMap (nameIn? .variableDeclaration 1)

/-- The name of an item as the paths of variables in it have it. -/
def functionNameOf (n : Node) : String := ((n.identifierAt? 1).map Token.text).getD unnamedFunction

/-! ## Paths that a node introduces -/

/-- The paths of the fields of a record. -/
def fieldPaths (owner : SymbolPath) (record : Node) : List SymbolPath :=
  record.children.filterMap fun c => (c.identifierAt? 0).map fun name => .field owner name.text

/-- The paths of an item and its fields. -/
def itemPaths (m : ModuleId) (n : Node) : List SymbolPath :=
  match declaredKind? n.kind, n.identifierAt? 1 with
  | some _, some name =>
    let path := SymbolPath.item m name.text
    path :: match n.kind, n.children.head? with
      | .typeDefinition, some body =>
        if body.kind = .recordTypeDescriptor then fieldPaths path body else []
      | _, _ => []
  | _, _ => []

/-- The paths of a record written in place and its fields. -/
def recordPaths (m : ModuleId) (u : String) (n : Node) : List SymbolPath :=
  match n.kind, n.slots.head?.bind Slot.token? with
  | .recordTypeDescriptor, some keyword =>
    let path := SymbolPath.record m u keyword.span.start
    path :: fieldPaths path n
  | _, _ => []

/-- The paths of the local variables with the given names, in the order of their declarations. -/
def localPaths (m : ModuleId) (u f : String) (names : List String) : List SymbolPath :=
  names.flatMap fun x =>
    (List.range (names.count x)).map fun k => .localVar m u f x (k + 1)

/-- The path of something that the language provides. -/
def builtinPath? (t : Token) : Option SymbolPath :=
  (builtinDetail? t.text).map fun _ => .builtin t.text

/-- The paths that a node of a unit introduces, in a function of the given name. The body of a type
definition is no record written in place. Local variables are not among them. -/
def nodePaths (m : ModuleId) (u f : String) (n : Node) : List SymbolPath :=
  itemPaths m n ++
    (if n.kind = .typeDefinition then [] else n.children.flatMap (recordPaths m u)) ++
    ((nameIn? .requiredParameter 0 n).map (SymbolPath.parameter m u f)).toList ++
    ((nameIn? .importDeclaration 1 n).map SymbolPath.module).toList ++
    (n.childTokens.filter (·.kind.isIdentifier)).filterMap builtinPath?

/-- The paths that an item of a unit introduces, with everything in it. -/
def pathsInItem (m : ModuleId) (u : String) (item : Node) : List SymbolPath :=
  item.preorder.flatMap (nodePaths m u (functionNameOf item)) ++
    localPaths m u (functionNameOf item) (localNames item)

/-- The paths that a unit introduces. -/
def unitPaths (m : ModuleId) (u : String) (t : Tree) : List SymbolPath :=
  t.root.children.flatMap (pathsInItem m u)

/-! ## Paths of declarations -/

variable {m : ModuleId} {u f detail : String} {name : Token} {path owner : SymbolPath}
  {kind : SymbolKind} {n : Node}

theorem declaredSymbol_at (hname : path.lastName = name.text) (howner : path.owner = m)
    (hdeclared : path.isDeclared) : (declaredSymbol path name kind m u detail).At path :=
  ⟨rfl, hname.symm, howner.symm, hdeclared.symm, fun _ => rfl⟩

theorem moduleSymbol_at (x : String) : (moduleSymbol x).At (.module x) :=
  ⟨rfl, rfl, rfl, rfl, fun _ => rfl⟩

theorem builtin?_at {x : String} {s : Symbol} (h : builtin? x = some s) :
    s.At (.builtin x) ∧ (builtinDetail? x).isSome := by
  obtain ⟨detail, hdetail, rfl⟩ := Option.map_eq_some_iff.1 h
  exact ⟨⟨rfl, rfl, rfl, rfl, fun _ => rfl⟩, by rw [hdetail]; rfl⟩

theorem identifierAt?_eq_some {i : Nat} (h : n.identifierAt? i = some name) :
    name ∈ n.childTokens ∧ name.kind = .identifier := by
  rw [Node.identifierAt?, Option.filter_eq_some_iff, Option.bind_eq_some_iff] at h
  obtain ⟨⟨s, hs, hname⟩, hkind⟩ := h
  cases s <;> cases hname
  refine ⟨Node.mem_childTokens.2 (List.mem_of_getElem? hs), ?_⟩
  simpa [TokenKind.isIdentifier] using hkind

/-- What a declared field is. -/
theorem fieldOf?_eq_some {g : Field} (h : fieldOf? m u owner n = some g) :
    ∃ name, n.identifierAt? 0 = some name ∧ g.node = n.id ∧ g.name = name.id ∧
      g.type = TypeName.below? n ∧
      ∃ detail, g.symbol = declaredSymbol (.field owner name.text) name .field m u detail := by
  obtain ⟨name, hname, rfl⟩ := Option.map_eq_some_iff.1 h
  exact ⟨name, hname, rfl, rfl, rfl, _, rfl⟩

/-- What an item is. -/
theorem itemOf?_eq_some {item : Item} (h : itemOf? m u n = some item) :
    ∃ kind name, declaredKind? n.kind = some kind ∧ n.identifierAt? 1 = some name ∧
      item.name = name.id ∧ item.type = itemType? n ∧
      item.fields = itemFields m u (.item m name.text) n ∧
      item.symbol = declaredSymbol (.item m name.text) name kind m u (itemDetail n name) := by
  unfold itemOf? at h
  split at h
  · rename_i kind name hkind hname
    obtain rfl := Option.some.inj h
    exact ⟨kind, name, hkind, hname, rfl, rfl, rfl, rfl⟩
  · cases h

theorem itemFields_eq (m : ModuleId) (u : String) (path : SymbolPath) (n : Node) :
    itemFields m u path n = if n.kind = .typeDefinition then
      n.children.head?.elim [] fun body => if body.kind = .recordTypeDescriptor then
        body.children.filterMap (fieldOf? m u path) else [] else [] := by
  unfold itemFields
  split
  · rename_i body hkind hbody
    rw [if_pos hkind, hbody]
    rfl
  · rename_i hnot
    split
    · rename_i hkind
      cases hbody : n.children.head? with
      | none => rfl
      | some body => exact absurd hbody (hnot body hkind)
    · rfl

/-- A field of an item is declared by a node of the record that is the body of the item. -/
theorem mem_itemFields {g : Field} (h : g ∈ itemFields m u path n) :
    n.kind = .typeDefinition ∧ ∃ body, n.children.head? = some body ∧
      body.kind = .recordTypeDescriptor ∧ ∃ c ∈ body.children, fieldOf? m u path c = some g := by
  unfold itemFields at h
  split at h
  · rename_i body hkind hbody
    split at h
    · rename_i hrecord
      obtain ⟨c, hc, hg⟩ := List.mem_filterMap.1 h
      exact ⟨hkind, body, hbody, hrecord, c, hc, hg⟩
    · cases h
  · cases h

theorem field_mem_fieldPaths {c : Node} (hc : c ∈ n.children) (hname : c.identifierAt? 0 = some name) :
    SymbolPath.field owner name.text ∈ fieldPaths owner n :=
  List.mem_filterMap.2 ⟨c, hc, by rw [hname]; rfl⟩

theorem item_mem_itemPaths (hkind : declaredKind? n.kind = some kind)
    (hname : n.identifierAt? 1 = some name) : SymbolPath.item m name.text ∈ itemPaths m n := by
  rw [itemPaths, hkind, hname]
  exact List.mem_cons_self

theorem field_mem_itemPaths (hname : n.identifierAt? 1 = some name) (htype : n.kind = .typeDefinition)
    {body c : Node} (hbody : n.children.head? = some body)
    (hrecord : body.kind = .recordTypeDescriptor) (hc : c ∈ body.children) {t : Token}
    (ht : c.identifierAt? 0 = some t) :
    SymbolPath.field (.item m name.text) t.text ∈ itemPaths m n := by
  rw [itemPaths, hname, htype, hbody]
  refine List.mem_cons_of_mem _ ?_
  dsimp only
  rw [if_pos hrecord]
  exact field_mem_fieldPaths hc ht

/-- The paths of an item and its fields are among those that its node introduces. -/
theorem itemOf?_at {item : Item} (h : itemOf? m u n = some item) :
    (∃ p ∈ itemPaths m n, item.symbol.At p) ∧
      ∀ g ∈ item.fields, ∃ p ∈ itemPaths m n, g.symbol.At p := by
  obtain ⟨kind, name, hkind, hname, -, -, hfields, hsymbol⟩ := itemOf?_eq_some h
  constructor
  · exact ⟨.item m name.text, item_mem_itemPaths hkind hname,
      hsymbol ▸ declaredSymbol_at rfl rfl rfl⟩
  · intro g hg
    rw [hfields] at hg
    obtain ⟨htype, body, hbody, hrecord, c, hc, hg⟩ := mem_itemFields hg
    obtain ⟨fieldName, hfieldName, -, -, -, detail, hfield⟩ := fieldOf?_eq_some hg
    exact ⟨.field (.item m name.text) fieldName.text,
      field_mem_itemPaths hname htype hbody hrecord hc hfieldName,
      hfield ▸ declaredSymbol_at rfl rfl rfl⟩

theorem owner_of_mem_itemPaths {p : SymbolPath} (hp : p ∈ itemPaths m n) :
    p.owner = m := by
  unfold itemPaths at hp
  split at hp
  · rcases List.mem_cons.1 hp with rfl | hp
    · rfl
    · split at hp
      · split at hp
        · obtain ⟨field, -, hfield⟩ := List.mem_filterMap.1 hp
          obtain ⟨name, -, rfl⟩ := Option.map_eq_some_iff.1 hfield
          rfl
        · cases hp
      · cases hp
  · cases hp

/-- The paths of an item are among those of its unit. -/
theorem itemPaths_subset {t : Tree} (hn : n ∈ t.root.children) :
    itemPaths m n ⊆ unitPaths m u t := by
  intro p hp
  refine List.mem_flatMap.2 ⟨n, hn, List.mem_append_left _ ?_⟩
  refine List.mem_flatMap.2 ⟨n, n.self_mem_preorder, ?_⟩
  simp only [nodePaths, List.mem_append]
  exact .inl (.inl (.inl (.inl hp)))

end Binding

end Xref
