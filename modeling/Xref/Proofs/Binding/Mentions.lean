import Xref.Proofs.Binding.Introduced
import Xref.Proofs.Syntax.Placement

/-!
# What a unit mentions

A property of symbols that holds of what a unit sees and of what its own nodes introduce holds of
everything that it mentions (`bindTree_witnessed`): aliases, inferred types and records written in
place lead to no other symbols. Every mention belongs to a node, and the token that names the symbol
lies right below this node; if the symbol has a declaration, this token is an identifier with the
name of the symbol for its text.
-/

namespace Xref.Binding

section
variable (P : Symbol → Prop)

/-! ## Invariants -/

/-- Whether the fields of a record type and of the types of its fields all satisfy `P`. -/
inductive RecordType.All : RecordType → Prop
  | named (m : ModuleId) (name : String) : All (.named m name)
  | written {fields : List (Symbol × Option RecordType)} :
    (∀ f ∈ fields, P f.1) → (∀ f ∈ fields, ∀ t, f.2 = some t → All t) → All (.written fields)

/-- Whether a type satisfies `P` as far as there is one. -/
def GoodType (t : Option RecordType) : Prop := ∀ r, t = some r → RecordType.All P r

/-- Whether all types that a meaning holds satisfy `P`. -/
structure Meaning.Good (m : Meaning) : Prop where
  value : GoodType P m.value
  result : GoodType P m.result
  written : ∀ w, m.written = some w → GoodType P w.record

/-- Whether all variables in scope and their types satisfy `P`. -/
def State.Good (s : State) : Prop :=
  ∀ scope ∈ s.scopes, ∀ l ∈ scope, P l.symbol ∧ GoodType P l.type

/-- Whether everything that a module declares satisfies `P`. -/
def GoodScope (scope : ModuleScope) : Prop :=
  ∀ item ∈ scope.items, P item.symbol ∧ ∀ g ∈ item.fields, P g.symbol

/-- Whether everything that a unit sees satisfies `P`. -/
structure Visible.Good (v : Visible) : Prop where
  own : GoodScope P v.own
  imports : ∀ scope ∈ v.imports, GoodScope P scope

/-- Whether a mention belongs to one of several nodes, is named by a token right below it, and its
symbol satisfies `P`. -/
def Witnessed (ns : List Node) (a : NodeId × Mention) : Prop :=
  ∃ n ∈ ns, n.id = a.1 ∧ ∃ t ∈ n.childTokens, t.id = a.2.name ∧
    (a.2.symbol.declaration.isSome → t.kind = .identifier ∧ t.text = a.2.symbol.name) ∧
    P a.2.symbol

/-- What a part of the walk may do: declare the variables with the given names, and add mentions
that belong to the nodes it has walked. -/
structure Advances (ns : List Node) (names : List String) (s s' : State) : Prop where
  good : s'.Good P
  function : s'.function = s.function
  declared : s'.declared = names.reverse ++ s.declared
  mentions : ∃ made, s'.mentions = made ++ s.mentions ∧ ∀ a ∈ made, Witnessed P ns a

end

variable {P : Symbol → Prop} {ns ms : List Node} {xs ys : List String} {s s' s'' : State}
  {c : Context} {n : Node} {t : Token} {v : Visible}

theorem GoodType.none : GoodType P none := fun _ h => nomatch h

theorem GoodType.named (m : ModuleId) (name : String) : GoodType P (some (.named m name)) :=
  fun _ h => Option.some.inj h ▸ .named m name

theorem Meaning.Good.none : Meaning.none.Good P := ⟨.none, .none, fun _ h => nomatch h⟩

theorem Meaning.Good.ofValue {t : Option RecordType} (h : GoodType P t) :
    (Meaning.ofValue t).Good P := ⟨h, .none, fun _ h => nomatch h⟩

theorem Meaning.Good.ofWritten {w : WrittenType} (h : GoodType P w.record) :
    (Meaning.ofWritten w).Good P :=
  ⟨.none, .none, fun _ hw => Option.some.inj hw ▸ h⟩

theorem State.Good.openScope (hs : s.Good P) : s.openScope.Good P :=
  List.forall_mem_cons.2 ⟨(fun _ h => nomatch h), hs⟩

theorem State.Good.closeScope (hs : s.Good P) : s.closeScope.Good P :=
  fun scope h => hs scope (List.mem_of_mem_tail h)

/-- A variable comes into the innermost block, and nothing else changes. -/
theorem State.bind_eq (s : State) (l : Local) :
    s.bind l = { s with scopes := s.scopes.modifyHead (l :: ·) } := by
  obtain ⟨scopes, function, declared, mentions⟩ := s
  cases scopes <;> rfl

theorem Witnessed.mono {a : NodeId × Mention} (h : ns ⊆ ms) (ha : Witnessed P ns a) :
    Witnessed P ms a := by
  obtain ⟨n, hn, hrest⟩ := ha
  exact ⟨n, h hn, hrest⟩

namespace Advances

theorem refl (h : s.Good P) : Advances P ns [] s s :=
  ⟨h, rfl, rfl, [], rfl, fun _ h => nomatch h⟩

theorem mono (h : ns ⊆ ms) (hs : Advances P ns xs s s') : Advances P ms xs s s' := by
  obtain ⟨made, hmade, hall⟩ := hs.mentions
  exact ⟨hs.good, hs.function, hs.declared, made, hmade, fun a ha => (hall a ha).mono h⟩

theorem trans (h₁ : Advances P ns xs s s') (h₂ : Advances P ns ys s' s'') :
    Advances P ns (xs ++ ys) s s'' where
  good := h₂.good
  function := h₂.function.trans h₁.function
  declared := by rw [h₂.declared, h₁.declared, List.reverse_append, List.append_assoc]
  mentions := by
    obtain ⟨made₁, hmade₁, hall₁⟩ := h₁.mentions
    obtain ⟨made₂, hmade₂, hall₂⟩ := h₂.mentions
    refine ⟨made₂ ++ made₁, by rw [hmade₂, hmade₁, List.append_assoc], ?_⟩
    intro a ha
    rcases List.mem_append.1 ha with ha | ha
    · exact hall₂ a ha
    · exact hall₁ a ha

theorem functionName (h : Advances P ns xs s s') : s'.functionName = s.functionName := by
  rw [State.functionName, h.function]
  rfl

theorem count_declared (h : Advances P ns xs s s') (x : String) :
    s'.declared.count x = s.declared.count x + xs.count x := by
  rw [h.declared, List.count_append, List.count_reverse, Nat.add_comm]

/-- A node mentions a symbol. -/
theorem mention (hs : s.Good P) {symbol : Symbol} (hn : n ∈ ns) (ht : t ∈ n.childTokens)
    (hname : symbol.declaration.isSome → t.kind = .identifier ∧ t.text = symbol.name)
    (hsymbol : P symbol) : Advances P ns [] s (s.mention n t symbol) :=
  ⟨hs, rfl, rfl, [(n.id, ⟨symbol, t.id⟩)], rfl, fun a ha => by
    rw [List.mem_singleton.1 ha]
    exact ⟨n, hn, rfl, t, ht, rfl, hname, hsymbol⟩⟩

/-- A variable comes into scope. -/
theorem bind (hs : s.Good P) {l : Local} (hl : P l.symbol) (ht : GoodType P l.type) :
    Advances P ns [] s (s.bind l) := by
  refine ⟨?_, by rw [State.bind_eq], by rw [State.bind_eq]; rfl, [], by rw [State.bind_eq]; rfl,
    fun _ h => nomatch h⟩
  unfold State.bind
  split
  · exact hs
  · rename_i scope outer hscopes
    unfold State.Good at hs ⊢
    rw [hscopes, List.forall_mem_cons] at hs
    refine List.forall_mem_cons.2 ⟨?_, hs.2⟩
    exact List.forall_mem_cons.2 ⟨⟨hl, ht⟩, hs.1⟩

theorem openScope (hs : s.Good P) : Advances P ns [] s s.openScope :=
  ⟨hs.openScope, rfl, rfl, [], rfl, fun _ h => nomatch h⟩

theorem closeScope (hs : s.Good P) : Advances P ns [] s s.closeScope :=
  ⟨hs.closeScope, rfl, rfl, [], rfl, fun _ h => nomatch h⟩

end Advances

/-! ## What is visible -/

section
variable {scope : ModuleScope} {item : Item}

theorem mem_of_get? {name : String} (h : scope.get? name = some item) :
    item ∈ scope.items ∧ item.symbol.name = name :=
  ⟨List.mem_of_find?_eq_some h, by simpa using List.find?_some h⟩

theorem mem_of_type? {name : String} (h : scope.type? name = some item) :
    item ∈ scope.items ∧ item.symbol.name = name ∧ item.symbol.kind = .type := by
  rw [ModuleScope.type?, Option.filter_eq_some_iff] at h
  exact ⟨(mem_of_get? h.1).1, (mem_of_get? h.1).2, by simpa using h.2⟩

theorem mem_of_imported? {name : String} (h : v.imported? name = some scope) :
    scope ∈ v.imports ∧ scope.module.name = name :=
  ⟨List.mem_of_find?_eq_some h, by simpa using List.find?_some h⟩

theorem GoodScope.get? (hs : GoodScope P scope) {name : String} (h : scope.get? name = some item) :
    P item.symbol ∧ item.symbol.name = name :=
  ⟨(hs item (mem_of_get? h).1).1, (mem_of_get? h).2⟩

theorem GoodScope.type? (hs : GoodScope P scope) {name : String}
    (h : scope.type? name = some item) : P item.symbol ∧ item.symbol.name = name :=
  ⟨(hs item (mem_of_type? h).1).1, (mem_of_type? h).2.1⟩

/-- A type name means something that satisfies `P`, and has its name. -/
theorem Visible.Good.resolve? (hv : v.Good P) (hs : GoodScope P scope) {tn : TypeName}
    {symbol : Symbol} {type : Option RecordType} (h : v.resolve? scope tn = some (symbol, type)) :
    (P symbol ∨ builtin? tn.name = some symbol) ∧ symbol.name = tn.name ∧ GoodType P type := by
  unfold Visible.resolve? at h
  split at h
  · obtain ⟨target, htarget, h⟩ := Option.bind_eq_some_iff.1 h
    obtain ⟨item, hitem, h⟩ := Option.map_eq_some_iff.1 h
    obtain ⟨rfl, rfl⟩ := Prod.mk.inj h
    have hgood := (hv.imports target (mem_of_imported? htarget).1).type? hitem
    exact ⟨.inl hgood.1, hgood.2, .named _ _⟩
  · split at h
    · rename_i item hitem
      obtain ⟨rfl, rfl⟩ := Prod.mk.inj (Option.some.inj h)
      have hgood := hs.type? hitem
      exact ⟨.inl hgood.1, hgood.2, .named _ _⟩
    · split at h
      · obtain ⟨found, hfound, h⟩ := Option.map_eq_some_iff.1 h
        obtain ⟨rfl, rfl⟩ := Prod.mk.inj h
        exact ⟨.inr hfound, (builtin?_at hfound).1.name, .none⟩
      · cases h

theorem Visible.Good.recordType? (hv : v.Good P) (hs : GoodScope P scope) (tn : Option TypeName) :
    GoodType P (v.recordType? scope tn) := by
  intro r h
  obtain ⟨tn, -, h⟩ := Option.bind_eq_some_iff.1 h
  obtain ⟨⟨symbol, type⟩, hresolve, h⟩ := Option.bind_eq_some_iff.1 h
  exact (hv.resolve? hs hresolve).2.2 r h

theorem Visible.Good.scope? (hv : v.Good P) {m : ModuleId} (h : v.scope? m = some scope) :
    GoodScope P scope := by
  unfold Visible.scope? at h
  split at h
  · exact Option.some.inj h ▸ hv.own
  · exact hv.imports scope (List.mem_of_find?_eq_some h)

theorem Visible.Good.fieldsWithin (hv : v.Good P) {k : Nat} {m : ModuleId} {name : String}
    {fields : List Field} (h : v.fieldsWithin k m name = some (scope, fields)) :
    GoodScope P scope ∧ ∀ g ∈ fields, P g.symbol := by
  induction k generalizing m name with
  | zero => cases h
  | succ k ih =>
    rw [Visible.fieldsWithin] at h
    obtain ⟨found, hfound, h⟩ := Option.bind_eq_some_iff.1 h
    obtain ⟨item, hitem, h⟩ := Option.bind_eq_some_iff.1 h
    split at h
    · obtain ⟨rfl, rfl⟩ := Prod.mk.inj (Option.some.inj h)
      exact ⟨hv.scope? hfound, (hv.scope? hfound item (mem_of_type? hitem).1).2⟩
    · split at h
      · exact ih h
      · cases h

/-- A field of a type satisfies `P`, and so does its type. -/
theorem Visible.Good.field? (hv : v.Good P) {r : RecordType} (hr : RecordType.All P r)
    {name : String} {symbol : Symbol} {type : Option RecordType}
    (h : v.field? r name = some (symbol, type)) :
    P symbol ∧ symbol.name = name ∧ GoodType P type := by
  unfold Visible.field? at h
  cases hr with
  | named m tn =>
    obtain ⟨⟨scope, fields⟩, hfields, h⟩ := Option.bind_eq_some_iff.1 h
    obtain ⟨g, hg, h⟩ := Option.map_eq_some_iff.1 h
    obtain ⟨rfl, rfl⟩ := Prod.mk.inj h
    obtain ⟨hscope, hall⟩ := hv.fieldsWithin hfields
    have hname := List.find?_some hg
    exact ⟨hall g (List.mem_of_find?_eq_some hg), by simpa using hname, hv.recordType? hscope _⟩
  | written hsymbols htypes =>
    have hmem := List.mem_of_find?_eq_some h
    have hname := List.find?_some h
    exact ⟨hsymbols _ hmem, by simpa using hname, htypes _ hmem⟩

end

/-! ## Steps of the walk -/

/-- Whether every symbol at a path that a node introduces satisfies `P`. -/
def Covers (P : Symbol → Prop) (paths : List SymbolPath) : Prop :=
  ∀ p ∈ paths, ∀ s : Symbol, s.At p → P s

/-- The property that all symbols have. -/
abbrev Anything : Symbol → Prop := fun _ => True

theorem covers_anything (paths : List SymbolPath) : Covers Anything paths :=
  fun _ _ _ _ => trivial

theorem scope_anything (scope : ModuleScope) : GoodScope Anything scope :=
  fun _ _ => ⟨trivial, fun _ _ => trivial⟩

theorem visible_anything (v : Visible) : v.Good Anything :=
  ⟨scope_anything _, fun scope _ => scope_anything scope⟩

theorem all_anything : ∀ r : RecordType, r.All Anything
  | .named m name => .named m name
  | .written fields => .written (fun _ _ => trivial) fun f hf t ht => by
    have hlt : sizeOf f < sizeOf fields := List.sizeOf_lt_of_mem hf
    have hsize : sizeOf f = 1 + sizeOf f.1 + sizeOf f.2 := rfl
    rw [ht] at hsize
    have hsome : sizeOf (some t) = 1 + sizeOf t := rfl
    have : sizeOf t < 1 + sizeOf fields := by omega
    exact all_anything t

theorem good_anything (s : State) : s.Good Anything :=
  fun _ _ _ _ => ⟨trivial, fun r _ => all_anything r⟩

/-- Whether `P` holds of what a node introduces in a function of the given name. -/
abbrev CoversNode (P : Symbol → Prop) (c : Context) (f : String) (n : Node) : Prop :=
  Covers P (nodePaths c.module c.unit f n)

section
variable {f : String} {name : Token}

theorem CoversNode.item (h : CoversNode P c f n) : Covers P (itemPaths c.module n) :=
  fun p hp => h p (by simp [nodePaths, hp])

theorem CoversNode.parameter (h : CoversNode P c f n) (hkind : n.kind = .requiredParameter)
    (hname : n.identifierAt? 0 = some name) {s : Symbol}
    (hs : s.At (.parameter c.module c.unit f name.text)) : P s :=
  h _ (by simp [nodePaths, nameIn?, hkind, hname]) s hs

theorem CoversNode.import (h : CoversNode P c f n) (hkind : n.kind = .importDeclaration)
    (hname : n.identifierAt? 1 = some name) : P (moduleSymbol name.text) :=
  h _ (by simp [nodePaths, nameIn?, hkind, hname]) _ (moduleSymbol_at _)

theorem CoversNode.builtin (h : CoversNode P c f n) (hname : name ∈ n.childTokens)
    (hkind : name.kind = .identifier) {s : Symbol} (hs : builtin? name.text = some s) : P s := by
  obtain ⟨hat, hsome⟩ := builtin?_at hs
  refine h _ ?_ s hat
  refine List.mem_append_right _ (List.mem_filterMap.2 ⟨name, ?_, ?_⟩)
  · simpa [TokenKind.isIdentifier, hname] using hkind
  · obtain ⟨detail, hdetail⟩ := Option.isSome_iff_exists.1 hsome
    rw [builtinPath?, hdetail]
    rfl

theorem CoversNode.record (h : CoversNode P c f n) (hkind : n.kind ≠ .typeDefinition) {r : Node}
    (hr : r ∈ n.children) : Covers P (recordPaths c.module c.unit r) := by
  intro p hp
  refine h p ?_
  rw [nodePaths, if_neg hkind]
  simp only [List.mem_append, List.mem_flatMap]
  exact .inl (.inl (.inl (.inr ⟨r, hr, hp⟩)))

theorem bindImport_advances (h : CoversNode P c f n) (hkind : n.kind = .importDeclaration)
    (hs : s.Good P) : Advances P [n] [] s (Context.bindImport n s) := by
  unfold Context.bindImport
  split
  · exact .refl hs
  · rename_i name hname
    obtain ⟨hchild, hidentifier⟩ := identifierAt?_eq_some hname
    exact .mention hs (List.mem_singleton_self _) hchild (fun _ => ⟨hidentifier, rfl⟩)
      (h.import hkind hname)

theorem declareItem_advances (h : Covers P (itemPaths c.module n)) (hs : s.Good P) :
    Advances P n.preorder [] s (c.declareItem n s) := by
  unfold Context.declareItem
  split
  · exact .refl hs
  · rename_i item hitem
    obtain ⟨⟨p, hp, hat⟩, hfields⟩ := itemOf?_at hitem
    obtain ⟨kind, name, hkind, hname, htoken, -, hlist, hsymbol⟩ := itemOf?_eq_some hitem
    refine ⟨hs, rfl, rfl, _, rfl, ?_⟩
    intro a ha
    rw [List.mem_reverse, List.mem_append, List.mem_map, List.mem_singleton] at ha
    rcases ha with ⟨g, hg, rfl⟩ | rfl
    · obtain ⟨q, hq, hgat⟩ := hfields g hg
      have hmem := hg
      rw [hlist] at hmem
      obtain ⟨-, body, hbody, -, c, hc, hfield⟩ := mem_itemFields hmem
      obtain ⟨fieldName, hfieldName, hnode, htoken, -, detail, hfieldSymbol⟩ :=
        fieldOf?_eq_some hfield
      obtain ⟨hchild, hidentifier⟩ := identifierAt?_eq_some hfieldName
      have hbody := Node.mem_preorder_child (List.mem_of_mem_head? hbody)
      refine ⟨c, Node.preorder_trans hbody (Node.mem_preorder_child hc), hnode.symm, fieldName,
        hchild, htoken.symm, fun _ => ⟨hidentifier, ?_⟩, h q hq _ hgat⟩
      rw [hfieldSymbol]
      rfl
    · obtain ⟨hchild, hidentifier⟩ := identifierAt?_eq_some hname
      refine ⟨n, n.self_mem_preorder, rfl, name, hchild, htoken.symm,
        fun _ => ⟨hidentifier, ?_⟩, h p hp _ hat⟩
      rw [hsymbol]
      rfl

theorem writtenType?_good {ms : Meanings} (h : ∀ m ∈ ms, m.2.Good P) :
    GoodType P (ms.writtenType?.bind WrittenType.record) := by
  intro r hr
  obtain ⟨w, hw, hr⟩ := Option.bind_eq_some_iff.1 hr
  obtain ⟨m, hm, hw⟩ := Option.bind_eq_some_iff.1 hw
  exact (h m (List.mem_of_find?_eq_some hm)).written w hw r hr

theorem firstValue?_good {ms : Meanings} (h : ∀ m ∈ ms, m.2.Good P) :
    GoodType P ms.firstValue? := by
  intro r hr
  obtain ⟨m, hm, hr⟩ := Option.bind_eq_some_iff.1 hr
  exact (h m (List.mem_of_mem_head? hm)).value r hr

theorem lastValue?_good {ms : Meanings} (h : ∀ m ∈ ms, m.2.Good P) : GoodType P ms.lastValue? := by
  intro r hr
  obtain ⟨m, hm, hr⟩ := Option.bind_eq_some_iff.1 hr
  exact (h m (List.mem_filter.1 (List.mem_of_getLast? hm)).1).value r hr

theorem declareParameter_advances (h : CoversNode P c f n) (hkind : n.kind = .requiredParameter)
    (hf : s.functionName = f) (hs : s.Good P) {below : Meanings} (hbelow : ∀ m ∈ below, m.2.Good P) :
    Advances P [n] [] s (c.declareParameter n below s) := by
  unfold Context.declareParameter
  split
  · exact .refl hs
  · rename_i name hname
    obtain ⟨hchild, hidentifier⟩ := identifierAt?_eq_some hname
    have hsymbol : P (declaredSymbol (.parameter c.module c.unit s.functionName name.text) name
        .parameter c.module c.unit (n.header fun _ => true)) :=
      h.parameter hkind hname (hf ▸ declaredSymbol_at rfl rfl rfl)
    have hmention : Advances P [n] [] s (s.mention n name _) :=
      .mention hs (List.mem_singleton_self _) hchild (fun _ => ⟨hidentifier, rfl⟩) hsymbol
    exact hmention.trans (.bind hmention.good hsymbol (writtenType?_good hbelow))

theorem declareVariable_advances {names : List String}
    (h : Covers P (localPaths c.module c.unit f names)) (hf : s.functionName = f)
    (hcount : ∀ x ∈ nameIn? .variableDeclaration 1 n, s.declared.count x < names.count x)
    (hkind : n.kind = .variableDeclaration) (hs : s.Good P) {below : Meanings}
    (hbelow : ∀ m ∈ below, m.2.Good P) :
    Advances P [n] (nameIn? .variableDeclaration 1 n).toList s (c.declareVariable n below s) := by
  unfold Context.declareVariable
  rw [nameIn?, if_pos hkind] at hcount ⊢
  split
  · rename_i hname
    rw [hname]
    exact .refl hs
  · rename_i name hname
    rw [hname] at hcount ⊢
    have hlt : s.declared.count name.text < names.count name.text := hcount name.text rfl
    obtain ⟨hchild, hidentifier⟩ := identifierAt?_eq_some hname
    dsimp only
    have hsymbol : P (declaredSymbol (.localVar c.module c.unit s.functionName name.text
        (s.declared.count name.text + 1)) name .var c.module c.unit
        (n.header fun slot => !holds "=" slot && !holds ";" slot)) := by
      subst hf
      refine h _ ?_ _ (declaredSymbol_at rfl rfl rfl)
      refine List.mem_flatMap.2 ⟨name.text, List.count_pos_iff.1 (by omega), ?_⟩
      exact List.mem_map.2 ⟨_, List.mem_range.2 hlt, rfl⟩
    have hdeclare : Advances P [n] [name.text] s { s with declared := name.text :: s.declared } :=
      ⟨hs, rfl, rfl, [], rfl, fun _ h => nomatch h⟩
    have hmention := hdeclare.trans <| Advances.mention hdeclare.good (List.mem_singleton_self _)
      hchild (fun _ => ⟨hidentifier, rfl⟩) hsymbol
    refine hmention.trans (.bind hmention.good hsymbol ?_)
    split
    · exact writtenType?_good hbelow
    · exact lastValue?_good hbelow

/-! ### Records -/

theorem writtenField?_eq_some {record : SymbolPath} {field : Node × Meaning}
    {w : Context.WrittenField} (h : c.writtenField? record field = some w) :
    ∃ name, field.1.identifierAt? 0 = some name ∧ w.node = field.1 ∧ w.name = name ∧
      w.type = field.2.written ∧
      ∃ detail, w.symbol =
        declaredSymbol (.field record name.text) name .field c.module c.unit detail := by
  obtain ⟨name, hname, rfl⟩ := Option.map_eq_some_iff.1 h
  exact ⟨name, hname, rfl, rfl, rfl, _, rfl⟩

/-- Several nodes mention symbols, one after the other. -/
theorem Advances.mentionAll {ws : List Context.WrittenField} (hs : s.Good P)
    (hws : ∀ w ∈ ws, w.node ∈ ns ∧ w.name ∈ w.node.childTokens ∧
      (w.name.kind = .identifier ∧ w.name.text = w.symbol.name) ∧ P w.symbol) :
    Advances P ns [] s (ws.foldl (fun s w => s.mention w.node w.name w.symbol) s) := by
  induction ws generalizing s with
  | nil => exact .refl hs
  | cons w ws ih =>
    rw [List.forall_mem_cons] at hws
    obtain ⟨⟨hnode, hchild, hname, hsymbol⟩, hws⟩ := hws
    have hfirst := Advances.mention hs hnode hchild (fun _ => hname) hsymbol
    exact hfirst.trans (ih hfirst.good hws)

theorem declareRecord_advances (h : Covers P (recordPaths c.module c.unit n))
    (hkind : n.kind = .recordTypeDescriptor) (hs : s.Good P) {fields : Meanings}
    (hnodes : ∀ m ∈ fields, m.1 ∈ n.children) (hfields : ∀ m ∈ fields, m.2.Good P) :
    (c.declareRecord n fields s).1.Good P ∧
      Advances P n.preorder [] s (c.declareRecord n fields s).2 := by
  unfold Context.declareRecord
  split
  · exact ⟨.ofWritten .none, .refl hs⟩
  · rename_i keyword hkeyword
    dsimp only
    have hpaths : recordPaths c.module c.unit n =
        .record c.module c.unit keyword.span.start ::
          fieldPaths (.record c.module c.unit keyword.span.start) n := by
      rw [recordPaths, hkind, hkeyword]
    generalize hpath : SymbolPath.record c.module c.unit keyword.span.start = path at hpaths ⊢
    have howner : path.owner = c.module := by rw [← hpath]; rfl
    rw [hpaths] at h
    have hwritten : ∀ w ∈ fields.filterMap (c.writtenField? path),
        (w.node ∈ n.preorder ∧ w.name ∈ w.node.childTokens ∧
          (w.name.kind = .identifier ∧ w.name.text = w.symbol.name) ∧ P w.symbol) ∧
        ∀ t, w.type = some t → GoodType P t.record := by
      intro w hw
      obtain ⟨field, hfield, hw⟩ := List.mem_filterMap.1 hw
      obtain ⟨name, hname, hnode, htoken, htype, detail, hsymbol⟩ := writtenField?_eq_some hw
      obtain ⟨hchild, hidentifier⟩ := identifierAt?_eq_some hname
      rw [hnode, htoken, htype, hsymbol]
      refine ⟨⟨Node.mem_preorder_child (hnodes field hfield), hchild, ⟨hidentifier, rfl⟩, ?_⟩,
        (hfields field hfield).written⟩
      refine h _ (List.mem_cons_of_mem _ (field_mem_fieldPaths (hnodes field hfield) hname)) _ ?_
      exact declaredSymbol_at rfl howner rfl
    have hall := Advances.mentionAll hs fun w hw => (hwritten w hw).1
    obtain ⟨s₀, hkeywordSlot, hkeyword⟩ := Option.bind_eq_some_iff.1 hkeyword
    have hchild : keyword ∈ n.childTokens := by
      cases s₀ <;> cases hkeyword
      exact Node.mem_childTokens.2 (List.mem_of_mem_head? hkeywordSlot)
    refine ⟨.ofWritten ?_, hall.trans (.mention hall.good n.self_mem_preorder hchild nofun ?_)⟩
    · intro r hr
      obtain rfl := Option.some.inj hr
      refine .written ?_ ?_
      · intro f hf
        obtain ⟨w, hw, rfl⟩ := List.mem_map.1 hf
        exact (hwritten w hw).1.2.2.2
      · intro f hf t ht
        obtain ⟨w, hw, rfl⟩ := List.mem_map.1 hf
        obtain ⟨written, hwrittenType, ht⟩ := Option.bind_eq_some_iff.1 ht
        exact (hwritten w hw).2 written hwrittenType t ht
    · refine h path List.mem_cons_self _ ?_
      rw [← hpath]
      exact ⟨rfl, rfl, rfl, rfl, fun h => nomatch h⟩

/-! ### References -/

/-- A type name has the text of its last identifier. -/
theorem typeName_last {tn : TypeName} (h : TypeName.ofNode? n = some tn)
    (hname : (n.childTokens.filter (·.kind.isIdentifier)).getLast? = some name) :
    name ∈ n.childTokens ∧ name.kind = .identifier ∧ tn.name = name.text := by
  have hmem := List.mem_filter.1 (List.mem_of_getLast? hname)
  refine ⟨hmem.1, by simpa [TokenKind.isIdentifier] using hmem.2, ?_⟩
  unfold TypeName.ofNode? at h
  split at h
  · split at h
    · rename_i heq
      rw [heq] at hname
      obtain rfl := Option.some.inj h
      obtain rfl := Option.some.inj hname
      rfl
    · rename_i heq
      rw [heq] at hname
      obtain rfl := Option.some.inj h
      obtain rfl := Option.some.inj hname
      rfl
    · cases h
  · cases h

theorem bindType_advances (hn : CoversNode P c f n) (hv : c.visible.Good P) (hs : s.Good P) :
    (c.bindType n s).1.Good P ∧ Advances P [n] [] s (c.bindType n s).2 := by
  have hresolved : ∀ {symbol type}, (TypeName.ofNode? n).bind (c.visible.resolve? c.visible.own) =
      some (symbol, type) → ∃ tn, TypeName.ofNode? n = some tn ∧
        (P symbol ∨ builtin? tn.name = some symbol) ∧ symbol.name = tn.name ∧ GoodType P type := by
    intro symbol type h
    obtain ⟨tn, htn, h⟩ := Option.bind_eq_some_iff.1 h
    exact ⟨tn, htn, hv.resolve? hv.own h⟩
  constructor
  · refine .ofWritten fun r hr => ?_
    obtain ⟨⟨symbol, type⟩, hfound, hr⟩ := Option.bind_eq_some_iff.1 hr
    obtain ⟨tn, -, -, -, htype⟩ := hresolved hfound
    exact htype r hr
  · unfold Context.bindType
    dsimp only
    split
    · rename_i symbol type name hfound hname
      obtain ⟨tn, htn, hsymbol, htext, -⟩ := hresolved hfound
      obtain ⟨hchild, hidentifier, hlast⟩ := typeName_last htn hname
      rw [hlast] at htext hsymbol
      refine .mention hs (List.mem_singleton_self _) hchild (fun _ => ⟨hidentifier, htext.symm⟩) ?_
      exact hsymbol.elim id fun hbuiltin => hn.builtin hchild hidentifier hbuiltin
    · exact .refl hs

theorem bindItem_advances {scope : ModuleScope} {item : Item} (hv : c.visible.Good P)
    (hscope : GoodScope P scope) (hs : s.Good P) (hname : n.identifierAt? i = some name)
    (hitem : scope.get? name.text = some item) :
    (c.bindItem scope item n name s).1.Good P ∧
      Advances P [n] [] s (c.bindItem scope item n name s).2 := by
  obtain ⟨hchild, hidentifier⟩ := identifierAt?_eq_some hname
  obtain ⟨hsymbol, htext⟩ := hscope.get? hitem
  refine ⟨⟨?_, ?_, fun _ h => nomatch h⟩, .mention hs (List.mem_singleton_self _) hchild
    (fun _ => ⟨hidentifier, htext.symm⟩) hsymbol⟩
  · show GoodType P (c.visible.valueType? scope item)
    unfold Visible.valueType?
    split
    · exact hv.recordType? hscope _
    · exact .none
  · show GoodType P (c.visible.resultType? scope item)
    unfold Visible.resultType?
    split
    · exact hv.recordType? hscope _
    · exact .none

theorem State.Good.local? (hs : s.Good P) {x : String} {l : Local} (h : s.local? x = some l) :
    P l.symbol ∧ l.symbol.name = x ∧ GoodType P l.type := by
  obtain ⟨scope, hscope, h⟩ := List.exists_of_findSome?_eq_some h
  obtain ⟨hsymbol, htype⟩ := hs scope hscope l (List.mem_of_find?_eq_some h)
  exact ⟨hsymbol, by simpa using List.find?_some h, htype⟩

theorem bindName_advances (hn : CoversNode P c f n) (hv : c.visible.Good P) (hs : s.Good P) :
    (c.bindName n s).1.Good P ∧ Advances P [n] [] s (c.bindName n s).2 := by
  unfold Context.bindName
  split
  · exact ⟨.none, .refl hs⟩
  · rename_i name hname
    obtain ⟨hchild, hidentifier⟩ := identifierAt?_eq_some hname
    split
    · rename_i l hl
      obtain ⟨hsymbol, htext, htype⟩ := hs.local? hl
      exact ⟨.ofValue htype, .mention hs (List.mem_singleton_self _) hchild
        (fun _ => ⟨hidentifier, htext.symm⟩) hsymbol⟩
    · split
      · rename_i item hitem
        exact bindItem_advances hv hv.own hs hname hitem
      · split
        · rename_i symbol hsymbol
          have htext : symbol.name = name.text := (builtin?_at hsymbol).1.name
          exact ⟨.none, .mention hs (List.mem_singleton_self _) hchild
            (fun _ => ⟨hidentifier, htext.symm⟩) (hn.builtin hchild hidentifier hsymbol)⟩
        · exact ⟨.none, .refl hs⟩

theorem bindQualifiedName_advances (hv : c.visible.Good P) (hs : s.Good P) :
    (c.bindQualifiedName n s).1.Good P ∧ Advances P [n] [] s (c.bindQualifiedName n s).2 := by
  unfold Context.bindQualifiedName
  split
  · rename_i qualifier name _ hname
    split
    · exact ⟨.none, .refl hs⟩
    · rename_i scope hscope
      split
      · exact ⟨.none, .refl hs⟩
      · rename_i item hitem
        exact bindItem_advances hv (hv.imports scope (mem_of_imported? hscope).1) hs hname hitem
  · exact ⟨.none, .refl hs⟩

theorem bindField_advances (hv : c.visible.Good P) (hs : s.Good P) {below : Meanings}
    (hbelow : ∀ m ∈ below, m.2.Good P) :
    (c.bindField n below s).1.Good P ∧ Advances P [n] [] s (c.bindField n below s).2 := by
  unfold Context.bindField
  split
  · rename_i name type hname htype
    split
    · rename_i symbol fieldType hfield
      obtain ⟨hchild, hidentifier⟩ := identifierAt?_eq_some hname
      have hrecord := firstValue?_good hbelow type htype
      obtain ⟨hsymbol, htext, hfieldType⟩ := hv.field? hrecord hfield
      exact ⟨.ofValue hfieldType, .mention hs (List.mem_singleton_self _) hchild
        (fun _ => ⟨hidentifier, htext.symm⟩) hsymbol⟩
    · exact ⟨.none, .refl hs⟩
  · exact ⟨.none, .refl hs⟩

end

/-! ## The walk -/

section
variable {f : String} {names : List String}

theorem enter_advances (hn : CoversNode P c f n) (hkind : n.kind ≠ .functionDefinition)
    (hs : s.Good P) : Advances P n.preorder [] s (c.enter n s) := by
  have hsub : [n] ⊆ n.preorder := by simpa using n.self_mem_preorder
  unfold Context.enter
  split
  · rename_i himport
    exact (bindImport_advances hn himport hs).mono hsub
  · rename_i hfunction
    exact absurd hfunction hkind
  · exact declareItem_advances hn.item hs
  · exact declareItem_advances hn.item hs
  · exact .openScope hs
  · exact .openScope hs
  · exact .refl hs

theorem leave_advances (hn : CoversNode P c f n) (hlocals : Covers P (localPaths c.module c.unit f names))
    {isBody : Bool} (hrecord : isBody = false → Covers P (recordPaths c.module c.unit n))
    (hv : c.visible.Good P) (hkind : n.kind ≠ .functionDefinition) (hf : s.functionName = f)
    (hcount : ∀ x ∈ nameIn? .variableDeclaration 1 n, s.declared.count x < names.count x)
    (hs : s.Good P) {below : Meanings} (hbelow : ∀ m ∈ below, m.1 ∈ n.children ∧ m.2.Good P) :
    (c.leave n isBody below s).1.Good P ∧
      Advances P n.preorder (nameIn? .variableDeclaration 1 n).toList s
        (c.leave n isBody below s).2 := by
  have hsub : [n] ⊆ n.preorder := by simpa using n.self_mem_preorder
  have hgood := fun m hm => (hbelow m hm).2
  have hnone : n.kind ≠ .variableDeclaration → nameIn? .variableDeclaration 1 n = none :=
    fun h => if_neg h
  unfold Context.leave
  split <;> rename_i heq
  · exact absurd heq hkind
  · rw [hnone (by rw [heq]; decide)]
    exact ⟨.none, .closeScope hs⟩
  · rw [hnone (by rw [heq]; decide)]
    exact ⟨.none, .closeScope hs⟩
  · rw [hnone (by rw [heq]; decide)]
    cases isBody with
    | true => exact ⟨.none, .refl hs⟩
    | false => exact declareRecord_advances (hrecord rfl) heq hs (fun m hm => (hbelow m hm).1) hgood
  · rw [hnone (by rw [heq]; decide)]
    refine ⟨⟨.none, .none, ?_⟩, .refl hs⟩
    intro w hw r hr
    change below.writtenType? = some w at hw
    refine writtenType?_good hgood r ?_
    rw [hw]
    exact hr
  · rw [hnone (by rw [heq]; decide)]
    exact ⟨.none, (declareParameter_advances hn heq hf hs hgood).mono hsub⟩
  · exact ⟨.none, (declareVariable_advances hlocals hf hcount heq hs hgood).mono hsub⟩
  · rw [hnone (by rw [heq]; decide)]
    obtain ⟨hmeaning, hstep⟩ := bindType_advances hn hv hs
    exact ⟨hmeaning, hstep.mono hsub⟩
  · rw [hnone (by rw [heq]; decide)]
    obtain ⟨hmeaning, hstep⟩ := bindName_advances hn hv hs
    exact ⟨hmeaning, hstep.mono hsub⟩
  · rw [hnone (by rw [heq]; decide)]
    obtain ⟨hmeaning, hstep⟩ := bindQualifiedName_advances (n := n) hv hs
    exact ⟨hmeaning, hstep.mono hsub⟩
  · rw [hnone (by rw [heq]; decide)]
    refine ⟨.ofValue fun r hr => ?_, .refl hs⟩
    obtain ⟨m, hm, hr⟩ := Option.bind_eq_some_iff.1 hr
    exact (hgood m (List.mem_of_mem_head? hm)).result r hr
  · rw [hnone (by rw [heq]; decide)]
    obtain ⟨hmeaning, hstep⟩ := bindField_advances (n := n) hv hs hgood
    exact ⟨hmeaning, hstep.mono hsub⟩
  · rw [hnone (by rw [heq]; decide)]
    exact ⟨.ofValue (firstValue?_good hgood), .refl hs⟩
  · rw [hnone (by assumption)]
    exact ⟨.none, .refl hs⟩

theorem localNames_mk (id : NodeId) (kind : NodeKind) (full : Span) (ends : Option (Token × Token))
    (slots : List Child) :
    localNames ⟨id, kind, full, ends, slots⟩ = localNamesIn slots ++
      (nameIn? .variableDeclaration 1 ⟨id, kind, full, ends, slots⟩).toList := by
  rw [localNames, Node.postorder, List.filterMap_append, localNamesIn]
  cases h : nameIn? .variableDeclaration 1 ⟨id, kind, full, ends, slots⟩ <;> simp [h]

theorem localNamesIn_node (n : Node) (rest : List Child) :
    localNamesIn (.node n :: rest) = localNames n ++ localNamesIn rest :=
  List.filterMap_append

mutual

/-- **What a walk adds to what is known satisfies `P`,** if everything that the nodes introduce
does. -/
theorem bindNode_advances (hv : c.visible.Good P)
    (hlocals : Covers P (localPaths c.module c.unit f names)) :
    ∀ (n : Node) (isBody : Bool) (s : State),
    (∀ m ∈ n.preorder, CoversNode P c f m ∧ m.kind ≠ .functionDefinition) →
    (isBody = false → Covers P (recordPaths c.module c.unit n)) → s.functionName = f →
    (∀ x ∈ localNames n, s.declared.count x + (localNames n).count x ≤ names.count x) → s.Good P →
    (bindNode c isBody n s).1.Good P ∧
      Advances P n.preorder (localNames n) s (bindNode c isBody n s).2
  | ⟨id, kind, full, ends, slots⟩, isBody, s, hnodes, hrecord, hf, hcount, hs => by
    have hsub : Node.preorderOf slots ⊆ (Node.mk id kind full ends slots).preorder :=
      List.subset_cons_self _ _
    obtain ⟨hself, hkind⟩ := hnodes _ (Node.self_mem_preorder _)
    have henter := enter_advances hself hkind hs
    have hbelow := bindSlots_advances hv hlocals slots (kind == .typeDefinition) _
      (fun m hm => hnodes m (hsub hm))
      (fun hinType r hr => hself.record (by simpa using hinType) hr)
      (henter.functionName.trans hf)
      (fun x hx => by
        have := hcount x (by rw [localNames_mk]; exact List.mem_append_left _ hx)
        rw [localNames_mk, List.count_append] at this
        rw [henter.count_declared, List.count_nil]
        omega)
      henter.good
    have hwalked := henter.trans (hbelow.2.mono hsub)
    rw [List.nil_append] at hwalked
    have hleave := leave_advances hself hlocals hrecord hv hkind (hwalked.functionName.trans hf)
      (fun x hx => by
        have := hcount x (by rw [localNames_mk, hx]; exact List.mem_append_right _ List.mem_cons_self)
        rw [localNames_mk, List.count_append, hx, Option.toList_some, List.count_singleton_self] at this
        rw [hwalked.count_declared]
        omega)
      hwalked.good hbelow.1
    refine ⟨hleave.1, ?_⟩
    rw [localNames_mk]
    exact hwalked.trans hleave.2

theorem bindSlots_advances (hv : c.visible.Good P)
    (hlocals : Covers P (localPaths c.module c.unit f names)) :
    ∀ (slots : List Child) (inType : Bool) (s : State),
    (∀ m ∈ Node.preorderOf slots, CoversNode P c f m ∧ m.kind ≠ .functionDefinition) →
    (inType = false → ∀ r ∈ slots.filterMap Slot.node?, Covers P (recordPaths c.module c.unit r)) →
    s.functionName = f →
    (∀ x ∈ localNamesIn slots,
      s.declared.count x + (localNamesIn slots).count x ≤ names.count x) → s.Good P →
    (∀ m ∈ (bindSlots c inType slots s).1, m.1 ∈ slots.filterMap Slot.node? ∧ m.2.Good P) ∧
      Advances P (Node.preorderOf slots) (localNamesIn slots) s (bindSlots c inType slots s).2
  | [], inType, s, _, _, _, _, hs => ⟨(fun _ h => nomatch h), .refl hs⟩
  | .node n :: rest, inType, s, hnodes, hrecords, hf, hcount, hs => by
    have hmem : ∀ m, m ∈ n.preorder → m ∈ Node.preorderOf (.node n :: rest) :=
      fun m hm => List.mem_append_left _ hm
    have hmemRest : ∀ m, m ∈ Node.preorderOf rest → m ∈ Node.preorderOf (.node n :: rest) :=
      fun m hm => List.mem_append_right _ hm
    rw [localNamesIn_node] at hcount ⊢
    have hfirst := bindNode_advances hv hlocals n inType s (fun m hm => hnodes m (hmem m hm))
      (fun h => hrecords h n List.mem_cons_self) hf
      (fun x hx => by
        have := hcount x (List.mem_append_left _ hx)
        rw [List.count_append] at this
        omega) hs
    have hothers := bindSlots_advances hv hlocals rest inType (bindNode c inType n s).2
      (fun m hm => hnodes m (hmemRest m hm))
      (fun h r hr => hrecords h r (List.mem_cons_of_mem _ hr))
      (hfirst.2.functionName.trans hf)
      (fun x hx => by
        have := hcount x (List.mem_append_right _ hx)
        rw [List.count_append] at this
        rw [hfirst.2.count_declared]
        omega) hfirst.2.good
    refine ⟨?_, (hfirst.2.mono hmem).trans (hothers.2.mono hmemRest)⟩
    intro m hm
    rcases List.mem_cons.1 hm with rfl | hm
    · exact ⟨List.mem_cons_self, hfirst.1⟩
    · exact ⟨List.mem_cons_of_mem _ (hothers.1 m hm).1, (hothers.1 m hm).2⟩
  | .token _ :: rest, inType, s, hnodes, hrecords, hf, hcount, hs =>
    bindSlots_advances hv hlocals rest inType s hnodes hrecords hf hcount hs
  | .missing :: rest, inType, s, hnodes, hrecords, hf, hcount, hs =>
    bindSlots_advances hv hlocals rest inType s hnodes hrecords hf hcount hs

end

end

/-! ## Items -/

section
variable {source : String}

/-- What the walk of an item may do: add mentions that belong to the nodes of the item. -/
structure Passes (P : Symbol → Prop) (ns : List Node) (s s' : State) : Prop where
  good : s'.Good P
  function : s'.function = none
  mentions : ∃ made, s'.mentions = made ++ s.mentions ∧ ∀ a ∈ made, Witnessed P ns a

theorem bindNode_eq (c : Context) (isBody : Bool) (n : Node) (s : State) :
    bindNode c isBody n s =
      c.leave n isBody (bindSlots c (n.kind == .typeDefinition) n.slots (c.enter n s)).1
        (bindSlots c (n.kind == .typeDefinition) n.slots (c.enter n s)).2 := by
  cases n
  rfl

theorem Covers.node {m : Node} (h : Covers P (pathsInItem c.module c.unit n))
    (hm : m ∈ n.preorder) : CoversNode P c (functionNameOf n) m :=
  fun p hp => h p (List.mem_append_left _ (List.mem_flatMap.2 ⟨m, hm, hp⟩))

theorem Covers.localPaths (h : Covers P (pathsInItem c.module c.unit n)) :
    Covers P (localPaths c.module c.unit (functionNameOf n) (localNames n)) :=
  fun p hp => h p (List.mem_append_right _ hp)

theorem localNamesIn_subset (n : Node) (x : String) :
    (localNamesIn n.slots).count x ≤ (localNames n).count x := by
  cases n
  rw [localNames_mk, List.count_append]
  exact Nat.le_add_right _ _

/-- The walk of a function forgets the names of its variables. -/
theorem function_passes (hn : n.kind = .functionDefinition)
    (hcover : Covers P (pathsInItem c.module c.unit n))
    (hbelow : ∀ m, (∃ child ∈ n.children, m ∈ child.preorder) → m.kind ≠ .functionDefinition)
    (hv : c.visible.Good P) (hs : s.Good P) : Passes P n.preorder s (bindNode c false n s).2 := by
  have hself := hcover.node n.self_mem_preorder
  have hdeclare := declareItem_advances hself.item hs
  have hsub : Node.preorderOf n.slots ⊆ n.preorder := by
    cases n
    exact List.subset_cons_self _ _
  have hwalk := bindSlots_advances hv hcover.localPaths n.slots false
    ({ c.declareItem n s with
        function := (n.identifierAt? 1).map Token.text, declared := [] } : State).openScope
    (fun m hm => ⟨hcover.node (hsub hm), hbelow m (by
      rwa [Node.preorderOf_eq, List.mem_flatMap] at hm)⟩)
    (fun _ r hr => hself.record (by rw [hn]; decide) hr) rfl
    (fun x _ => by
      have := localNamesIn_subset n x
      simp only [State.openScope, List.count_nil, Nat.zero_add]
      exact this)
    (State.Good.openScope hdeclare.good)
  have henter : c.enter n s = ({ c.declareItem n s with
      function := (n.identifierAt? 1).map Token.text, declared := [] } : State).openScope := by
    rw [Context.enter, hn]
  have htype : (n.kind == NodeKind.typeDefinition) = false := by rw [hn]; rfl
  rw [bindNode_eq, henter, htype, Context.leave, hn]
  obtain ⟨made, hmade, hall⟩ := hdeclare.mentions
  obtain ⟨made', hmade', hall'⟩ := hwalk.2.mentions
  refine ⟨hwalk.2.good.closeScope, rfl, made' ++ made, ?_, ?_⟩
  · refine hmade'.trans ?_
    rw [List.append_assoc, ← hmade]
    rfl
  · intro a ha
    rcases List.mem_append.1 ha with ha | ha
    · exact (hall' a ha).mono hsub
    · exact hall a ha

theorem nodePaths_of_isStill {m : ModuleId} {u f : String} (f' : String) (h : n.kind.isStill) :
    nodePaths m u f n = nodePaths m u f' n := by
  have hkind : n.kind ≠ .requiredParameter := by
    intro heq
    rw [heq] at h
    cases h
  rw [nodePaths, nodePaths, nameIn?, if_neg hkind]
  rfl

/-- The walk of an item that is no function. -/
theorem other_passes (hstill : ∀ m ∈ n.preorder, m.kind.isStill)
    (hrecord : n.kind ≠ .recordTypeDescriptor)
    (hcover : Covers P (pathsInItem c.module c.unit n)) (hv : c.visible.Good P) (hs : s.Good P)
    (hf : s.function = none) : Passes P n.preorder s (bindNode c false n s).2 := by
  have hnames : localNames n = [] := by
    rw [localNames, List.filterMap_eq_nil_iff]
    intro m hm
    refine if_neg fun heq => ?_
    have := hstill m (Node.mem_postorder.1 hm)
    rw [heq] at this
    cases this
  have hlocals : Covers P (localPaths c.module c.unit s.functionName []) := fun _ h => nomatch h
  have hwalk := bindNode_advances hv hlocals n false s
    (fun m hm => ⟨by
      rw [CoversNode, nodePaths_of_isStill (functionNameOf n) (hstill m hm)]
      exact hcover.node hm, fun heq => by
      have := hstill m hm
      rw [heq] at this
      cases this⟩)
    (fun _ p hp => by
      rw [recordPaths] at hp
      split at hp
      · exact absurd ‹_› hrecord
      · cases hp)
    rfl (fun x hx => by rw [hnames] at hx; cases hx) hs
  exact ⟨hwalk.2.good, hwalk.2.function.trans hf, hwalk.2.mentions⟩

/-- The walk of several items. -/
theorem items_pass {slots : List Child}
    (hslots : ∀ n ∈ slots.filterMap Slot.node?, ∀ s : State, s.Good P → s.function = none →
      Passes P n.preorder s (bindNode c false n s).2)
    (hs : s.Good P) (hf : s.function = none) :
    Passes P (Node.preorderOf slots) s (bindSlots c false slots s).2 := by
  induction slots generalizing s with
  | nil => exact ⟨hs, hf, [], rfl, fun _ h => nomatch h⟩
  | cons slot rest ih =>
    cases slot with
    | node n =>
      rw [show (Slot.node n :: rest).filterMap Slot.node? = n :: rest.filterMap Slot.node? from rfl,
        List.forall_mem_cons] at hslots
      have hfirst := hslots.1 s hs hf
      have hothers := ih hslots.2 hfirst.good hfirst.function
      obtain ⟨made, hmade, hall⟩ := hfirst.mentions
      obtain ⟨made', hmade', hall'⟩ := hothers.mentions
      refine ⟨hothers.good, hothers.function, made' ++ made, ?_, ?_⟩
      · rw [List.append_assoc, ← hmade]
        exact hmade'
      · intro a ha
        rcases List.mem_append.1 ha with ha | ha
        · exact (hall' a ha).mono fun m hm => List.mem_append_right _ hm
        · exact (hall a ha).mono fun m hm => List.mem_append_left _ hm
    | token t => exact ih hslots hs hf
    | missing => exact ih hslots hs hf

/-- **Everything that a unit mentions satisfies `P`,** if everything does that the unit sees and
that its nodes introduce. -/
theorem bindTree_witnessed (hv : c.visible.Good P)
    (hcover : Covers P (unitPaths c.module c.unit (.ofSource source))) :
    ∀ a ∈ bindTree c (.ofSource source), Witnessed P (Tree.ofSource source).root.preorder a := by
  have hitem : ∀ n ∈ (Tree.ofSource source).root.children,
      Covers P (pathsInItem c.module c.unit n) :=
    fun n hn p hp => hcover p (List.mem_flatMap.2 ⟨n, hn, hp⟩)
  have hitems : ∀ n ∈ (Tree.ofSource source).root.children, ∀ s : State, s.Good P →
      s.function = none → Passes P n.preorder s (bindNode c false n s).2 := by
    intro n hn s hs hf
    by_cases hkind : n.kind = .functionDefinition
    · refine function_passes hkind (hitem n hn) (fun m hm heq => ?_) hv hs
      have := Tree.isBelowItem_below hn hm
      rw [heq] at this
      cases this
    · refine other_passes (fun m hm => Tree.isStill_below hn hkind hm) ?_ (hitem n hn) hv hs hf
      have hallows := Tree.allows_ofSource (Node.self_mem_preorder _) hn
      rw [Tree.kind_root] at hallows
      intro heq
      rw [heq] at hallows
      cases hallows
  have hstart : State.start.Good P := fun _ h => nomatch h
  obtain ⟨made, hmade, hall⟩ := (items_pass hitems hstart rfl).mentions
  intro a ha
  have hkind : (Tree.ofSource source).root.kind = .modulePart := Tree.kind_root
  have htype : ((Tree.ofSource source).root.kind == NodeKind.typeDefinition) = false := by
    rw [hkind]; rfl
  have henter : c.enter (Tree.ofSource source).root .start = .start := by
    rw [Context.enter, hkind]
  rw [bindTree, List.mem_reverse, bindNode_eq, henter, htype, Context.leave, hkind] at ha
  rw [hmade] at ha
  refine (hall a ?_).mono ?_
  · simpa [State.start] using ha
  · rw [Node.preorder_eq, Node.preorderOf_eq]
    exact List.subset_cons_self _ _

end

end Xref.Binding
