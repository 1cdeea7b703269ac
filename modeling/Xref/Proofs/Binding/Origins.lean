import Xref.Proofs.Binding.Marks

/-!
# Mentions of declarations

A declaration mentions its own symbol, at the token that the symbol gives as its declaration
(`IsDeclaration`). Whatever else a unit mentions comes from there: a property that holds of symbols
without declaration, of what the unit sees and of what its declarations mention holds of everything
that it mentions (`bindTree_settled`).
-/

namespace Xref.Binding

/-- Whether a mention is that of a declaration in the unit: its symbol is declared at the token that
names it. -/
def IsDeclaration (c : Context) (source : String) (a : NodeId × Mention) : Prop :=
  ∃ t ∈ sourceTokens source, t.id = a.2.name ∧ a.2.symbol.declaration = some ⟨c.unit, t.span⟩ ∧
    a.2.symbol.owner = c.module

/-- Whether all variables in scope and their types satisfy `P`, and all symbols mentioned so far. -/
structure State.Settled (P : Symbol → Prop) (s : State) : Prop where
  good : s.Good P
  mentions : ∀ a ∈ s.mentions, P a.2.symbol

variable {P : Symbol → Prop} {c : Context} {source : String} {n : Node} {t : Token} {s : State}
  {a : NodeId × Mention}

/-! ## Declarations -/

section
variable {path : SymbolPath} {kind : SymbolKind} {detail : String}

theorem isDeclaration_declaredSymbol (hn : n ∈ (Tree.ofSource source).root.preorder)
    (ht : t ∈ n.childTokens) (node : NodeId) : IsDeclaration c source
      (node, ⟨declaredSymbol path t kind c.module c.unit detail, t.id⟩) :=
  ⟨t, Change.Marks.mem_of_childToken hn ht, rfl, rfl, rfl⟩

/-- All mentions of an item are declarations. -/
theorem isDeclaration_itemNotes {item : Item} (hn : n ∈ (Tree.ofSource source).root.preorder)
    (hitem : itemOf? c.module c.unit n = some item) (ha : a ∈ itemNotes n item) :
    IsDeclaration c source a := by
  obtain ⟨kind, name, -, hname, htoken, -, hfields, hsymbol⟩ := itemOf?_eq_some hitem
  rcases List.mem_cons.1 ha with rfl | ha
  · rw [hsymbol, htoken]
    exact isDeclaration_declaredSymbol hn (identifierAt?_eq_some hname).1 _
  · obtain ⟨g, hg, rfl⟩ := List.mem_map.1 (List.mem_reverse.1 ha)
    rw [hfields] at hg
    obtain ⟨-, body, hbody, -, f, hf, hg⟩ := mem_itemFields hg
    obtain ⟨fieldName, hfieldName, -, htoken, -, detail, hsymbol⟩ := fieldOf?_eq_some hg
    have hbody := Node.preorder_trans hn (Node.mem_preorder_child (List.mem_of_mem_head? hbody))
    rw [hsymbol, htoken]
    exact isDeclaration_declaredSymbol (Node.preorder_trans hbody (Node.mem_preorder_child hf))
      (identifierAt?_eq_some hfieldName).1 _

/-- A unit mentions what its items declare. -/
theorem itemNotes_mem_bindTree {item : Item} (hn : n ∈ (Tree.ofSource source).root.children)
    (hitem : itemOf? c.module c.unit n = some item) (ha : a ∈ itemNotes n item) :
    a ∈ bindTree c (.ofSource source) := by
  obtain ⟨v, hv, rfl⟩ := exists_visit (c := c) (Node.mem_preorder_child hn)
  obtain ⟨kind, -, hkind, -⟩ := itemOf?_eq_some hitem
  refine mem_bindTree.2 ⟨v, hv, ?_⟩
  rw [noted_item (by rw [hkind]; rfl), hitem]
  exact ha

end

/-! ## Steps of the walk -/

namespace State.Settled

theorem mention (hs : s.Settled P) {symbol : Symbol} (h : P symbol) :
    (s.mention n t symbol).Settled P :=
  ⟨hs.good, List.forall_mem_cons.2 ⟨h, hs.mentions⟩⟩

theorem bind (hs : s.Settled P) {l : Local} (hl : P l.symbol) (ht : GoodType P l.type) :
    (s.bind l).Settled P := by
  have hbind : Advances P [] [] s (s.bind l) := .bind hs.good hl ht
  refine ⟨hbind.good, ?_⟩
  rw [mentions_bind]
  exact hs.mentions

theorem openScope (hs : s.Settled P) : s.openScope.Settled P := ⟨hs.good.openScope, hs.mentions⟩

theorem closeScope (hs : s.Settled P) : s.closeScope.Settled P := ⟨hs.good.closeScope, hs.mentions⟩

theorem withFunction (hs : s.Settled P) (function : Option String) (declared : List String) :
    ({ s with function, declared } : State).Settled P := ⟨hs.good, hs.mentions⟩

end State.Settled

section
variable (hnone : ∀ symbol : Symbol, symbol.declaration = none → P symbol)
  (hn : n ∈ (Tree.ofSource source).root.preorder)

include hn

theorem declareItem_settled (hs : s.Settled P) (hdeclared : ∀ a ∈ (c.declareItem n s).mentions,
    IsDeclaration c source a → P a.2.symbol) : (c.declareItem n s).Settled P := by
  rw [declareItem_eq] at hdeclared ⊢
  refine ⟨hs.good, fun a ha => ?_⟩
  rcases List.mem_append.1 ha with hnote | hmention
  · cases hitem : itemOf? c.module c.unit n with
    | none =>
      rw [hitem] at hnote
      cases hnote
    | some item =>
      rw [hitem, Option.elim_some] at hnote
      exact hdeclared a ha (isDeclaration_itemNotes hn hitem hnote)
  · exact hs.mentions a hmention

theorem declareParameter_settled {below : Meanings} (hbelow : ∀ m ∈ below, m.2.Good P)
    (hs : s.Settled P) (hdeclared : ∀ a ∈ (c.declareParameter n below s).mentions,
      IsDeclaration c source a → P a.2.symbol) : (c.declareParameter n below s).Settled P := by
  unfold Context.declareParameter at hdeclared ⊢
  split at hdeclared
  · exact hs
  · rename_i name hname
    have hsymbol := hdeclared _ (by rw [mentions_bind]; exact List.mem_cons_self)
      (isDeclaration_declaredSymbol hn (identifierAt?_eq_some hname).1 _)
    exact (hs.mention hsymbol).bind hsymbol (writtenType?_good hbelow)

theorem declareVariable_settled {below : Meanings} (hbelow : ∀ m ∈ below, m.2.Good P)
    (hs : s.Settled P) (hdeclared : ∀ a ∈ (c.declareVariable n below s).mentions,
      IsDeclaration c source a → P a.2.symbol) : (c.declareVariable n below s).Settled P := by
  unfold Context.declareVariable at hdeclared ⊢
  split at hdeclared
  · exact hs
  · rename_i name hname
    have hsymbol := hdeclared _ (by rw [mentions_bind]; exact List.mem_cons_self)
      (isDeclaration_declaredSymbol hn (identifierAt?_eq_some hname).1 _)
    refine State.Settled.bind (.mention (hs.withFunction _ _) hsymbol) hsymbol ?_
    dsimp only
    split
    · exact writtenType?_good hbelow
    · exact lastValue?_good hbelow

theorem declareRecord_settled {fields : Meanings}
    (hnone : ∀ symbol : Symbol, symbol.declaration = none → P symbol)
    (hfields : ∀ m ∈ fields, m.1 ∈ n.children ∧ m.2.Good P) (hs : s.Settled P)
    (hdeclared : ∀ a ∈ (c.declareRecord n fields s).2.mentions,
      IsDeclaration c source a → P a.2.symbol) :
    (c.declareRecord n fields s).1.Good P ∧ (c.declareRecord n fields s).2.Settled P := by
  cases hkeyword : n.slots.head?.bind Slot.token? with
  | none =>
    unfold Context.declareRecord
    rw [hkeyword]
    exact ⟨.ofWritten .none, hs⟩
  | some keyword =>
    rw [declareRecord_eq c hkeyword] at hdeclared ⊢
    have hwritten : ∀ w ∈ c.writtenFields fields keyword,
        P w.symbol ∧ GoodType P (w.type.bind WrittenType.record) := by
      intro w hw
      obtain ⟨field, hfield, hfound⟩ := List.mem_filterMap.1 hw
      obtain ⟨name, hname, hnode, htoken, htype, detail, hdeclaration⟩ :=
        writtenField?_eq_some hfound
      obtain ⟨hchild, hgood⟩ := hfields field hfield
      have hmem := List.mem_reverse.2 (List.mem_map_of_mem (f := fieldNote) hw)
      have hnote : fieldNote w ∈ (n.id, ⟨c.recordSymbol n fields keyword, keyword.id⟩) ::
          ((c.writtenFields fields keyword).map fieldNote).reverse ++ s.mentions :=
        List.mem_append_left _ (List.mem_cons_of_mem _ hmem)
      constructor
      · refine hdeclared _ hnote ?_
        rw [fieldNote, hdeclaration, htoken]
        exact isDeclaration_declaredSymbol (Node.preorder_trans hn (Node.mem_preorder_child hchild))
          (identifierAt?_eq_some hname).1 _
      · intro r hr
        obtain ⟨written, hwrittenType, hr⟩ := Option.bind_eq_some_iff.1 hr
        exact hgood.written written (htype ▸ hwrittenType) r hr
    refine ⟨.ofWritten fun r hr => ?_, hs.good, fun a ha => ?_⟩
    · obtain rfl := Option.some.inj hr
      refine .written (fun f hf => ?_) fun f hf => ?_
      · obtain ⟨w, hw, rfl⟩ := List.mem_map.1 hf
        exact (hwritten w hw).1
      · obtain ⟨w, hw, rfl⟩ := List.mem_map.1 hf
        exact (hwritten w hw).2
    · rcases List.mem_append.1 ha with ha | ha
      · rcases List.mem_cons.1 ha with rfl | ha
        · exact hnone _ rfl
        · obtain ⟨w, hw, rfl⟩ := List.mem_map.1 (List.mem_reverse.1 ha)
          exact (hwritten w hw).1
      · exact hs.mentions a ha

end

/-! ## References -/

section
variable (hnone : ∀ symbol : Symbol, symbol.declaration = none → P symbol)
  (hv : c.visible.Good P) (hs : s.Settled P)

include hv hs

theorem bindItem_settled {scope : ModuleScope} {item : Item} {name : String}
    (hscope : GoodScope P scope) (hitem : scope.get? name = some item) :
    (c.bindItem scope item n t s).1.Good P ∧ (c.bindItem scope item n t s).2.Settled P := by
  refine ⟨⟨?_, ?_, fun _ h => nomatch h⟩, hs.mention (hscope.get? hitem).1⟩
  · show GoodType P (c.visible.valueType? scope item)
    unfold Visible.valueType?
    split
    · exact hv.recordType? hscope _
    · exact .none
  · show GoodType P (c.visible.resultType? scope item)
    unfold Visible.resultType?
    split
    · exact hv.recordType? hscope _
    · exact .none

theorem bindQualifiedName_settled :
    (c.bindQualifiedName n s).1.Good P ∧ (c.bindQualifiedName n s).2.Settled P := by
  unfold Context.bindQualifiedName
  split
  · split
    · exact ⟨.none, hs⟩
    · rename_i scope hscope
      split
      · exact ⟨.none, hs⟩
      · rename_i item hitem
        exact bindItem_settled hv hs (hv.imports scope (mem_of_imported? hscope).1) hitem
  · exact ⟨.none, hs⟩

theorem bindField_settled {below : Meanings} (hbelow : ∀ m ∈ below, m.2.Good P) :
    (c.bindField n below s).1.Good P ∧ (c.bindField n below s).2.Settled P := by
  unfold Context.bindField
  split
  · rename_i name type hname htype
    split
    · rename_i symbol fieldType hfield
      obtain ⟨hsymbol, -, hfieldType⟩ :=
        hv.field? (firstValue?_good hbelow type htype) hfield
      exact ⟨.ofValue hfieldType, hs.mention hsymbol⟩
    · exact ⟨.none, hs⟩
  · exact ⟨.none, hs⟩

include hnone

theorem bindType_settled : (c.bindType n s).1.Good P ∧ (c.bindType n s).2.Settled P := by
  have hresolved : ∀ {symbol type}, (TypeName.ofNode? n).bind (c.visible.resolve? c.visible.own) =
      some (symbol, type) → P symbol ∧ GoodType P type := by
    intro symbol type h
    obtain ⟨tn, -, h⟩ := Option.bind_eq_some_iff.1 h
    obtain ⟨hsymbol, -, htype⟩ := hv.resolve? hv.own h
    refine ⟨hsymbol.elim id fun hbuiltin => ?_, htype⟩
    exact hnone symbol (Change.builtin?_declaration hbuiltin)
  constructor
  · refine .ofWritten fun r hr => ?_
    obtain ⟨⟨symbol, type⟩, hfound, hr⟩ := Option.bind_eq_some_iff.1 hr
    exact (hresolved hfound).2 r hr
  · unfold Context.bindType
    dsimp only
    split
    · rename_i symbol type name hfound hname
      exact hs.mention (hresolved hfound).1
    · exact hs

theorem bindName_settled : (c.bindName n s).1.Good P ∧ (c.bindName n s).2.Settled P := by
  unfold Context.bindName
  split
  · exact ⟨.none, hs⟩
  · split
    · rename_i l hl
      obtain ⟨hsymbol, -, htype⟩ := hs.good.local? hl
      exact ⟨.ofValue htype, hs.mention hsymbol⟩
    · split
      · rename_i item hitem
        exact bindItem_settled hv hs hv.own hitem
      · split
        · rename_i symbol hsymbol
          exact ⟨.none, hs.mention (hnone symbol (Change.builtin?_declaration hsymbol))⟩
        · exact ⟨.none, hs⟩

end

/-! ## The walk -/

section
variable (hnone : ∀ symbol : Symbol, symbol.declaration = none → P symbol)

include hnone

theorem enter_settled (hn : n ∈ (Tree.ofSource source).root.preorder) (hs : s.Settled P)
    (hdeclared : ∀ a ∈ (c.enter n s).mentions, IsDeclaration c source a → P a.2.symbol) :
    (c.enter n s).Settled P := by
  unfold Context.enter at hdeclared ⊢
  split
  · unfold Context.bindImport
    split
    · exact hs
    · exact hs.mention (hnone _ rfl)
  · rename_i hkind
    rw [hkind] at hdeclared
    exact ((declareItem_settled hn hs hdeclared).withFunction _ _).openScope
  · rename_i hkind
    rw [hkind] at hdeclared
    exact declareItem_settled hn hs hdeclared
  · rename_i hkind
    rw [hkind] at hdeclared
    exact declareItem_settled hn hs hdeclared
  · exact hs.openScope
  · exact hs.openScope
  · exact hs

variable (hv : c.visible.Good P)

include hv

theorem leave_settled {isBody : Bool} {below : Meanings}
    (hn : n ∈ (Tree.ofSource source).root.preorder) (hs : s.Settled P)
    (hbelow : ∀ m ∈ below, m.1 ∈ n.children ∧ m.2.Good P)
    (hdeclared : ∀ a ∈ (c.leave n isBody below s).2.mentions,
      IsDeclaration c source a → P a.2.symbol) :
    (c.leave n isBody below s).1.Good P ∧ (c.leave n isBody below s).2.Settled P := by
  have hgood := fun m hm => (hbelow m hm).2
  unfold Context.leave at hdeclared ⊢
  split <;> rename_i hkind <;> simp only [hkind] at hdeclared
  · exact ⟨.none, hs.closeScope.withFunction _ _⟩
  · exact ⟨.none, hs.closeScope⟩
  · exact ⟨.none, hs.closeScope⟩
  · cases isBody with
    | true => exact ⟨.none, hs⟩
    | false => exact declareRecord_settled hn hnone hbelow hs hdeclared
  · refine ⟨⟨.none, .none, fun w hw r hr => ?_⟩, hs⟩
    refine writtenType?_good hgood r ?_
    rw [show below.writtenType? = some w from hw]
    exact hr
  · exact ⟨.none, declareParameter_settled hn hgood hs hdeclared⟩
  · exact ⟨.none, declareVariable_settled hn hgood hs hdeclared⟩
  · exact bindType_settled hnone hv hs
  · exact bindName_settled hnone hv hs
  · exact bindQualifiedName_settled hv hs
  · refine ⟨.ofValue fun r hr => ?_, hs⟩
    obtain ⟨m, hm, hr⟩ := Option.bind_eq_some_iff.1 hr
    exact (hgood m (List.mem_of_mem_head? hm)).result r hr
  · exact bindField_settled hv hs hgood
  · exact ⟨.ofValue (firstValue?_good hgood), hs⟩
  · exact ⟨.none, hs⟩

end

mutual

/-- **What a walk mentions satisfies `P`,** if its declarations do and all that was known before. -/
theorem bindNode_settled (hnone : ∀ symbol : Symbol, symbol.declaration = none → P symbol)
    (hv : c.visible.Good P) : ∀ (n : Node) (isBody : Bool) (s : State),
    (∀ m ∈ n.preorder, m ∈ (Tree.ofSource source).root.preorder) → s.Settled P →
    (∀ a ∈ (bindNode c isBody n s).2.mentions, IsDeclaration c source a → P a.2.symbol) →
    (bindNode c isBody n s).1.Good P ∧ (bindNode c isBody n s).2.Settled P
  | ⟨id, kind, full, ends, slots⟩, isBody, s, hnodes, hs, hdeclared => by
    have hself := hnodes _ (Node.self_mem_preorder _)
    -- No mention is ever taken back.
    have hbelowLeave : ∀ a ∈ (bindSlots c (kind == .typeDefinition) slots
        (c.enter ⟨id, kind, full, ends, slots⟩ s)).2.mentions,
        a ∈ (bindNode c isBody ⟨id, kind, full, ends, slots⟩ s).2.mentions := fun a ha => by
      rw [bindNode_eq, mentions_leave]
      exact List.mem_append_right _ ha
    have henter := enter_settled hnone hself hs fun a ha =>
      hdeclared a (hbelowLeave a ((mem_mentions_bindSlots slots _ _).2 (.inl ha)))
    have hslots := bindSlots_settled hnone hv slots (kind == .typeDefinition) _
      (fun m hm => hnodes m (List.mem_cons_of_mem _ hm)) henter
      fun a ha => hdeclared a (hbelowLeave a ha)
    exact leave_settled hnone hv hself hslots.2 hslots.1 hdeclared

theorem bindSlots_settled (hnone : ∀ symbol : Symbol, symbol.declaration = none → P symbol)
    (hv : c.visible.Good P) : ∀ (slots : List Child) (inType : Bool) (s : State),
    (∀ m ∈ Node.preorderOf slots, m ∈ (Tree.ofSource source).root.preorder) → s.Settled P →
    (∀ a ∈ (bindSlots c inType slots s).2.mentions, IsDeclaration c source a → P a.2.symbol) →
    (∀ m ∈ (bindSlots c inType slots s).1, m.1 ∈ slots.filterMap Slot.node? ∧ m.2.Good P) ∧
      (bindSlots c inType slots s).2.Settled P
  | [], _, _, _, hs, _ => ⟨(fun _ h => nomatch h), hs⟩
  | .node n :: rest, inType, s, hnodes, hs, hdeclared => by
    have hfirst := bindNode_settled hnone hv n inType s
      (fun m hm => hnodes m (List.mem_append_left _ hm)) hs fun a ha =>
        hdeclared a ((mem_mentions_bindSlots rest _ _).2 (.inl ha))
    have hothers := bindSlots_settled hnone hv rest inType (bindNode c inType n s).2
      (fun m hm => hnodes m (List.mem_append_right _ hm)) hfirst.2 hdeclared
    refine ⟨fun m hm => ?_, hothers.2⟩
    rcases List.mem_cons.1 hm with rfl | hm
    · exact ⟨List.mem_cons_self, hfirst.1⟩
    · exact ⟨List.mem_cons_of_mem _ (hothers.1 m hm).1, (hothers.1 m hm).2⟩
  | .token _ :: rest, inType, s, hnodes, hs, hdeclared =>
    bindSlots_settled hnone hv rest inType s hnodes hs hdeclared
  | .missing :: rest, inType, s, hnodes, hs, hdeclared =>
    bindSlots_settled hnone hv rest inType s hnodes hs hdeclared

end

/-- **Everything that a unit mentions satisfies `P`,** if everything does that the unit sees and
that its declarations mention. -/
theorem bindTree_settled (hnone : ∀ symbol : Symbol, symbol.declaration = none → P symbol)
    (hv : c.visible.Good P)
    (hdeclared : ∀ a ∈ bindTree c (.ofSource source), IsDeclaration c source a → P a.2.symbol) :
    ∀ a ∈ bindTree c (.ofSource source), P a.2.symbol := by
  have hstart : State.start.Settled P := ⟨(fun _ h => nomatch h), (fun _ h => nomatch h)⟩
  have hmem : ∀ a, a ∈ bindTree c (.ofSource source) ↔
      a ∈ (bindNode c false (Tree.ofSource source).root .start).2.mentions := fun a => by
    rw [bindTree, List.mem_reverse]
  simp only [hmem] at hdeclared ⊢
  exact (bindNode_settled hnone hv _ false .start (fun _ hm => hm) hstart hdeclared).2.mentions

end Xref.Binding
