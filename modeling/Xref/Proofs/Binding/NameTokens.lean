import Xref.Proofs.Binding.Inputs
import Xref.Proofs.Binding.Origins
import Xref.Proofs.Binding.VisitPaths

/-!
# Tokens that name symbols

A mention is named by an identifier, unless it is that of a record written in place, which has no
name: the token of that mention is the one that the record starts with (`token_of_mem_bindTree`). No
symbol with a declaration has a shape (`mention_of_compile`), so what is equivalent to it has its
identity.
-/

namespace Xref.Binding

variable {c : Context} {source : String} {a : NodeId × Mention}

/-! ## Tokens -/

/-- The identity of the record that a node writes in a unit, if it writes one. -/
def recordId? (u : UnitId) (n : Node) : Option SymbolId :=
  if n.kind = .recordTypeDescriptor then
    (n.slots.head?.bind Slot.token?).map fun t => .ofPath (.record u.module u.unit t.span.start)
  else none

/-- The identities of the records that are written in place in a unit: all but the bodies of type
definitions. -/
def recordIds (u : UnitId) (source : String) : List SymbolId :=
  ((Tree.ofSource source).root.preorder.filter fun n => n.kind ≠ .typeDefinition).flatMap fun n =>
    n.children.filterMap (recordId? u)

theorem mem_childTokens_of_first {n : Node} {keyword : Token}
    (h : n.slots.head?.bind Slot.token? = some keyword) : keyword ∈ n.childTokens := by
  obtain ⟨slot, hslot, htoken⟩ := Option.bind_eq_some_iff.1 h
  cases slot with
  | token t =>
    cases htoken
    exact Node.mem_childTokens.2 (List.mem_of_mem_head? hslot)
  | node => cases htoken
  | missing => cases htoken

/-- What a record written in place notes of itself is named by its first token and has one of the
identities of the unit's records. -/
theorem mem_recordIds {v : Visit} (hv : v ∈ unitVisits c source)
    (hkind : v.node.kind = .recordTypeDescriptor) (hbody : v.isBody = false) {keyword : Token}
    (hfirst : v.node.slots.head?.bind Slot.token? = some keyword) :
    keyword ∈ v.node.childTokens ∧
      SymbolId.ofPath (.record c.module c.unit keyword.span.start) ∈
        recordIds ⟨c.module, c.unit⟩ source := by
  refine ⟨mem_childTokens_of_first hfirst, ?_⟩
  rcases (below_visits _ _ _ v hv).2 with ⟨hroot, -⟩ | ⟨m, hm, hchild, hnot⟩
  · rw [hroot, Tree.kind_root] at hkind
    cases hkind
  · refine List.mem_flatMap.2 ⟨m, List.mem_filter.2 ⟨hm, ?_⟩, List.mem_filterMap.2
      ⟨v.node, hchild, ?_⟩⟩
    · rw [hbody, eq_comm, beq_eq_false_iff_ne] at hnot
      exact decide_eq_true hnot
    · rw [recordId?, if_pos hkind, hfirst]
      rfl

/-- **A mention is named by an identifier with the name of the symbol,** or it is that of a record
written in place. -/
theorem named_of_mem_bindTree (ha : a ∈ bindTree c (.ofSource source)) :
    (∃ t ∈ sourceTokens source, t.id = a.2.name ∧ t.kind = .identifier ∧
      t.text = a.2.symbol.name) ∨
    ∃ v ∈ unitVisits c source, v.node.kind = .recordTypeDescriptor ∧ v.isBody = false ∧
      ∃ keyword, v.node.slots.head?.bind Slot.token? = some keyword ∧
        a = (v.node.id, ⟨c.recordSymbol v.node v.below keyword, keyword.id⟩) := by
  have hchild : ∀ {n : Node} {t : Token}, n ∈ (Tree.ofSource source).root.preorder →
      t ∈ n.childTokens → t ∈ sourceTokens source := Change.Marks.mem_of_childToken
  obtain ⟨n, hn, -, t, ht, hname, hdeclared, -⟩ :=
    bindTree_witnessed (visible_anything _) (covers_anything _) a ha
  by_cases hsome : a.2.symbol.declaration.isSome
  · exact .inl ⟨t, hchild hn ht, hname, hdeclared hsome⟩
  -- What is declared nowhere is a module, a record written in place or part of the language.
  obtain ⟨v, hv, hnoted⟩ := mem_bindTree.1 ha
  have hnode := mem_preorder_of_visit hv
  by_cases himport : v.node.kind = .importDeclaration
  · rw [noted_import himport] at hnoted
    cases hidentifier : v.node.identifierAt? 1 with
    | none => rw [hidentifier] at hnoted; cases hnoted
    | some name =>
      rw [hidentifier] at hnoted
      cases List.mem_singleton.1 hnoted
      obtain ⟨hmem, hkind⟩ := identifierAt?_eq_some hidentifier
      exact .inl ⟨name, hchild hnode hmem, rfl, hkind, rfl⟩
  by_cases hitem : (declaredKind? v.node.kind).isSome
  · rw [noted_item hitem] at hnoted
    cases hfound : itemOf? c.module c.unit v.node with
    | none => rw [hfound] at hnoted; cases hnoted
    | some item =>
      rw [hfound] at hnoted
      obtain ⟨_, -, -, hdeclaration, -⟩ := isDeclaration_itemNotes hnode hfound hnoted
      rw [hdeclaration] at hsome
      exact absurd rfl hsome
  have hother : v.node.kind.isItem = false := by
    revert himport hitem
    cases v.node.kind <;> decide
  by_cases hrecord : v.node.kind = .recordTypeDescriptor
  · rcases noted_record (c := c) hrecord with hnone | ⟨keyword, hbody, hfirst, heq⟩
    · rw [hnone] at hnoted
      cases hnoted
    · rw [heq] at hnoted
      rcases List.mem_cons.1 hnoted with hself | hfield
      · exact .inr ⟨v, hv, hrecord, hbody, keyword, hfirst, hself⟩
      · obtain ⟨w, hw, rfl⟩ := List.mem_map.1 (List.mem_reverse.1 hfield)
        obtain ⟨field, -, hwritten⟩ := List.mem_filterMap.1 hw
        obtain ⟨name, hname, -, -, -, detail, hsymbol⟩ := writtenField?_eq_some hwritten
        rw [fieldNote, hsymbol] at hsome
        exact absurd rfl hsome
  · obtain ⟨o, heq, hnamed, -⟩ := noted_other (c := c) hother hrecord
    rw [heq] at hnoted
    obtain ⟨own, hown, rfl⟩ : ∃ own ∈ o, (v.node.id, own) = a := by
      simpa using hnoted
    obtain ⟨t, ht, hkind, htext, hid⟩ := hnamed own hown
    exact .inl ⟨t, hchild hnode ht, hid, hkind, htext⟩

/-- **An identifier names the symbol of a mention,** or the mention is that of a record written in
place. -/
theorem token_of_mem_bindTree (ha : a ∈ bindTree c (.ofSource source)) :
    ∃ t ∈ sourceTokens source, t.id = a.2.name ∧
      (t.kind = .identifier ∨ a.2.symbol.id ∈ recordIds ⟨c.module, c.unit⟩ source) := by
  rcases named_of_mem_bindTree ha with
    ⟨t, ht, hid, hkind, -⟩ | ⟨v, hv, hrecord, hbody, keyword, hfirst, rfl⟩
  · exact ⟨t, ht, hid, .inl hkind⟩
  · obtain ⟨hmem, hids⟩ := mem_recordIds hv hrecord hbody hfirst
    exact ⟨keyword, Change.Marks.mem_of_childToken (mem_preorder_of_visit hv) hmem, rfl,
      .inr hids⟩

/-! ## Shapes -/

/-- Whether a symbol is compared by its identity alone if it has a declaration. -/
def IsNominal (s : Symbol) : Prop := s.declaration.isSome → s.shape = none

theorem isNominal_of_at {s : Symbol} {p : SymbolPath} (h : s.At p) : IsNominal s :=
  fun hdeclared => h.shape (SymbolPath.isRecord_of_isDeclared (h.declaration ▸ hdeclared))

/-- A symbol is equivalent to one with a declaration only if it has the same identity. -/
theorem IsNominal.id_eq {s target : Symbol} (h : IsNominal target)
    (hdeclared : target.declaration.isSome) (hs : s.isEquivalent target) : s.id = target.id :=
  (Symbol.isEquivalent_of_no_shape (h hdeclared)).1 hs

variable {l : Layout} {d : Documents} {g : ModuleGraph} {u : UnitId}

/-- What a compiled unit has a node mention. -/
theorem mention_of_compile {b : BoundUnit} (h : compile l d g u source = .ok b) {node : NodeId}
    {mention : Mention} (hmention : b.mention? node = some mention) :
    IsNominal mention.symbol ∧ ∃ t ∈ sourceTokens source, t.id = mention.name ∧
      (t.kind = .identifier ∨ mention.symbol.id ∈ recordIds u source) := by
  obtain ⟨c, hmodule, hunit, hvisible, rfl⟩ := exists_context_of_compile h
  have hcovers : ∀ paths, Covers IsNominal paths := fun _ _ _ _ hs => isNominal_of_at hs
  have hmem := BoundUnit.mem_of_mention? hmention
  obtain ⟨-, -, -, -, -, -, -, hname⟩ :=
    bindTree_witnessed (hvisible _ fun _ _ _ _ _ => hcovers _) (hcovers _) _ hmem
  refine ⟨hname, ?_⟩
  obtain ⟨t, ht, hid, hkind⟩ := token_of_mem_bindTree hmem
  rw [hmodule, hunit] at hkind
  exact ⟨t, ht, hid, hkind⟩

end Xref.Binding
