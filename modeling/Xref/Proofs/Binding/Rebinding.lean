import Xref.Proofs.Binding.SideBySide

/-!
# Binding a text in which a symbol has a new name

In the text in which the tokens that name the symbol have the new name every node means what it
meant, up to the name of the symbol (`bindNode_renames`). So a unit mentions the symbol where it
mentioned it, and it mentions nothing that it did not mention (`bindTree_renames`).
-/

namespace Xref.Binding

/-! ## Declarations in a function, and references -/

/-- Records the mention of what a name means, if it means anything. -/
def State.refer (s : State) (n : Node) (t : Token) : Option (Meaning × Symbol) → Meaning × State
  | none => (.none, s)
  | some (meaning, symbol) => (meaning, s.mention n t symbol)

namespace Context

variable {c : Context} {n : Node} {t k : Token} {below : Meanings} {s : State}

/-- The symbol of a parameter. -/
def parameterSymbol (c : Context) (n : Node) (t : Token) (s : State) : Symbol :=
  declaredSymbol (.parameter c.module c.unit s.functionName t.text) t .parameter c.module c.unit
    (n.header fun _ => true)

/-- The symbol of a local variable. -/
def variableSymbol (c : Context) (n : Node) (t : Token) (s : State) : Symbol :=
  declaredSymbol
    (.localVar c.module c.unit s.functionName t.text (s.declared.count t.text + 1)) t .var c.module
    c.unit (n.header fun slot => !holds "=" slot && !holds ";" slot)

theorem declareParameter_eq (ht : n.identifierAt? 0 = some t) : c.declareParameter n below s =
    (s.mention n t (c.parameterSymbol n t s)).bind
      ⟨c.parameterSymbol n t s, below.writtenType?.bind WrittenType.record⟩ := by
  rw [declareParameter, ht]
  rfl

theorem declareVariable_eq (ht : n.identifierAt? 1 = some t) : c.declareVariable n below s =
    (State.mention { s with declared := t.text :: s.declared } n t (c.variableSymbol n t s)).bind
      ⟨c.variableSymbol n t s, if below.hasType then below.writtenType?.bind WrittenType.record
        else below.lastValue?⟩ := by
  rw [declareVariable, ht]
  rfl

/-- What an item means where it is used. -/
def itemMeaning (c : Context) (S : ModuleScope) (item : Item) : Meaning × Symbol :=
  ({ Meaning.none with
      value := c.visible.valueType? S item
      result := c.visible.resultType? S item }, item.symbol)

/-- What a bare name means. -/
def bare? (c : Context) (s : State) (x : String) : Option (Meaning × Symbol) :=
  match s.local? x with
  | some found => some (.ofValue found.type, found.symbol)
  | none =>
    match c.visible.own.get? x with
    | some item => some (c.itemMeaning c.visible.own item)
    | none => (builtin? x).map fun symbol => (.none, symbol)

/-- What a name with a qualifier means. -/
def qualified? (c : Context) (q x : String) : Option (Meaning × Symbol) :=
  (c.visible.imported? q).bind fun S => (S.get? x).map (c.itemMeaning S)

/-- What the name of a field of a value means. -/
def ofField? (c : Context) (type : Option RecordType) (x : String) : Option (Meaning × Symbol) :=
  (type.bind fun type => c.visible.field? type x).map fun found => (.ofValue found.2, found.1)

theorem bindName_eq (ht : n.identifierAt? 0 = some t) :
    c.bindName n s = s.refer n t (c.bare? s t.text) := by
  rw [bindName, ht, bare?]
  dsimp only
  cases s.local? t.text with
  | some => rfl
  | none =>
    cases c.visible.own.get? t.text with
    | some => rfl
    | none => cases builtin? t.text <;> rfl

theorem bindQualifiedName_eq (hk : n.identifierAt? 0 = some k) (ht : n.identifierAt? 2 = some t) :
    c.bindQualifiedName n s = s.refer n t (c.qualified? k.text t.text) := by
  rw [bindQualifiedName, hk, ht, qualified?]
  dsimp only
  cases c.visible.imported? k.text with
  | none => rfl
  | some S =>
    rw [Option.bind_some]
    dsimp only
    cases S.get? t.text <;> rfl

theorem bindField_eq (ht : n.identifierAt? 2 = some t) :
    c.bindField n below s = s.refer n t (c.ofField? below.firstValue? t.text) := by
  rw [bindField, ht, ofField?]
  cases below.firstValue? with
  | none => rfl
  | some type =>
    rw [Option.bind_some]
    dsimp only
    cases c.visible.field? type t.text <;> rfl

end Context

namespace Change.Marks

variable {ρ : Change} {c : Context} {source : String} {p : Token → Bool} {v : Visit} {t k : Token}
  {symbol : Symbol} {o : Option (Meaning × Symbol)}

/-! ## Mentions on the way back -/

/-- If a mention of a node is added with a token, the token is marked exactly if it names the
symbol, and no other token is marked. -/
theorem mentioned (h : ρ.Marks c source p) (hv : v ∈ unitVisits c source)
    (hitem : v.node.kind.isItem = false) (hfield : v.node.kind ≠ .recordField)
    (ht : t ∈ v.node.childTokens)
    (hleave : (c.leave v.node v.isBody v.below v.state).2.mentions =
      (v.node.id, ⟨symbol, t.id⟩) :: v.state.mentions) :
    (p t ↔ symbol.id = ρ.target) ∧ (symbol.declaration = none → symbol.id ≠ ρ.target) ∧
      ∀ k ∈ v.node.childTokens, k.id ≠ t.id → p k = false := by
  have hnoted : v.noted c = [(v.node.id, ⟨symbol, t.id⟩)] := noted_of_leave hitem hleave
  have hmem : (v.node.id, ⟨symbol, t.id⟩) ∈ v.noted c := hnoted ▸ List.mem_singleton_self _
  refine ⟨h.noted_iff hv hmem (mem_of_childToken (mem_preorder_of_visit hv) ht) rfl,
    h.id_ne hv hmem, fun k hk hne => h.not_marked hv hfield hk fun a ha => ?_⟩
  rw [hnoted] at ha
  rw [List.mem_singleton.1 ha]
  exact hne

/-- If no mention is added, no token is marked. -/
theorem unmentioned (h : ρ.Marks c source p) (hv : v ∈ unitVisits c source)
    (hitem : v.node.kind.isItem = false) (hfield : v.node.kind ≠ .recordField)
    (hleave : (c.leave v.node v.isBody v.below v.state).2.mentions = v.state.mentions) :
    ∀ k ∈ v.node.childTokens, p k = false := by
  have hnoted : v.noted c = [] := noted_of_leave (l := []) hitem hleave
  refine fun k hk => h.not_marked hv hfield hk fun a ha => ?_
  rw [hnoted] at ha
  cases ha

/-- The token of a reference is marked exactly if it means the symbol, and no other token is. -/
theorem referred (h : ρ.Marks c source p) (hv : v ∈ unitVisits c source)
    (hitem : v.node.kind.isItem = false) (hfield : v.node.kind ≠ .recordField)
    (ht : t ∈ v.node.childTokens)
    (hleave : c.leave v.node v.isBody v.below v.state = v.state.refer v.node t o) :
    (p t ↔ ∃ a, o = some a ∧ a.2.id = ρ.target) ∧
      (∀ a, o = some a → a.2.declaration = none → a.2.id ≠ ρ.target) ∧
      ∀ k ∈ v.node.childTokens, k.id ≠ t.id → p k = false := by
  cases o with
  | none =>
    have hnone := h.unmentioned hv hitem hfield (by rw [hleave]; rfl)
    rw [hnone t ht]
    exact ⟨by simp, (fun _ ha => nomatch ha), fun k hk _ => hnone k hk⟩
  | some a =>
    have hmention : (c.leave v.node v.isBody v.below v.state).2.mentions =
        (v.node.id, ⟨a.2, t.id⟩) :: v.state.mentions := by
      rw [hleave]
      rfl
    obtain ⟨hiff, hdeclared, hothers⟩ := h.mentioned hv hitem hfield ht hmention
    refine ⟨hiff.trans ?_, ?_, hothers⟩
    · simp
    · rintro a' ⟨⟩
      exact hdeclared

end Change.Marks

namespace Change

open Context (declareParameter_eq declareVariable_eq)
open Marks (mem_of_childToken text_eq declaredSymbol_renames noted_type)

/-- The symbol of a record written in place is not the one whose name changes. -/
theorem recordSymbol_renames {ρ : Change} {c c' : Context} {n n' : Node}
    {below below' : Meanings} {t t' : Token} (hmodule : c'.module = c.module)
    (hkeyword : "record" ≠ ρ.new) (hne : (c.recordSymbol n below t).id ≠ ρ.target) :
    ρ.Renames (c.recordSymbol n below t) (c'.recordSymbol n' below' t') where
  fresh := hkeyword
  kind := rfl
  owner := hmodule
  declaration := rfl
  target hid := absurd hid hne
  other _ := rfl

section
variable {ρ : Change} {scope scope' : ModuleId → ModuleScope} {m : ModuleId} {u : String}
  {imports : List ModuleId} {source : String} {p : Token → Bool} {v : Visit} {n' : Node}
  {s s' : State} {below' : Meanings} {i : Nat} {t t' : Token}

theorem identifier_renamed {n : Node} (halike : n.Alike (Token.Renamed p ρ.new) n') (i : Nat) :
    Option.Rel (Token.Renamed p ρ.new) (n.identifierAt? i) (n'.identifierAt? i) :=
  halike.identifierAt? (fun _ _ h => h.kind) i

theorem exists_last {n : Node} {tn : TypeName} (htn : TypeName.ofNode? n = some tn) :
    ∃ name, (n.childTokens.filter (·.kind.isIdentifier)).getLast? = some name := by
  unfold TypeName.ofNode? at htn
  split at htn
  · split at htn
    · rename_i name heq
      exact ⟨name, by rw [heq]; rfl⟩
    · rename_i qualifier name heq
      exact ⟨name, by rw [heq]; rfl⟩
    · cases htn
  · cases htn

/-- What names mean side by side. -/
abbrev RenamesReference (ρ : Change) (scope : ModuleId → ModuleScope) (a a' : Meaning × Symbol) :
    Prop :=
  ρ.RenamesMeaning scope a.1 a'.1 ∧ ρ.Renames a.2 a'.2

theorem refer_renames {n : Node} {o o' : Option (Meaning × Symbol)} (hid : n'.id = n.id)
    (ht : t'.id = t.id) (hs : ρ.RenamesState scope s s')
    (h : Option.Rel (ρ.RenamesReference scope) o o') :
    ρ.RenamesWalk scope (s.refer n t o) (s'.refer n' t' o') := by
  cases h with
  | none => exact ⟨.none, hs⟩
  | some h => exact ⟨h.1, hs.mention hid ht h.2⟩

section
variable (hscope : ∀ k, ρ.RenamesScope scope k (scope k) (scope' k))

include hscope

theorem itemMeaning_renames {k : ModuleId} {item item' : Item}
    (hitem : ρ.RenamesItem scope k item item') : ρ.RenamesReference scope
      ((contextSeeing scope m u imports).itemMeaning (scope k) item)
      ((contextSeeing scope' m u imports).itemMeaning (scope' k) item') := by
  have htype : ρ.KeepsType scope ((seen scope m imports).recordType? (scope k) item.type)
      ((seen scope' m imports).recordType? (scope' k) item'.type) :=
    recordType?_keeps hscope hitem.type
  refine ⟨⟨?_, ?_, .none⟩, hitem.symbol⟩
  · dsimp only [Context.itemMeaning, Visible.valueType?]
    rw [hitem.symbol.kind]
    split
    · exact htype
    · exact .none
  · dsimp only [Context.itemMeaning, Visible.resultType?]
    rw [hitem.symbol.kind]
    split
    · exact htype
    · exact .none

variable {x : String} {b : Bool} (hx : x ≠ ρ.new) (hb : b → x = ρ.old)

include hx hb

/-- A bare name means the variable, the declaration or the part of the language that it meant. -/
theorem bare?_renames (hs : ρ.RenamesState scope s s')
    (hiff : b ↔ ∃ a, (contextSeeing scope m u imports).bare? s x = some a ∧ a.2.id = ρ.target)
    (hdeclared : ∀ a, (contextSeeing scope m u imports).bare? s x = some a →
      a.2.declaration = none → a.2.id ≠ ρ.target) :
    Option.Rel (ρ.RenamesReference scope) ((contextSeeing scope m u imports).bare? s x)
      ((contextSeeing scope' m u imports).bare? s' (if b then ρ.new else x)) := by
  unfold Context.bare? at hiff hdeclared ⊢
  have hlocal := hs.local?_eq hx hb fun l hl => by rw [hiff, hl]; simp
  cases hl : s.local? x with
  | some l =>
    rw [hl] at hlocal
    generalize s'.local? (if b then ρ.new else x) = o' at hlocal
    cases hlocal with
    | some hlocal => exact .some ⟨.ofValue hlocal.type, hlocal.symbol⟩
  | none =>
    rw [hl] at hlocal hiff hdeclared
    generalize s'.local? (if b then ρ.new else x) = o' at hlocal
    cases hlocal
    have hget := (hscope m).get?_eq hx hb fun item hitem => by
      rw [hiff]
      dsimp only [contextSeeing, seen]
      rw [hitem]
      simp [Context.itemMeaning]
    dsimp only [contextSeeing, seen] at hiff hdeclared ⊢
    cases hitem : (scope m).get? x with
    | some item =>
      rw [hitem] at hget
      generalize (scope' m).get? (if b then ρ.new else x) = o' at hget
      cases hget with
      | some hrel => exact .some (itemMeaning_renames hscope hrel)
    | none =>
      rw [hitem] at hget hiff hdeclared
      generalize (scope' m).get? (if b then ρ.new else x) = o' at hget
      cases hget
      dsimp only at hiff hdeclared ⊢
      cases hbuiltin : builtin? x with
      | some symbol =>
        rw [hbuiltin] at hiff hdeclared
        have hne := hdeclared _ rfl (builtin?_declaration hbuiltin)
        have hfalse : b = false := by
          rw [Bool.eq_false_iff]
          intro h
          obtain ⟨a, ha, hid⟩ := hiff.1 h
          obtain rfl := Option.some.inj ha
          exact hne hid
        rw [hfalse, if_neg Bool.false_ne_true, hbuiltin]
        refine .some ⟨.none, .refl ?_ hne⟩
        rw [(builtin?_at hbuiltin).1.name]
        exact hx
      | none =>
        rw [hbuiltin] at hiff
        have hfalse : b = false := by
          rw [Bool.eq_false_iff]
          intro h
          obtain ⟨a, ha, -⟩ := hiff.1 h
          cases ha
        rw [hfalse, if_neg Bool.false_ne_true, hbuiltin]
        exact .none

/-- A name with a qualifier means the declaration that it meant. -/
theorem qualified?_renames {q : String}
    (hiff : b ↔ ∃ a, (contextSeeing scope m u imports).qualified? q x = some a ∧
      a.2.id = ρ.target) :
    Option.Rel (ρ.RenamesReference scope) ((contextSeeing scope m u imports).qualified? q x)
      ((contextSeeing scope' m u imports).qualified? q (if b then ρ.new else x)) := by
  unfold Context.qualified? at hiff ⊢
  dsimp only [contextSeeing] at hiff ⊢
  rw [imported?_seen fun k => (hscope k).module] at hiff ⊢
  rw [imported?_seen fun k => (hscope k).module']
  cases hfind : imports.find? fun k => k.name == q with
  | none => exact .none
  | some k =>
    rw [hfind] at hiff
    simp only [Option.map_some, Option.bind_some] at hiff ⊢
    have hget := (hscope k).get?_eq hx hb fun item hitem => by
      rw [hiff, hitem]
      simp [Context.itemMeaning]
    generalize (scope k).get? x = o at hget
    generalize (scope' k).get? (if b then ρ.new else x) = o' at hget
    cases hget with
    | none => exact .none
    | some hrel => exact .some (itemMeaning_renames (m := m) (u := u) hscope hrel)

/-- The name of a field means the field that it meant, as far as the type of the value is known. -/
theorem referField_renames {type type' : Option RecordType} (htype : ρ.KeepsType scope type type')
    (hiff : b ↔ ∃ a, (contextSeeing scope m u imports).ofField? type x = some a ∧
      a.2.id = ρ.target) {n : Node} (hid : n'.id = n.id) (ht : t'.id = t.id)
    (hs : ρ.RenamesState scope s s') : ρ.RenamesWalk scope
      (s.refer n t ((contextSeeing scope m u imports).ofField? type x))
      (s'.refer n' t' ((contextSeeing scope' m u imports).ofField? type'
        (if b then ρ.new else x))) := by
  -- A field that is not found any more is not the symbol.
  have hlost : ∀ r, type = some r → ρ.IsOfItem → ρ.RenamesWalk scope
      (s.refer n t ((contextSeeing scope m u imports).ofField? (some r) x)) (.none, s') := by
    intro r hr hitem
    rw [Context.ofField?, Option.bind_some]
    cases hf : (contextSeeing scope m u imports).visible.field? r x with
    | none => exact ⟨.none, hs⟩
    | some f =>
      obtain ⟨hmember, hgood⟩ := field?_members hscope (htype.members r hr) hf
      exact ⟨⟨⟨.lost hitem, hgood⟩, .none, .none⟩, hs.skip fun hid => hmember hid hitem⟩
  rcases htype.keeps.cases with ⟨rfl, rfl⟩ | ⟨r, hr, rfl, hitem⟩ | ⟨r, r', hr, rfl, hrel⟩
  · exact ⟨.none, hs⟩
  · have := hlost r hr hitem
    rwa [← hr] at this
  · subst hr
    have hfield : ρ.Keeps _ ((seen scope m imports).field? r x)
        ((seen scope' m imports).field? r' _) := field?_keeps hscope hrel hx hb fun f hf => by
      rw [hiff, Context.ofField?, Option.bind_some]
      dsimp only [contextSeeing]
      rw [hf]
      simp
    rw [Context.ofField?, Context.ofField?, Option.bind_some, Option.bind_some]
    dsimp only [contextSeeing] at hlost ⊢
    rcases hfield.cases with ⟨hf, hf'⟩ | ⟨f, hf, hf', hitem⟩ | ⟨f, f', hf, hf', hmember⟩
    · rw [hf, hf']
      exact ⟨.none, hs⟩
    · rw [hf']
      exact hlost r rfl hitem
    · rw [hf, hf']
      exact ⟨.ofValue hmember.type, hs.mention hid ht hmember.symbol⟩

end

variable (h : ρ.Marks (contextSeeing scope m u imports) source p)
  (hscope : ∀ k, ρ.RenamesScope scope k (scope k) (scope' k))
  (hv : v ∈ unitVisits (contextSeeing scope m u imports) source)

include h hv

/-! ## On the way down -/

theorem fresh_of_childToken (ht : t ∈ v.node.childTokens) (hkind : t.kind = .identifier) :
    t.text ≠ ρ.new :=
  h.fresh t (mem_of_childToken (mem_preorder_of_visit hv) ht) hkind

theorem old_of_childToken (ht : t ∈ v.node.childTokens) (hp : p t) : t.text = ρ.old :=
  (h.name t (mem_of_childToken (mem_preorder_of_visit hv) ht) hp).2

section
variable (halike : v.node.Alike (Token.Renamed p ρ.new) n')

include halike

theorem bindImport_renames (hkind : v.node.kind = .importDeclaration)
    (hs : ρ.RenamesState scope s s') :
    ρ.RenamesState scope (Context.bindImport v.node s) (Context.bindImport n' s') := by
  unfold Context.bindImport
  rcases rel_cases (identifier_renamed halike 1) with ⟨ht, ht'⟩ | ⟨t, t', ht, ht', hrenamed⟩
  · rw [ht, ht']
    exact hs
  · obtain ⟨hchild, hidentifier⟩ := identifierAt?_eq_some ht
    obtain ⟨hp, hne⟩ := h.import_unmarked hv hkind ht
    rw [ht, ht']
    dsimp only
    rw [text_eq hrenamed hp]
    exact hs.mention halike.id_eq hrenamed.id
      (.refl (fresh_of_childToken h hv hchild hidentifier) hne)

include hscope

/-- The mentions of a declaration are those that it had. -/
theorem declareItem_renames (hs : ρ.RenamesState scope s s') :
    ρ.RenamesState scope ((contextSeeing scope m u imports).declareItem v.node s)
      ((contextSeeing scope' m u imports).declareItem n' s') := by
  have hitem := h.itemOf?_renames (fun k => (hscope k).module) (mem_preorder_of_visit hv) halike
  rw [declareItem_eq, declareItem_eq]
  refine hs.withMentions (.of_forall₂ ?_)
  generalize itemOf? m u v.node = o at hitem
  generalize itemOf? m u n' = o' at hitem
  cases hitem with
  | none => exact .nil
  | some hitem =>
    refine .cons ⟨halike.id_eq, hitem.name, hitem.symbol⟩ (List.rel_reverse ?_)
    exact List.rel_map (fun _ _ hf => ⟨hf.node, hf.name, hf.symbol⟩) hitem.fields

/-- A function that is not the symbol keeps its name. -/
theorem functionName_eq (hkind : v.node.kind = .functionDefinition) (hitem : ¬ ρ.IsOfItem) :
    (n'.identifierAt? 1).map Token.text = (v.node.identifierAt? 1).map Token.text := by
  have hitemOf : ∀ t, v.node.identifierAt? 1 = some t →
      (itemOf? m u v.node).map Item.name = some t.id := by
    intro t ht
    rw [itemOf?, hkind, ht]
    rfl
  have hrel := h.itemOf?_renames (fun k => (hscope k).module) (mem_preorder_of_visit hv) halike
  have hnoted := noted_item (c := contextSeeing scope m u imports) (v := v) (by rw [hkind]; rfl)
  rcases rel_cases (identifier_renamed halike 1) with ⟨ht, ht'⟩ | ⟨t, t', ht, ht', hrenamed⟩
  · rw [ht, ht']
  · obtain ⟨item, hitemEq, hid⟩ := Option.map_eq_some_iff.1 (hitemOf t ht)
    obtain ⟨item', -, hrel⟩ := exists_of_rel hrel hitemEq
    have hmem : (v.node.id, ⟨item.symbol, item.name⟩) ∈
        v.noted (contextSeeing scope m u imports) := by
      rw [hnoted]
      dsimp only [contextSeeing]
      rw [hitemEq]
      exact List.mem_cons_self
    have hp : p t = false := Bool.eq_false_iff.2 fun hp =>
      hitem (hrel.ofItem ((h.noted_iff hv hmem
        (mem_of_childToken (mem_preorder_of_visit hv) (identifierAt?_eq_some ht).1) hid.symm).1 hp))
    rw [ht, ht', Option.map_some, Option.map_some, text_eq hrenamed hp]

/-- What is known when the slots of a node are entered. -/
theorem enter_renames (hs : ρ.RenamesState scope s s') :
    ρ.RenamesState scope ((contextSeeing scope m u imports).enter v.node s)
      ((contextSeeing scope' m u imports).enter n' s') := by
  have hdeclare := declareItem_renames h hscope hv halike hs
  unfold Context.enter
  rw [halike.kind_eq]
  cases hkind : v.node.kind
  case importDeclaration => exact bindImport_renames h hv halike hkind hs
  case functionDefinition =>
    refine RenamesState.openScope ⟨hdeclare.scopes, ?_, (fun hnew => nomatch hnew),
      hdeclare.mentions⟩
    exact fun hitem => functionName_eq h hscope hv halike hkind hitem
  case typeDefinition => exact hdeclare
  case moduleVariableDeclaration => exact hdeclare
  case functionBody => exact hs.openScope
  case blockStatement => exact hs.openScope
  all_goals exact hs

end

/-! ## On the way back: declarations -/

section
variable (hbelow : List.Forall₂ (ρ.RenamesBelow scope p) v.below below')

include hbelow

/-- The fields of a record written in place. -/
theorem writtenFields_renames (hkind : v.node.kind = .recordTypeDescriptor)
    (hbody : v.isBody = false) (hkeyword : v.node.slots.head?.bind Slot.token? = some t)
    (hstart : ρ.moved m u t.span.start = t'.span.start) :
    List.Forall₂ (ρ.RenamesWrittenField scope)
      ((contextSeeing scope m u imports).writtenFields v.below t)
      ((contextSeeing scope' m u imports).writtenFields below' t') := by
  refine List.rel_filterMap (fun field field' hfield => ?_) (forall₂_mem hbelow)
  obtain ⟨hmem, -, hfield⟩ := hfield
  have hchild := mem_below_of_visit hv hmem
  have hnoted := noted_written (c := contextSeeing scope m u imports) hkind hbody hkeyword
  have hnote : ∀ w ∈ (contextSeeing scope m u imports).writtenFields v.below t,
      fieldNote w ∈ v.noted (contextSeeing scope m u imports) := by
    intro w hw
    rw [hnoted]
    exact List.mem_cons_of_mem _ (List.mem_reverse.2 (List.mem_map_of_mem hw))
  unfold Context.writtenField?
  rcases rel_cases (identifier_renamed hfield.alike 0) with ⟨hk, hk'⟩ | ⟨k, k', hk, hk', hrenamed⟩
  · rw [hk, hk']
    exact .none
  · obtain ⟨htoken, hidentifier⟩ := identifierAt?_eq_some hk
    have hsource := mem_of_childToken (Node.preorder_trans (mem_preorder_of_visit hv)
      (Node.mem_preorder_child hchild)) htoken
    have hpath : SymbolId.ofPath (.field (.record m u t.span.start) k.text) = ρ.target →
        SymbolPath.field (.record m u t.span.start) k.text = ρ.path :=
      h.paths _ (recordPaths_mem hv hkind hbody (by
        rw [recordPaths, hkind, hkeyword]
        exact List.mem_cons_of_mem _ (field_mem_fieldPaths hchild hk)))
    have hmarked := h.noted_iff hv (hnote _ (List.mem_filterMap.2 ⟨field, hmem, by
      rw [Context.writtenField?, hk]; rfl⟩)) hsource rfl
    rw [hk, hk']
    refine .some ⟨hfield.alike.id_eq, hrenamed.id, ?_, ?_, hfield.meaning.written⟩
    · refine declaredSymbol_renames hmarked hpath rfl hrenamed (h.fresh k hsource hidentifier) ?_
      intro heq hnew
      rw [hnew, newPath, ← heq]
      exact congrArg (fun offset => SymbolPath.field (.record m u offset) ρ.new) hstart.symm
    · rintro hid ⟨m', x, hitem⟩
      have heq := hpath hid
      rw [hitem] at heq
      cases heq

theorem declareRecord_renames (halike : v.node.Alike (ρ.RenamesToken m u p) n')
    (hs : ρ.RenamesState scope v.state s') (hkind : v.node.kind = .recordTypeDescriptor)
    (hbody : v.isBody = false) : ρ.RenamesWalk scope
      ((contextSeeing scope m u imports).declareRecord v.node v.below v.state)
      ((contextSeeing scope' m u imports).declareRecord n' below' s') := by
  rcases rel_cases halike.firstToken with ⟨ht, ht'⟩ | ⟨t, t', ht, ht', hkeyword⟩
  · rw [Context.declareRecord, Context.declareRecord, ht, ht']
    exact ⟨.ofWritten .none, hs⟩
  · have hnoted := noted_written (c := contextSeeing scope m u imports) hkind hbody ht
    have hfields : List.Forall₂ (ρ.RenamesWrittenField scope)
        ((contextSeeing scope m u imports).writtenFields v.below t)
        ((contextSeeing scope' m u imports).writtenFields below' t') :=
      writtenFields_renames h hv hbelow hkind hbody ht hkeyword.start
    have hne := h.id_ne hv (hnoted ▸ List.mem_cons_self) rfl
    have hrenames : ρ.Renames ((contextSeeing scope m u imports).recordSymbol v.node v.below t)
        ((contextSeeing scope' m u imports).recordSymbol n' below' t') :=
      recordSymbol_renames rfl h.keyword hne
    rw [declareRecord_eq _ ht, declareRecord_eq _ ht']
    refine ⟨.ofWritten (.of_rel (.some (renamesType_written.2 ?_))), hs.withMentions
      (.of_forall₂ (.cons ⟨halike.id_eq, hkeyword.renamed.id, hrenames⟩ (List.rel_reverse ?_)))⟩
    · exact List.rel_map (fun w w' hw => ⟨hw.symbol, hw.member,
        keepsType_bind hw.type fun _ _ hwritten => hwritten.record⟩) hfields
    · exact List.rel_map (fun w w' hw => ⟨hw.node, hw.name, hw.symbol⟩) hfields

end

section
variable (halike : v.node.Alike (Token.Renamed p ρ.new) n')
  (hbelow : List.Forall₂ (ρ.RenamesBelow scope p) v.below below')
  (hs : ρ.RenamesState scope v.state s')

include halike hbelow hs

theorem declareParameter_renames (hkind : v.node.kind = .requiredParameter) :
    ρ.RenamesState scope ((contextSeeing scope m u imports).declareParameter v.node v.below v.state)
      ((contextSeeing scope' m u imports).declareParameter n' below' s') := by
  have hleave : (contextSeeing scope m u imports).leave v.node v.isBody v.below v.state =
      (.none, (contextSeeing scope m u imports).declareParameter v.node v.below v.state) := by
    rw [Context.leave, hkind]
  rcases rel_cases (identifier_renamed halike 0) with ⟨ht, ht'⟩ | ⟨t, t', ht, ht', hrenamed⟩
  · rw [Context.declareParameter, Context.declareParameter, ht, ht']
    exact hs
  · obtain ⟨hchild, hidentifier⟩ := identifierAt?_eq_some ht
    rw [declareParameter_eq ht] at hleave ⊢
    rw [declareParameter_eq ht']
    obtain ⟨hmarked, -, -⟩ := h.mentioned hv (by rw [hkind]; rfl) (by rw [hkind]; decide) hchild
      (by rw [hleave]; exact mentions_bind _ _)
    have hsymbol : ρ.Renames ((contextSeeing scope m u imports).parameterSymbol v.node t v.state)
        ((contextSeeing scope' m u imports).parameterSymbol n' t' s') := by
      refine declaredSymbol_renames hmarked (h.paths _ (parameter_mem hv hkind ht)) rfl hrenamed
        (fresh_of_childToken h hv hchild hidentifier) fun heq hnew => ?_
      have hitem : ¬ ρ.IsOfItem := by
        rintro ⟨m', x, hitem⟩
        rw [hitem] at heq
        cases heq
      rw [hnew, newPath, ← heq, State.functionName, hs.function hitem]
      rfl
    exact (hs.mention halike.id_eq hrenamed.id hsymbol).bind
      ⟨hsymbol, writtenRecord_keeps hbelow⟩

theorem declareVariable_renames (hkind : v.node.kind = .variableDeclaration) :
    ρ.RenamesState scope ((contextSeeing scope m u imports).declareVariable v.node v.below v.state)
      ((contextSeeing scope' m u imports).declareVariable n' below' s') := by
  have hleave : (contextSeeing scope m u imports).leave v.node v.isBody v.below v.state =
      (.none, (contextSeeing scope m u imports).declareVariable v.node v.below v.state) := by
    rw [Context.leave, hkind]
  rcases rel_cases (identifier_renamed halike 1) with ⟨ht, ht'⟩ | ⟨t, t', ht, ht', hrenamed⟩
  · rw [Context.declareVariable, Context.declareVariable, ht, ht']
    exact hs
  · obtain ⟨hchild, hidentifier⟩ := identifierAt?_eq_some ht
    have hfresh := fresh_of_childToken h hv hchild hidentifier
    have hpath := h.paths _ (localVar_mem hv hkind ht)
    rw [declareVariable_eq ht] at hleave ⊢
    rw [declareVariable_eq ht', hasType_eq hbelow fun _ _ hm => hm.alike.kind_eq]
    obtain ⟨hmarked, -, -⟩ := h.mentioned hv (by rw [hkind]; rfl) (by rw [hkind]; decide) hchild
      (by rw [hleave]; exact mentions_bind _ _)
    have hmeant : t'.text = ρ.new → .localVar m u v.state.functionName t.text
        (v.state.declared.count t.text + 1) = ρ.path := by
      intro hnew
      refine hpath (hmarked.1 ?_)
      by_contra hp
      exact hfresh ((text_eq hrenamed (Bool.eq_false_iff.2 hp)).symm.trans hnew)
    have hsymbol : ρ.Renames ((contextSeeing scope m u imports).variableSymbol v.node t v.state)
        ((contextSeeing scope' m u imports).variableSymbol n' t' s') := by
      refine declaredSymbol_renames hmarked hpath rfl hrenamed hfresh fun heq hnew => ?_
      have hitem : ¬ ρ.IsOfItem := by
        rintro ⟨m', x, hitem⟩
        rw [hitem] at heq
        cases heq
      -- No variable of the new name has been declared before the symbol.
      have hcount : s'.declared.count ρ.new = 0 := by
        refine List.count_eq_zero_of_not_mem fun hmem => ?_
        obtain ⟨m', u', f, x, n, hsame, hle⟩ := hs.declared hmem
        rw [hsame] at heq
        obtain ⟨-, -, -, rfl, rfl⟩ := SymbolPath.localVar.inj heq
        omega
      rw [hnew, newPath, ← heq, State.functionName, hs.function hitem, hcount]
      rfl
    have hdeclared : ρ.RenamesState scope
        { v.state with declared := t.text :: v.state.declared }
        { s' with declared := t'.text :: s'.declared } := by
      refine ⟨hs.scopes, hs.function, fun hmem => ?_, hs.mentions⟩
      rcases List.mem_cons.1 hmem with hnew | hmem
      · exact ⟨_, _, _, _, _, (hmeant hnew.symm).symm, by simp⟩
      · obtain ⟨m', u', f, x, n, hsame, hle⟩ := hs.declared hmem
        exact ⟨m', u', f, x, n, hsame, hle.trans (List.count_le_count_cons)⟩
    refine (hdeclared.mention halike.id_eq hrenamed.id hsymbol).bind ⟨hsymbol, ?_⟩
    dsimp only
    split
    · exact writtenRecord_keeps hbelow
    · exact lastValue?_keeps hbelow

end

/-! ## On the way back: references -/

section
variable (halike : v.node.Alike (Token.Renamed p ρ.new) n') (hs : ρ.RenamesState scope v.state s')

include hscope halike hs

theorem bindType_renames (hkind : v.node.kind = .typeReference) : ρ.RenamesWalk scope
    ((contextSeeing scope m u imports).bindType v.node v.state)
    ((contextSeeing scope' m u imports).bindType n' s') := by
  have hmodule : ∀ k, (scope k).module = k := fun k => (hscope k).module
  have htype := h.ofNode?_renames hmodule (mem_preorder_of_visit hv) halike
  have hidentifiers := getLast?_rel (halike.identifiers fun _ _ h => h.kind)
  rcases rel_cases htype with ⟨htn, htn'⟩ | ⟨tn, tn', htn, htn', htype⟩
  · rw [Context.bindType, Context.bindType, Context.namedType, Context.namedType, htn, htn']
    exact ⟨.ofWritten .none, hs⟩
  · obtain ⟨name, hname⟩ := exists_last htn
    obtain ⟨name', hname', hrenamed⟩ := exists_of_rel hidentifiers hname
    have hiff := h.marked_type_iff hv hkind htn hname
    have hnoted := noted_type (c := contextSeeing scope m u imports) hkind htn hname
    have htext : tn'.name = if p name then ρ.new else tn.name := by
      rw [(typeName_last htn hname).2.2, (typeName_last htn' hname').2.2, hrenamed.text]
    have hresolved := resolve?_renames hscope htype.qualifier htype.fresh htext hiff
      fun r hr => h.id_ne (a := (v.node.id, ⟨r.1, name.id⟩)) hv
        (by rw [hnoted]; exact Option.mem_toList.2 (Option.map_eq_some_iff.2 ⟨r, hr, rfl⟩))
    rw [Context.bindType, Context.bindType, Context.namedType, Context.namedType, htn, htn',
      hname, hname', Option.bind_some, Option.bind_some]
    dsimp only [contextSeeing, seen] at hresolved ⊢
    generalize Visible.resolve? _ (scope m) tn = o at hresolved
    generalize Visible.resolve? _ (scope' m) tn' = o' at hresolved
    cases hresolved with
    | none => exact ⟨.ofWritten .none, hs⟩
    | some hr =>
      exact ⟨.ofWritten (.of_rel hr.2), hs.mention halike.id_eq hrenamed.id hr.1⟩

theorem bindName_renames (hkind : v.node.kind = .simpleNameReference) : ρ.RenamesWalk scope
    ((contextSeeing scope m u imports).bindName v.node v.state)
    ((contextSeeing scope' m u imports).bindName n' s') := by
  have hleave : (contextSeeing scope m u imports).leave v.node v.isBody v.below v.state =
      (contextSeeing scope m u imports).bindName v.node v.state := by
    rw [Context.leave, hkind]
  rcases rel_cases (identifier_renamed halike 0) with ⟨ht, ht'⟩ | ⟨t, t', ht, ht', hrenamed⟩
  · rw [Context.bindName, Context.bindName, ht, ht']
    exact ⟨.none, hs⟩
  · obtain ⟨hchild, hidentifier⟩ := identifierAt?_eq_some ht
    rw [Context.bindName_eq ht] at hleave ⊢
    rw [Context.bindName_eq ht', hrenamed.text]
    obtain ⟨hiff, hdeclared, -⟩ := h.referred hv (by rw [hkind]; rfl) (by rw [hkind]; decide)
      hchild hleave
    exact refer_renames halike.id_eq hrenamed.id hs (bare?_renames hscope
      (fresh_of_childToken h hv hchild hidentifier) (old_of_childToken h hv hchild) hs hiff
      hdeclared)

theorem bindQualifiedName_renames (hkind : v.node.kind = .qualifiedNameReference) :
    ρ.RenamesWalk scope ((contextSeeing scope m u imports).bindQualifiedName v.node v.state)
      ((contextSeeing scope' m u imports).bindQualifiedName n' s') := by
  have hleave : (contextSeeing scope m u imports).leave v.node v.isBody v.below v.state =
      (contextSeeing scope m u imports).bindQualifiedName v.node v.state := by
    rw [Context.leave, hkind]
  rcases rel_cases (identifier_renamed halike 0) with ⟨hk, hk'⟩ | ⟨k, k', hk, hk', hqualifier⟩
  · rw [Context.bindQualifiedName, Context.bindQualifiedName, hk, hk']
    exact ⟨.none, hs⟩
  rcases rel_cases (identifier_renamed halike 2) with ⟨ht, ht'⟩ | ⟨t, t', ht, ht', hrenamed⟩
  · rw [Context.bindQualifiedName, Context.bindQualifiedName, hk, hk', ht, ht']
    exact ⟨.none, hs⟩
  · obtain ⟨hchild, hidentifier⟩ := identifierAt?_eq_some ht
    rw [Context.bindQualifiedName_eq hk ht] at hleave ⊢
    obtain ⟨hiff, -, hothers⟩ := h.referred hv (by rw [hkind]; rfl) (by rw [hkind]; decide)
      hchild hleave
    have hne := Node.identifierAt?_ne (Marks.nodup_tokens (mem_preorder_of_visit hv)) hk ht
      (by decide)
    rw [Context.bindQualifiedName_eq hk' ht', hrenamed.text,
      text_eq hqualifier (hothers k (identifierAt?_eq_some hk).1 hne)]
    exact refer_renames halike.id_eq hrenamed.id hs (qualified?_renames hscope
      (fresh_of_childToken h hv hchild hidentifier) (old_of_childToken h hv hchild) hiff)

theorem bindField_renames (hkind : v.node.kind = .fieldAccess)
    (hbelow : List.Forall₂ (ρ.RenamesBelow scope p) v.below below') : ρ.RenamesWalk scope
    ((contextSeeing scope m u imports).bindField v.node v.below v.state)
    ((contextSeeing scope' m u imports).bindField n' below' s') := by
  have hleave : (contextSeeing scope m u imports).leave v.node v.isBody v.below v.state =
      (contextSeeing scope m u imports).bindField v.node v.below v.state := by
    rw [Context.leave, hkind]
  rcases rel_cases (identifier_renamed halike 2) with ⟨ht, ht'⟩ | ⟨t, t', ht, ht', hrenamed⟩
  · rw [Context.bindField, Context.bindField, ht, ht']
    exact ⟨.none, hs⟩
  · obtain ⟨hchild, hidentifier⟩ := identifierAt?_eq_some ht
    rw [Context.bindField_eq ht] at hleave ⊢
    rw [Context.bindField_eq ht', hrenamed.text]
    obtain ⟨hiff, -, -⟩ := h.referred hv (by rw [hkind]; rfl) (by rw [hkind]; decide) hchild
      hleave
    exact referField_renames hscope (fresh_of_childToken h hv hchild hidentifier)
      (old_of_childToken h hv hchild) (firstValue?_keeps hbelow) hiff halike.id_eq hrenamed.id hs

end

/-! ## The walk -/

/-- **A node means what it meant,** up to the name of the symbol. -/
theorem leave_renames (hscope : ∀ k, ρ.RenamesScope scope k (scope k) (scope' k))
    (halike : v.node.Alike (ρ.RenamesToken m u p) n')
    (hbelow : List.Forall₂ (ρ.RenamesBelow scope p) v.below below')
    (hs : ρ.RenamesState scope v.state s') : ρ.RenamesWalk scope
      ((contextSeeing scope m u imports).leave v.node v.isBody v.below v.state)
      ((contextSeeing scope' m u imports).leave n' v.isBody below' s') := by
  have hrenamed : v.node.Alike (Token.Renamed p ρ.new) n' :=
    halike.imp fun _ _ _ _ ht => ht.renamed
  unfold Context.leave
  rw [halike.kind_eq]
  cases hkind : v.node.kind
  case functionDefinition =>
    have hclosed := hs.closeScope
    exact ⟨.none, hclosed.scopes, fun _ => rfl, hclosed.declared, hclosed.mentions⟩
  case functionBody => exact ⟨.none, hs.closeScope⟩
  case blockStatement => exact ⟨.none, hs.closeScope⟩
  case recordTypeDescriptor =>
    dsimp only
    cases hbody : v.isBody with
    | true => exact ⟨.none, hs⟩
    | false => exact declareRecord_renames h hv hbelow halike hs hkind hbody
  case recordField => exact ⟨⟨.none, .none, writtenType?_renames hbelow⟩, hs⟩
  case requiredParameter => exact ⟨.none, declareParameter_renames h hv hrenamed hbelow hs hkind⟩
  case variableDeclaration => exact ⟨.none, declareVariable_renames h hv hrenamed hbelow hs hkind⟩
  case typeReference => exact bindType_renames h hscope hv hrenamed hs hkind
  case simpleNameReference => exact bindName_renames h hscope hv hrenamed hs hkind
  case qualifiedNameReference => exact bindQualifiedName_renames h hscope hv hrenamed hs hkind
  case functionCall => exact ⟨.ofValue (result_keeps hbelow), hs⟩
  case fieldAccess => exact bindField_renames h hscope hv hrenamed hs hkind hbelow
  case bracedExpression => exact ⟨.ofValue (firstValue?_keeps hbelow), hs⟩
  all_goals exact ⟨.none, hs⟩

end

section
variable {ρ : Change} {scope scope' : ModuleId → ModuleScope} {m : ModuleId} {u : String}
  {imports : List ModuleId} {source source' : String} {p : Token → Bool}

mutual

/-- The walks of a node go side by side. -/
theorem bindNode_renames (h : ρ.Marks (contextSeeing scope m u imports) source p)
    (hscope : ∀ k, ρ.RenamesScope scope k (scope k) (scope' k)) :
    ∀ (n n' : Node) (isBody : Bool) (s s' : State),
    (∀ v ∈ visits (contextSeeing scope m u imports) isBody n s,
      v ∈ unitVisits (contextSeeing scope m u imports) source) →
    n.Alike (ρ.RenamesToken m u p) n' → ρ.RenamesState scope s s' →
    ρ.RenamesWalk scope (bindNode (contextSeeing scope m u imports) isBody n s)
      (bindNode (contextSeeing scope' m u imports) isBody n' s')
  | ⟨id, kind, full, ends, slots⟩, ⟨id', kind', full', ends', slots'⟩, isBody, s, s', hvisits,
      halike, hs => by
    have hv := hvisits _ List.mem_cons_self
    have henter := enter_renames h hscope hv (halike.imp fun _ _ _ _ ht => ht.renamed) hs
    obtain ⟨hbelow, hstate⟩ := bindSlots_renames h hscope slots slots' (kind == .typeDefinition) _ _
      (fun v hv => hvisits v (List.mem_cons_of_mem _ hv)) halike.2.2 henter
    have hkind : kind' = kind := halike.2.1
    have hleave := leave_renames h hv hscope halike hbelow hstate
    subst hkind
    rw [bindNode_eq, bindNode_eq]
    exact hleave

/-- The walks of several slots go side by side. -/
theorem bindSlots_renames (h : ρ.Marks (contextSeeing scope m u imports) source p)
    (hscope : ∀ k, ρ.RenamesScope scope k (scope k) (scope' k)) :
    ∀ (slots slots' : List Child) (inType : Bool) (s s' : State),
    (∀ v ∈ visitsIn (contextSeeing scope m u imports) inType slots s,
      v ∈ unitVisits (contextSeeing scope m u imports) source) →
    Node.slotsAlike (ρ.RenamesToken m u p) slots slots' → ρ.RenamesState scope s s' →
    List.Forall₂ (ρ.RenamesBelow scope p)
        (bindSlots (contextSeeing scope m u imports) inType slots s).1
        (bindSlots (contextSeeing scope' m u imports) inType slots' s').1 ∧
      ρ.RenamesState scope (bindSlots (contextSeeing scope m u imports) inType slots s).2
        (bindSlots (contextSeeing scope' m u imports) inType slots' s').2
  | [], [], _, _, _, _, _, hs => ⟨.nil, hs⟩
  | .node n :: rest, .node n' :: rest', inType, s, s', hvisits, halike, hs => by
    have hfirst := bindNode_renames h hscope n n' inType s s'
      (fun v hv => hvisits v (List.mem_append_left _ hv)) halike.1 hs
    obtain ⟨hothers, hstate⟩ := bindSlots_renames h hscope rest rest' inType _ _
      (fun v hv => hvisits v (List.mem_append_right _ hv)) halike.2 hfirst.state
    exact ⟨.cons ⟨halike.1.imp fun _ _ _ _ ht => ht.renamed, hfirst.meaning⟩ hothers, hstate⟩
  | .token _ :: rest, .token _ :: rest', inType, s, s', hvisits, halike, hs =>
    bindSlots_renames h hscope rest rest' inType s s' hvisits halike.2 hs
  | .missing :: rest, .missing :: rest', inType, s, s', hvisits, halike, hs =>
    bindSlots_renames h hscope rest rest' inType s s' hvisits halike hs

end

/-- **A unit mentions the symbol where it mentioned it,** and it mentions nothing that it did not
mention. -/
theorem bindTree_renames (h : ρ.Marks (contextSeeing scope m u imports) source p)
    (hscope : ∀ k, ρ.RenamesScope scope k (scope k) (scope' k))
    (halike : (Tree.ofSource source).root.Alike (ρ.RenamesToken m u p)
      (Tree.ofSource source').root) :
    ρ.RenamesMentions (bindTree (contextSeeing scope m u imports) (.ofSource source))
      (bindTree (contextSeeing scope' m u imports) (.ofSource source')) := by
  have hwalk := (bindNode_renames h hscope _ _ false .start .start (fun _ hv => hv) halike
    .start).state.mentions
  refine ⟨fun a' ha' => ?_, fun a ha hid => ?_⟩
  · obtain ⟨a, ha, hrel⟩ := hwalk.made a' (List.mem_reverse.1 ha')
    exact ⟨a, List.mem_reverse.2 ha, hrel⟩
  · obtain ⟨a', ha', hrel⟩ := hwalk.kept a (List.mem_reverse.1 ha) hid
    exact ⟨a', List.mem_reverse.2 ha', hrel⟩

end

end Change

end Xref.Binding
