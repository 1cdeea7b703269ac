import Xref.Proofs.Binding.Compiled

/-!
# What a node notes

The walk comes to every node of a tree once (`node_visits`). What a node notes depends on what is
known there and not on the mentions so far (`mem_mentions_bindNode`), and no two nodes note a mention
of the same node (`noted_unique`). So what a unit has a node mention is what one visit has noted
(`mention?_iff`).
-/

namespace Xref.Binding

/-! ## Visits -/

/-- A node to which the walk has come, with what is known just before it is left. -/
structure Visit where
  node : Node
  isBody : Bool
  below : Meanings
  state : State

mutual

/-- The nodes to which a walk comes, each before what lies below it. -/
def visits (c : Context) (isBody : Bool) : Node → State → List Visit
  | ⟨id, kind, full, ends, slots⟩, s =>
    let n : Node := ⟨id, kind, full, ends, slots⟩
    let below := bindSlots c (kind == .typeDefinition) slots (c.enter n s)
    ⟨n, isBody, below.1, below.2⟩ :: visitsIn c (kind == .typeDefinition) slots (c.enter n s)

/-- The nodes to which a walk of several slots comes. -/
def visitsIn (c : Context) (inType : Bool) : List Child → State → List Visit
  | [], _ => []
  | .node n :: rest, s =>
    visits c inType n s ++ visitsIn c inType rest (bindNode c inType n s).2
  | .token _ :: rest, s => visitsIn c inType rest s
  | .missing :: rest, s => visitsIn c inType rest s

end

/-- The mentions that a visit adds, on the way down and on the way back. -/
def Visit.noted (c : Context) (v : Visit) : List (NodeId × Mention) :=
  (c.leave v.node v.isBody v.below { v.state with mentions := [] }).2.mentions ++
    (c.enter v.node .start).mentions

variable {c : Context} {n m : Node} {s : State} {isBody : Bool} {v w : Visit}

theorem visits_eq (c : Context) (isBody : Bool) (n : Node) (s : State) :
    visits c isBody n s =
      ⟨n, isBody, (bindSlots c (n.kind == .typeDefinition) n.slots (c.enter n s)).1,
        (bindSlots c (n.kind == .typeDefinition) n.slots (c.enter n s)).2⟩ ::
        visitsIn c (n.kind == .typeDefinition) n.slots (c.enter n s) := by
  cases n
  rfl

mutual

/-- **A walk comes to every node once.** -/
theorem node_visits : ∀ (n : Node) (isBody : Bool) (s : State),
    (visits c isBody n s).map Visit.node = n.preorder
  | ⟨_, kind, _, _, slots⟩, _, _ =>
    congrArg (_ :: ·) (node_visitsIn slots (kind == .typeDefinition) _)

theorem node_visitsIn : ∀ (slots : List Child) (inType : Bool) (s : State),
    (visitsIn c inType slots s).map Visit.node = Node.preorderOf slots
  | [], _, _ => rfl
  | .node n :: rest, inType, s => by
    rw [visitsIn, List.map_append, node_visits n, node_visitsIn rest]
    rfl
  | .token _ :: rest, inType, s => node_visitsIn rest inType s
  | .missing :: rest, inType, s => node_visitsIn rest inType s

end

theorem nodes_bindSlots (c : Context) (inType : Bool) (slots : List Child) (s : State) :
    (bindSlots c inType slots s).1.map Prod.fst = slots.filterMap Slot.node? := by
  induction slots generalizing s with
  | nil => rfl
  | cons slot rest ih =>
    cases slot with
    | node n => exact congrArg (n :: ·) (ih _)
    | token t => exact ih s
    | missing => exact ih s

/-- What is known at a visit of the nodes right below it: the walk of the slots has ended with it. -/
def Visit.Follows (c : Context) (v : Visit) : Prop :=
  ∃ s, bindSlots c (v.node.kind == .typeDefinition) v.node.slots s = (v.below, v.state)

/-- The meanings at a visit are those of the nodes right below. -/
theorem Visit.Follows.nodes_below (h : v.Follows c) : v.below.map Prod.fst = v.node.children := by
  obtain ⟨s, hbelow⟩ := h
  have hnodes := nodes_bindSlots c (v.node.kind == .typeDefinition) v.node.slots s
  rw [hbelow] at hnodes
  exact hnodes

mutual

/-- A visit follows the walk of the slots, and says where the node stands. -/
theorem below_visits : ∀ (n : Node) (isBody : Bool) (s : State), ∀ v ∈ visits c isBody n s,
    v.Follows c ∧
      (v.node = n ∧ v.isBody = isBody ∨
        ∃ m ∈ n.preorder, v.node ∈ m.children ∧ v.isBody = (m.kind == .typeDefinition))
  | ⟨id, kind, full, ends, slots⟩, isBody, s, v, hv => by
    rcases List.mem_cons.1 hv with rfl | hv
    · exact ⟨⟨_, rfl⟩, .inl ⟨rfl, rfl⟩⟩
    · obtain ⟨hbelow, hplace⟩ := below_visitsIn slots (kind == .typeDefinition) _ v hv
      refine ⟨hbelow, .inr ?_⟩
      rcases hplace with ⟨hchild, hbody⟩ | ⟨m, hm, hplace⟩
      · exact ⟨_, Node.self_mem_preorder _, hchild, hbody⟩
      · exact ⟨m, List.mem_cons_of_mem _ hm, hplace⟩

theorem below_visitsIn : ∀ (slots : List Child) (inType : Bool) (s : State),
    ∀ v ∈ visitsIn c inType slots s, v.Follows c ∧
      (v.node ∈ slots.filterMap Slot.node? ∧ v.isBody = inType ∨
        ∃ m ∈ Node.preorderOf slots, v.node ∈ m.children ∧ v.isBody = (m.kind == .typeDefinition))
  | [], _, _, v, hv => nomatch hv
  | .node n :: rest, inType, s, v, hv => by
    rcases List.mem_append.1 hv with hv | hv
    · obtain ⟨hbelow, hplace⟩ := below_visits n inType s v hv
      refine ⟨hbelow, ?_⟩
      rcases hplace with ⟨rfl, hbody⟩ | ⟨m, hm, hplace⟩
      · exact .inl ⟨List.mem_cons_self, hbody⟩
      · exact .inr ⟨m, List.mem_append_left _ hm, hplace⟩
    · obtain ⟨hbelow, hplace⟩ := below_visitsIn rest inType _ v hv
      refine ⟨hbelow, ?_⟩
      rcases hplace with ⟨hchild, hbody⟩ | ⟨m, hm, hplace⟩
      · exact .inl ⟨List.mem_cons_of_mem _ hchild, hbody⟩
      · exact .inr ⟨m, List.mem_append_right _ hm, hplace⟩
  | .token _ :: rest, inType, s, v, hv => below_visitsIn rest inType s v hv
  | .missing :: rest, inType, s, v, hv => below_visitsIn rest inType s v hv

end

/-! ## Mentions that a visit adds -/

theorem mentions_bind (s : State) (l : Local) : (s.bind l).mentions = s.mentions := by
  rw [State.bind_eq]

theorem mentions_enter (c : Context) (n : Node) (s : State) :
    (c.enter n s).mentions = (c.enter n .start).mentions ++ s.mentions := by
  have hitem : ∀ s, (c.declareItem n s).mentions = (c.declareItem n .start).mentions ++ s.mentions := by
    intro s
    unfold Context.declareItem
    split
    · rfl
    · simp [State.start]
  unfold Context.enter
  split
  · unfold Context.bindImport
    split <;> rfl
  · exact hitem s
  · exact hitem s
  · exact hitem s
  all_goals rfl

/-- What a field of a record written in place adds. -/
def fieldNote (w : Context.WrittenField) : NodeId × Mention := (w.node.id, ⟨w.symbol, w.name.id⟩)

theorem foldl_mention (ws : List Context.WrittenField) (s : State) :
    ws.foldl (fun s w => s.mention w.node w.name w.symbol) s =
      { s with mentions := (ws.map fieldNote).reverse ++ s.mentions } := by
  induction ws generalizing s with
  | nil => rfl
  | cons w ws ih =>
    rw [List.foldl_cons, ih, List.map_cons, List.reverse_cons, List.append_assoc]
    rfl

/-- The fields of a record written in place. -/
def Context.writtenFields (c : Context) (fields : Meanings) (keyword : Token) :
    List Context.WrittenField :=
  fields.filterMap (c.writtenField? (.record c.module c.unit keyword.span.start))

/-- The symbol of a record written in place, which is declared nowhere. -/
def Context.recordSymbol (c : Context) (n : Node) (fields : Meanings) (keyword : Token) : Symbol :=
  { id := .ofPath (.record c.module c.unit keyword.span.start), name := "record", kind := .type
    owner := c.module, declaration := none
    shape := some (.ofPath (.shape (shapeOf (c.writtenFields fields keyword))))
    detail := some (n.header fun _ => true) }

/-- A record written in place adds mentions of its fields and one of itself. -/
theorem declareRecord_eq (c : Context) {n : Node} {keyword : Token}
    (h : n.slots.head?.bind Slot.token? = some keyword) (fields : Meanings) (s : State) :
    c.declareRecord n fields s =
      (.ofWritten ⟨some (Context.recordOf (c.writtenFields fields keyword)),
          Context.shapeOf (c.writtenFields fields keyword)⟩,
        { s with mentions := (n.id, ⟨c.recordSymbol n fields keyword, keyword.id⟩) ::
          ((c.writtenFields fields keyword).map fieldNote).reverse ++ s.mentions }) := by
  rw [Context.declareRecord, h]
  dsimp only
  rw [foldl_mention]
  rfl

theorem mentions_leave (c : Context) (n : Node) (isBody : Bool) (below : Meanings) (s : State) :
    (c.leave n isBody below s).2.mentions =
      (c.leave n isBody below { s with mentions := [] }).2.mentions ++ s.mentions := by
  unfold Context.leave
  split
  case h_4 =>
    split
    · rfl
    · cases hkeyword : n.slots.head?.bind Slot.token? with
      | none =>
        unfold Context.declareRecord
        rw [hkeyword]
        rfl
      | some keyword =>
        rw [declareRecord_eq c hkeyword, declareRecord_eq c hkeyword]
        simp
  case h_6 =>
    unfold Context.declareParameter
    split
    · rfl
    · simp only [mentions_bind, State.mention, List.singleton_append]
      rfl
  case h_7 =>
    unfold Context.declareVariable
    split
    · rfl
    · simp only [mentions_bind, State.mention, List.singleton_append]
      rfl
  case h_8 =>
    unfold Context.bindType
    dsimp only
    split <;> rfl
  case h_9 =>
    unfold Context.bindName
    split
    · rfl
    · rename_i name _
      have hlocal : State.local? { s with mentions := [] } name.text = s.local? name.text := rfl
      rw [hlocal]
      split
      · rfl
      · split
        · rfl
        · split <;> rfl
  case h_10 =>
    unfold Context.bindQualifiedName
    split
    · split
      · rfl
      · split <;> rfl
    · rfl
  case h_12 =>
    unfold Context.bindField
    split
    · split <;> rfl
    · rfl
  all_goals rfl

mutual

/-- **What a walk adds is what its visits note.** -/
theorem mem_mentions_bindNode {a : NodeId × Mention} : ∀ (n : Node) (isBody : Bool) (s : State),
    a ∈ (bindNode c isBody n s).2.mentions ↔
      a ∈ s.mentions ∨ ∃ v ∈ visits c isBody n s, a ∈ v.noted c
  | ⟨id, kind, full, ends, slots⟩, isBody, s => by
    rw [bindNode_eq, visits_eq, mentions_leave, List.mem_append, List.exists_mem_cons_iff,
      Visit.noted, List.mem_append]
    dsimp only
    rw [mem_mentions_bindSlots slots, mentions_enter, List.mem_append]
    simp only [or_assoc, or_left_comm, or_comm]

theorem mem_mentions_bindSlots {a : NodeId × Mention} :
    ∀ (slots : List Child) (inType : Bool) (s : State),
    a ∈ (bindSlots c inType slots s).2.mentions ↔
      a ∈ s.mentions ∨ ∃ v ∈ visitsIn c inType slots s, a ∈ v.noted c
  | [], _, s => by simp [bindSlots, visitsIn]
  | .node n :: rest, inType, s => by
    rw [bindSlots, mem_mentions_bindSlots rest, mem_mentions_bindNode n, visitsIn]
    simp only [List.mem_append, or_and_right, exists_or, or_assoc]
  | .token _ :: rest, inType, s => mem_mentions_bindSlots rest inType s
  | .missing :: rest, inType, s => mem_mentions_bindSlots rest inType s

end

/-! ## One mention a node -/

theorem enter_of_not_isItem (h : n.kind.isItem = false) : (c.enter n .start).mentions = [] := by
  unfold Context.enter
  split <;> rename_i heq <;> first | rfl | (rw [heq] at h; cases h)

theorem leave_of_isItem (h : n.kind.isItem) (isBody : Bool) (below : Meanings) (s : State) :
    (c.leave n isBody below s).2.mentions = s.mentions := by
  unfold Context.leave
  split <;> rename_i heq <;> first | rfl | (rw [heq] at h; cases h)

theorem noted_of_isItem (h : v.node.kind.isItem) :
    v.noted c = (c.enter v.node .start).mentions := by
  rw [Visit.noted, leave_of_isItem h]
  rfl

theorem noted_of_not_isItem (h : v.node.kind.isItem = false) : v.noted c =
    (c.leave v.node v.isBody v.below { v.state with mentions := [] }).2.mentions := by
  rw [Visit.noted, enter_of_not_isItem h, List.append_nil]

/-- What is added on the way back from a node that is no item is what the visit notes. -/
theorem noted_of_leave (h : v.node.kind.isItem = false) {l : List (NodeId × Mention)}
    (hl : (c.leave v.node v.isBody v.below v.state).2.mentions = l ++ v.state.mentions) :
    v.noted c = l := by
  rw [mentions_leave] at hl
  rw [noted_of_not_isItem h]
  exact List.append_cancel_right hl

/-- The mentions of a declaration: one of itself, and those of the fields of a record. -/
def itemNotes (n : Node) (item : Item) : List (NodeId × Mention) :=
  (n.id, ⟨item.symbol, item.name⟩) ::
    (item.fields.map fun field => (field.node, ⟨field.symbol, field.name⟩)).reverse

theorem declareItem_eq (c : Context) (n : Node) (s : State) : c.declareItem n s =
    { s with mentions := ((itemOf? c.module c.unit n).elim [] (itemNotes n)) ++ s.mentions } := by
  unfold Context.declareItem
  split
  · rename_i h
    rw [h]
    rfl
  · rename_i item h
    rw [h, Option.elim_some, itemNotes]
    simp

theorem noted_import (h : v.node.kind = .importDeclaration) : v.noted c =
    ((v.node.identifierAt? 1).map fun name =>
      (v.node.id, Mention.mk (moduleSymbol name.text) name.id)).toList := by
  rw [noted_of_isItem (by rw [h]; rfl), Context.enter, h]
  dsimp only
  unfold Context.bindImport
  split
  · rename_i hname
    rw [hname]
    rfl
  · rename_i name hname
    rw [hname]
    rfl

theorem noted_item (h : (declaredKind? v.node.kind).isSome) :
    v.noted c = (itemOf? c.module c.unit v.node).elim [] (itemNotes v.node) := by
  have hstart : (c.declareItem v.node .start).mentions =
      (itemOf? c.module c.unit v.node).elim [] (itemNotes v.node) := by
    rw [declareItem_eq]
    exact List.append_nil _
  have hkind : v.node.kind = .functionDefinition ∨ v.node.kind = .typeDefinition ∨
      v.node.kind = .moduleVariableDeclaration := by
    revert h
    cases v.node.kind <;> decide
  rcases hkind with h | h | h
  all_goals
    rw [noted_of_isItem (by rw [h]; rfl), Context.enter, h]
    exact hstart

/-- A record written in place notes itself and its fields. -/
theorem noted_written (hkind : v.node.kind = .recordTypeDescriptor) (hbody : v.isBody = false)
    {keyword : Token} (hkeyword : v.node.slots.head?.bind Slot.token? = some keyword) :
    v.noted c = (v.node.id, ⟨c.recordSymbol v.node v.below keyword, keyword.id⟩) ::
      ((c.writtenFields v.below keyword).map fieldNote).reverse := by
  refine noted_of_leave (by rw [hkind]; rfl) ?_
  rw [Context.leave, hkind]
  dsimp only
  rw [hbody, if_neg Bool.false_ne_true, declareRecord_eq c hkeyword]

/-- The body of a type definition notes nothing, and any other record is written in place. -/
theorem noted_record (h : v.node.kind = .recordTypeDescriptor) : v.noted c = [] ∨
    ∃ keyword : Token, v.isBody = false ∧ v.node.slots.head?.bind Slot.token? = some keyword ∧
      v.noted c = (v.node.id, ⟨c.recordSymbol v.node v.below keyword, keyword.id⟩) ::
        ((c.writtenFields v.below keyword).map fieldNote).reverse := by
  have hitem : v.node.kind.isItem = false := by rw [h]; rfl
  cases hbody : v.isBody with
  | true =>
    refine .inl (noted_of_leave hitem ?_)
    rw [Context.leave, h, hbody]
    rfl
  | false =>
    cases hkeyword : v.node.slots.head?.bind Slot.token? with
    | none =>
      refine .inl (noted_of_leave hitem ?_)
      rw [Context.leave, h, hbody]
      dsimp only
      rw [if_neg Bool.false_ne_true, Context.declareRecord, hkeyword]
      rfl
    | some keyword => exact .inr ⟨keyword, rfl, rfl, noted_written h hbody hkeyword⟩

/-! ## Names that other nodes note -/

/-- Whether a node has added at most one mention, its own, which an identifier with the name of the
symbol names. -/
def AddsName (n : Node) (s s' : State) : Prop :=
  s'.mentions = s.mentions ∨ ∃ t ∈ n.childTokens, t.kind = .identifier ∧
    ∃ symbol : Symbol, t.text = symbol.name ∧ s'.mentions = (n.id, ⟨symbol, t.id⟩) :: s.mentions

/-- A name that is given by a slot is an identifier below the node. -/
theorem addsName_mention {slot : Nat} {t : Token} (ht : n.identifierAt? slot = some t)
    {symbol : Symbol} (hname : t.text = symbol.name) : AddsName n s (s.mention n t symbol) := by
  obtain ⟨hmem, hkind⟩ := identifierAt?_eq_some ht
  exact .inr ⟨t, hmem, hkind, symbol, hname, rfl⟩

theorem addsName_declareParameter (c : Context) (n : Node) (below : Meanings) (s : State) :
    AddsName n s (c.declareParameter n below s) := by
  unfold Context.declareParameter
  split
  · exact .inl rfl
  · rename_i name hname
    rw [AddsName, mentions_bind]
    exact addsName_mention hname rfl

theorem addsName_declareVariable (c : Context) (n : Node) (below : Meanings) (s : State) :
    AddsName n s (c.declareVariable n below s) := by
  unfold Context.declareVariable
  split
  · exact .inl rfl
  · rename_i name hname
    rw [AddsName, mentions_bind]
    obtain ⟨hmem, hkind⟩ := identifierAt?_eq_some hname
    exact .inr ⟨name, hmem, hkind, _, rfl, rfl⟩

theorem addsName_bindType (c : Context) (n : Node) (s : State) :
    AddsName n s (c.bindType n s).2 := by
  unfold Context.bindType
  dsimp only
  split
  · rename_i symbol _ name hresolved hname
    obtain ⟨tn, htn, hresolved⟩ := Option.bind_eq_some_iff.1 hresolved
    obtain ⟨hmem, hkind, htext⟩ := typeName_last htn hname
    have hsymbol := ((visible_anything _).resolve? (scope_anything _) hresolved).2.1
    exact .inr ⟨name, hmem, hkind, symbol, htext.symm.trans hsymbol.symm, rfl⟩
  · exact .inl rfl

theorem addsName_bindName (c : Context) (n : Node) (s : State) :
    AddsName n s (c.bindName n s).2 := by
  unfold Context.bindName
  split
  · exact .inl rfl
  · rename_i name hname
    split
    · rename_i found hfound
      exact addsName_mention hname ((good_anything s).local? hfound).2.1.symm
    · split
      · rename_i item hitem
        exact addsName_mention hname (mem_of_get? hitem).2.symm
      · split
        · rename_i symbol hsymbol
          exact addsName_mention hname (builtin?_at hsymbol).1.name.symm
        · exact .inl rfl

theorem addsName_bindQualifiedName (c : Context) (n : Node) (s : State) :
    AddsName n s (c.bindQualifiedName n s).2 := by
  unfold Context.bindQualifiedName
  split
  · rename_i qualifier name _ hname
    split
    · exact .inl rfl
    · split
      · exact .inl rfl
      · rename_i item hitem
        exact addsName_mention hname (mem_of_get? hitem).2.symm
  · exact .inl rfl

theorem addsName_bindField (c : Context) (n : Node) (below : Meanings) (s : State) :
    AddsName n s (c.bindField n below s).2 := by
  unfold Context.bindField
  split
  · rename_i name type hname _
    split
    · rename_i symbol _ hfield
      have hsymbol := ((visible_anything _).field? (all_anything type) hfield).2.1
      exact addsName_mention hname hsymbol.symm
    · exact .inl rfl
  · exact .inl rfl

theorem addsName_leave (hrecord : n.kind ≠ .recordTypeDescriptor) (below : Meanings) :
    AddsName n s (c.leave n isBody below s).2 := by
  unfold Context.leave
  split
  case h_4 hkind => exact absurd hkind hrecord
  case h_6 => exact addsName_declareParameter c n below s
  case h_7 => exact addsName_declareVariable c n below s
  case h_8 => exact addsName_bindType c n s
  case h_9 => exact addsName_bindName c n s
  case h_10 => exact addsName_bindQualifiedName c n s
  case h_12 => exact addsName_bindField c n below s
  all_goals exact .inl rfl

/-- Any other node notes at most one mention, its own, which an identifier with the name of the
symbol names; and the field of a record notes none. -/
theorem noted_other (hitem : v.node.kind.isItem = false)
    (hrecord : v.node.kind ≠ .recordTypeDescriptor) : ∃ o : Option Mention,
      v.noted c = (o.map fun a => (v.node.id, a)).toList ∧
        (∀ a ∈ o, ∃ t ∈ v.node.childTokens, t.kind = .identifier ∧ t.text = a.symbol.name ∧
          t.id = a.name) ∧
        (v.node.kind = .recordField → o = none) := by
  have hadds : AddsName v.node v.state (c.leave v.node v.isBody v.below v.state).2 :=
    addsName_leave hrecord v.below
  rcases hadds with hkept | ⟨t, ht, hkind, symbol, hname, hadded⟩
  · exact ⟨none, noted_of_leave hitem hkept, (fun _ h => nomatch h), fun _ => rfl⟩
  · refine ⟨some ⟨symbol, t.id⟩, noted_of_leave hitem hadded, ?_, fun hfield => ?_⟩
    · intro a ha
      cases ha
      exact ⟨t, ht, hkind, hname, rfl⟩
    · rw [Context.leave, hfield] at hadded
      exact absurd hadded.symm (List.cons_ne_self _ _)

/-! ## The visits of a unit -/

section
variable {source : String} {a b : NodeId × Mention}

/-- The nodes to which the walk of a unit comes. -/
def unitVisits (c : Context) (source : String) : List Visit :=
  visits c false (Tree.ofSource source).root .start

theorem mem_bindTree :
    a ∈ bindTree c (.ofSource source) ↔ ∃ v ∈ unitVisits c source, a ∈ v.noted c := by
  rw [bindTree, List.mem_reverse, mem_mentions_bindNode]
  simp [State.start, unitVisits]

theorem mem_preorder_of_visit (hv : v ∈ unitVisits c source) :
    v.node ∈ (Tree.ofSource source).root.preorder := by
  rw [← node_visits (c := c) _ false .start]
  exact List.mem_map_of_mem hv

theorem exists_visit (hn : n ∈ (Tree.ofSource source).root.preorder) :
    ∃ v ∈ unitVisits c source, v.node = n := by
  rw [← node_visits (c := c) _ false .start] at hn
  exact List.mem_map.1 hn

theorem visit_unique (hv : v ∈ unitVisits c source) (hw : w ∈ unitVisits c source)
    (h : v.node.id = w.node.id) : v = w := by
  have hids : ((Tree.ofSource source).root.preorder.map Node.id).Nodup := Tree.nodup_ids
  rw [← node_visits (c := c) _ false .start, List.map_map] at hids
  exact List.inj_on_of_nodup_map hids hv hw h

theorem node_unique (hn : n ∈ (Tree.ofSource source).root.preorder)
    (hm : m ∈ (Tree.ofSource source).root.preorder) (h : n.id = m.id) : n = m :=
  List.inj_on_of_nodup_map Tree.nodup_ids hn hm h

/-- Whether a visit notes the fields of a record: of one written in place that it comes to, or of
the body of a type definition. -/
def Visit.NotesFieldsOf (v : Visit) (r : Node) : Prop :=
  r.kind = .recordTypeDescriptor ∧
    (r = v.node ∧ v.isBody = false ∨ v.node.kind = .typeDefinition ∧ r ∈ v.node.children)

theorem Visit.NotesFieldsOf.mem {r : Node} (h : v.NotesFieldsOf r)
    (hv : v ∈ unitVisits c source) : r ∈ (Tree.ofSource source).root.preorder := by
  rcases h.2 with ⟨rfl, -⟩ | ⟨-, hr⟩
  · exact mem_preorder_of_visit hv
  · exact Node.preorder_trans (mem_preorder_of_visit hv) (Node.mem_preorder_child hr)

theorem kind_field {r f : Node} (hr : r ∈ (Tree.ofSource source).root.preorder)
    (hkind : r.kind = .recordTypeDescriptor) (hf : f ∈ r.children) : f.kind = .recordField := by
  have hallows := Tree.allows_ofSource hr hf
  rw [hkind] at hallows
  simpa [NodeKind.allows] using hallows

/-- The mentions that a visit notes are one of the node itself, and those of fields of a record. -/
structure Visit.Splits (c : Context) (v : Visit) : Prop where
  own : ∀ a ∈ v.noted c, a.1 = v.node.id ∧ v.node.kind ≠ .recordField ∨
    ∃ r, v.NotesFieldsOf r ∧ ∃ f ∈ r.children, a.1 = f.id
  unique : ∀ a ∈ v.noted c, ∀ b ∈ v.noted c, a.1 = b.1 → a = b

theorem splits_of_none (h : v.noted c = []) : v.Splits c := by
  constructor <;> rw [h]
  · exact fun _ h => nomatch h
  · exact fun _ h => nomatch h

/-- Fields are different nodes, and what is noted of a field depends on its node only. -/
theorem splits_of_fields {r : Node} {own : Mention} {rest : List (NodeId × Mention)}
    {note : Node → Option (NodeId × Mention)} (hv : v ∈ unitVisits c source)
    (hkind : v.node.kind ≠ .recordField) (hr : v.NotesFieldsOf r)
    (hnoted : v.noted c = (v.node.id, own) :: rest)
    (hnote : ∀ f a, note f = some a → a.1 = f.id)
    (hrest : ∀ a ∈ rest, ∃ f ∈ r.children, note f = some a) : v.Splits c := by
  have hroot := hr.mem hv
  have hmem : ∀ f ∈ r.children, f ∈ (Tree.ofSource source).root.preorder := fun f hf =>
    Node.preorder_trans hroot (Node.mem_preorder_child hf)
  have hne : ∀ a ∈ rest, a.1 ≠ v.node.id := by
    intro a ha heq
    obtain ⟨f, hf, ha⟩ := hrest a ha
    rw [hnote f a ha] at heq
    rw [← node_unique (hmem f hf) (mem_preorder_of_visit hv) heq] at hkind
    exact hkind (kind_field hroot hr.1 hf)
  constructor
  · rw [hnoted, List.forall_mem_cons]
    refine ⟨.inl ⟨rfl, hkind⟩, fun a ha => .inr ⟨r, hr, ?_⟩⟩
    obtain ⟨f, hf, ha⟩ := hrest a ha
    exact ⟨f, hf, hnote f a ha⟩
  · rw [hnoted]
    intro a ha b hb heq
    rcases List.mem_cons.1 ha with rfl | ha <;> rcases List.mem_cons.1 hb with rfl | hb
    · rfl
    · exact absurd heq.symm (hne b hb)
    · exact absurd heq (hne a ha)
    · obtain ⟨f, hf, hfa⟩ := hrest a ha
      obtain ⟨f', hf', hfb⟩ := hrest b hb
      rw [hnote f a hfa, hnote f' b hfb] at heq
      obtain rfl := node_unique (hmem f hf) (hmem f' hf') heq
      exact Option.some.inj (hfa.symm.trans hfb)

theorem splits_of_option {o : Option Mention} (hkind : v.node.kind = .recordField → o = none)
    (h : v.noted c = (o.map fun a => (v.node.id, a)).toList) : v.Splits c := by
  cases o with
  | none => exact splits_of_none h
  | some own =>
    have hkind : v.node.kind ≠ .recordField := fun h => nomatch hkind h
    constructor <;> rw [h, Option.map_some, Option.toList_some]
    · intro a ha
      rw [List.mem_singleton.1 ha]
      exact .inl ⟨rfl, hkind⟩
    · intro a ha b hb _
      rw [List.mem_singleton.1 ha, List.mem_singleton.1 hb]

theorem splits_item (hv : v ∈ unitVisits c source) (h : (declaredKind? v.node.kind).isSome) :
    v.Splits c := by
  have hnoted := noted_item (c := c) h
  cases hitem : itemOf? c.module c.unit v.node with
  | none =>
    rw [hitem] at hnoted
    exact splits_of_none hnoted
  | some item =>
    rw [hitem, Option.elim_some, itemNotes] at hnoted
    have hkind : v.node.kind ≠ .recordField := by
      intro heq
      rw [heq] at h
      cases h
    obtain ⟨kind, name, -, -, -, -, hfields, -⟩ := itemOf?_eq_some hitem
    by_cases hempty : item.fields = []
    · rw [hempty] at hnoted
      exact splits_of_option (o := some _) (fun h => absurd h hkind) hnoted
    · obtain ⟨g, hg⟩ := List.exists_mem_of_ne_nil _ hempty
      rw [hfields] at hg
      obtain ⟨htype, body, hbody, hrecord, -⟩ := mem_itemFields hg
      have hchild := List.mem_of_mem_head? hbody
      let note (f : Node) : Option (NodeId × Mention) :=
        (fieldOf? c.module c.unit (.item c.module name.text) f).map fun g =>
          (g.node, ⟨g.symbol, g.name⟩)
      have hfieldsOf : v.NotesFieldsOf body := ⟨hrecord, .inr ⟨htype, hchild⟩⟩
      refine splits_of_fields hv hkind hfieldsOf hnoted (?_ : ∀ f a, note f = some a → _) ?_
      · intro f a ha
        obtain ⟨g, hg, rfl⟩ := Option.map_eq_some_iff.1 ha
        obtain ⟨-, -, hnode, -⟩ := fieldOf?_eq_some hg
        exact hnode
      · intro a ha
        obtain ⟨g, hg, rfl⟩ := List.mem_map.1 (List.mem_reverse.1 ha)
        rw [hfields] at hg
        obtain ⟨-, body', hbody', -, f, hf, hfield⟩ := mem_itemFields hg
        obtain rfl := Option.some.inj (hbody.symm.trans hbody')
        exact ⟨f, hf, by simp only [note, hfield]; rfl⟩

theorem mem_below_of_visit (hv : v ∈ unitVisits c source) {below : Node × Meaning}
    (h : below ∈ v.below) : below.1 ∈ v.node.children := by
  rw [← (below_visits _ _ _ v hv).1.nodes_below]
  exact List.mem_map_of_mem h

theorem splits_record (hv : v ∈ unitVisits c source) (h : v.node.kind = .recordTypeDescriptor) :
    v.Splits c := by
  rcases noted_record (c := c) h with hnoted | ⟨keyword, hbody, -, hnoted⟩
  · exact splits_of_none hnoted
  · let note (f : Node) : Option (NodeId × Mention) :=
      (c.writtenField? (.record c.module c.unit keyword.span.start) (f, .none)).map fieldNote
    have hfieldsOf : v.NotesFieldsOf v.node := ⟨h, .inl ⟨rfl, hbody⟩⟩
    refine splits_of_fields hv (by rw [h]; decide) hfieldsOf hnoted
      (?_ : ∀ f a, note f = some a → _) ?_
    · intro f a ha
      obtain ⟨w, hw, rfl⟩ := Option.map_eq_some_iff.1 ha
      obtain ⟨name, -, hnode, -⟩ := writtenField?_eq_some hw
      exact congrArg Node.id hnode
    · intro a ha
      obtain ⟨w, hw, rfl⟩ := List.mem_map.1 (List.mem_reverse.1 ha)
      obtain ⟨⟨f, meaning⟩, hf, hw⟩ := List.mem_filterMap.1 hw
      refine ⟨f, mem_below_of_visit hv hf, ?_⟩
      obtain ⟨name, hname, rfl⟩ := Option.map_eq_some_iff.1 hw
      show ((f.identifierAt? 0).map _).map fieldNote = _
      rw [hname]
      rfl

theorem splits_visit (hv : v ∈ unitVisits c source) : v.Splits c := by
  by_cases hitem : v.node.kind.isItem
  · by_cases himport : v.node.kind = .importDeclaration
    · have hnoted := noted_import (c := c) himport
      refine splits_of_option (o := (v.node.identifierAt? 1).map fun name =>
        ⟨moduleSymbol name.text, name.id⟩) (fun h => ?_) ?_
      · rw [himport] at h
        cases h
      · rw [hnoted, Option.map_map]
        rfl
    · refine splits_item hv ?_
      revert hitem himport
      cases v.node.kind <;> decide
  · rw [Bool.not_eq_true] at hitem
    by_cases hrecord : v.node.kind = .recordTypeDescriptor
    · exact splits_record hv hrecord
    · obtain ⟨o, hnoted, -, hkind⟩ := noted_other (c := c) hitem hrecord
      exact splits_of_option hkind hnoted

/-- The fields of a record are noted by one visit. -/
theorem Visit.NotesFieldsOf.unique {r : Node} (hv : v ∈ unitVisits c source)
    (hw : w ∈ unitVisits c source) (hvr : v.NotesFieldsOf r) (hwr : w.NotesFieldsOf r) : v = w := by
  -- What is written in place is no body of a type definition.
  have happart : ∀ {v w : Visit}, v ∈ unitVisits c source → w ∈ unitVisits c source →
      v.node.kind = .recordTypeDescriptor → v.isBody = false → w.node.kind = .typeDefinition →
        v.node ∉ w.node.children := by
    intro v w hv hw hkind hbody htype hchild
    rcases (below_visits _ _ _ v hv).2 with ⟨hroot, -⟩ | ⟨m, hm, hmem, hm'⟩
    · rw [hroot, Tree.kind_root] at hkind
      cases hkind
    · obtain rfl := Node.above_unique Tree.nodup_ids hm (mem_preorder_of_visit hw) hmem hchild
      rw [hbody, htype] at hm'
      cases hm'
  obtain ⟨hrecord, hvr⟩ := hvr
  rcases hvr with ⟨rfl, hbody⟩ | ⟨htype, hchild⟩ <;>
    rcases hwr.2 with ⟨heq, hbody'⟩ | ⟨htype', hchild'⟩
  · exact visit_unique hv hw (congrArg Node.id heq)
  · exact absurd hchild' (happart hv hw hrecord hbody htype')
  · rw [heq] at hrecord hchild
    exact absurd hchild (happart hw hv hrecord hbody' htype)
  · exact visit_unique hv hw (congrArg Node.id (Node.above_unique Tree.nodup_ids
      (mem_preorder_of_visit hv) (mem_preorder_of_visit hw) hchild hchild'))

/-- **A node has one mention:** no two visits note a mention of the same node. -/
theorem noted_unique (hv : v ∈ unitVisits c source) (hw : w ∈ unitVisits c source)
    (ha : a ∈ v.noted c) (hb : b ∈ w.noted c) (h : a.1 = b.1) : v = w ∧ a = b := by
  have hfield : ∀ {v w : Visit} {r f : Node}, v ∈ unitVisits c source → w ∈ unitVisits c source →
      v.node.kind ≠ .recordField → w.NotesFieldsOf r → f ∈ r.children → v.node.id ≠ f.id := by
    intro v w r f hv hw hkind hr hf heq
    have hroot := hr.mem hw
    have hmem := Node.preorder_trans hroot (Node.mem_preorder_child hf)
    rw [node_unique (mem_preorder_of_visit hv) hmem heq] at hkind
    exact hkind (kind_field hroot hr.1 hf)
  have hsame : v = w := by
    rcases (splits_visit hv).own a ha with ⟨hid, hkind⟩ | ⟨r, hr, f, hf, hid⟩ <;>
      rcases (splits_visit hw).own b hb with ⟨hid', hkind'⟩ | ⟨r', hr', f', hf', hid'⟩
    · exact visit_unique hv hw (hid.symm.trans (h.trans hid'))
    · exact absurd (hid.symm.trans (h.trans hid')) (hfield hv hw hkind hr' hf')
    · exact absurd (hid'.symm.trans (h.symm.trans hid)) (hfield hw hv hkind' hr hf)
    · have hmem := Node.preorder_trans (hr.mem hv) (Node.mem_preorder_child hf)
      have hmem' := Node.preorder_trans (hr'.mem hw) (Node.mem_preorder_child hf')
      obtain rfl := node_unique hmem hmem' (hid.symm.trans (h.trans hid'))
      obtain rfl := Node.above_unique Tree.nodup_ids (hr.mem hv) (hr'.mem hw) hf hf'
      exact hr.unique hv hw hr'
  subst hsame
  exact ⟨rfl, (splits_visit hv).unique a ha b hb h⟩

theorem bindTree_unique (ha : a ∈ bindTree c (.ofSource source))
    (hb : b ∈ bindTree c (.ofSource source)) (h : a.1 = b.1) : a = b := by
  obtain ⟨v, hv, ha⟩ := mem_bindTree.1 ha
  obtain ⟨w, hw, hb⟩ := mem_bindTree.1 hb
  exact (noted_unique hv hw ha hb h).2

/-- **What a unit has a node mention** is what the walk has noted for it. -/
theorem mention?_iff {m : ModuleId} {name : String} {node : NodeId} {mention : Mention} :
    (BoundUnit.ofList m name (.ofSource source) (bindTree c (.ofSource source))).mention? node =
      some mention ↔ (node, mention) ∈ bindTree c (.ofSource source) := by
  refine ⟨BoundUnit.mem_of_mention?, fun h => ?_⟩
  rw [BoundUnit.mention?_ofList]
  have hsome : ((bindTree c (.ofSource source)).reverse.find? fun a => a.1 == node).isSome := by
    rw [List.find?_isSome]
    exact ⟨_, List.mem_reverse.2 h, beq_self_eq_true node⟩
  obtain ⟨found, hfound⟩ := Option.isSome_iff_exists.1 hsome
  have hmem := List.mem_reverse.1 (List.mem_of_find?_eq_some hfound)
  have hnode : found.1 = node := by simpa using List.find?_some hfound
  rw [hfound, bindTree_unique hmem h hnode]
  rfl

/-- What a unit is bound to that is walked in a context. -/
def Context.bound (c : Context) (source : String) : BoundUnit :=
  .ofList c.module c.unit (.ofSource source) (bindTree c (.ofSource source))

/-- A mention of a node other than the field of a record has been noted by the visit of the node. -/
theorem noted_of_mem (hv : v ∈ unitVisits c source) (hkind : v.node.kind ≠ .recordField)
    (ha : a ∈ bindTree c (.ofSource source)) (h : a.1 = v.node.id) : a ∈ v.noted c := by
  obtain ⟨w, hw, ha⟩ := mem_bindTree.1 ha
  rcases (splits_visit hw).own a ha with ⟨hid, -⟩ | ⟨r, hr, f, hf, hid⟩
  · obtain rfl := visit_unique hv hw (h.symm.trans hid)
    exact ha
  · have hmem := Node.preorder_trans (hr.mem hw) (Node.mem_preorder_child hf)
    rw [node_unique (mem_preorder_of_visit hv) hmem (h.symm.trans hid)] at hkind
    exact absurd (kind_field (hr.mem hw) hr.1 hf) hkind

/-- A record that mentions anything is written in place and mentions itself. -/
theorem record_of_mem (hv : v ∈ unitVisits c source) (hkind : v.node.kind = .recordTypeDescriptor)
    (ha : a ∈ bindTree c (.ofSource source)) (h : a.1 = v.node.id) : v.isBody = false ∧
      ∃ keyword, v.node.slots.head?.bind Slot.token? = some keyword ∧
        a = (v.node.id, ⟨c.recordSymbol v.node v.below keyword, keyword.id⟩) := by
  have hnoted := noted_of_mem hv (by rw [hkind]; decide) ha h
  rcases noted_record (c := c) hkind with hnone | ⟨keyword, hbody, hkeyword, heq⟩
  · rw [hnone] at hnoted
    cases hnoted
  · have hself : (v.node.id, ⟨c.recordSymbol v.node v.below keyword, keyword.id⟩) ∈ v.noted c := by
      rw [heq]
      exact List.mem_cons_self
    exact ⟨hbody, keyword, hkeyword, (splits_visit hv).unique _ hnoted _ hself h⟩

/-- What a node other than the field of a record mentions is what its visit notes. -/
theorem mention?_eq_of_noted (hv : v ∈ unitVisits c source) (hkind : v.node.kind ≠ .recordField)
    {o : Option Mention} (hnoted : v.noted c = (o.map fun a => (v.node.id, a)).toList) :
    (c.bound source).mention? v.node.id = o := by
  refine Option.ext fun a => ?_
  rw [Context.bound, mention?_iff]
  constructor
  · intro ha
    have hmem := noted_of_mem hv hkind ha rfl
    rw [hnoted] at hmem
    simpa using hmem
  · intro ha
    refine mem_bindTree.2 ⟨v, hv, ?_⟩
    rw [hnoted]
    simpa using ha

end

end Xref.Binding
