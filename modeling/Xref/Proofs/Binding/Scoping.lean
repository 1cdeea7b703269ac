import Xref.Proofs.Binding.Visits
import Xref.Proofs.Syntax.Likeness
import Xref.Proofs.Syntax.Scopes

/-!
# Variables in scope

The blocks that the binder keeps open are the scopes above the node that it has come to, and the
variables in each are what is declared there before the node (`scopes_visit`). So a bare name that
means a variable means the one that is declared last in the innermost scope (`local?_rel`).
-/

namespace Xref

open Node (exposedIn passed frames Frame Step)

/-! ## Trees of source texts -/

/-- The tree of a source text is regular. -/
theorem Tree.regular_ofSource (source : String) : (ofSource source).root.Regular where
  tiled := tiled_ofSource.nodes
  allows _ hm _ hc := allows_ofSource hm hc
  ids := nodup_ids
  nonempty m hm i t ht := by
    obtain ⟨hchild, hkind⟩ := Binding.identifierAt?_eq_some ht
    have hmem := Node.childTokens_subset hm hchild
    rw [tokens_root] at hmem
    have hwidth := span_start_lt hmem (by rw [hkind]; decide)
    obtain ⟨hstart, hstop, -⟩ := span_in_fullSpan t
    have hnode : t ∈ m.tokens := Node.childTokens_subset m.self_mem_preorder hchild
    have htiled : ∀ k ∈ m.preorder, k.Tiled := fun k hk =>
      tiled_ofSource.nodes k (Node.preorder_trans hm hk)
    have hbounds := (m.tiles_tokens htiled).tokens_bounds.2 t hnode
    omega

namespace Binding

variable {c : Context} {n d r : Node} {s : State} {isBody : Bool} {below : Meanings} {v : Visit}
  {notes : List (NodeId × Mention)}

/-! ## Open blocks -/

/-- Adds variables to the innermost of several blocks. -/
def addLocals (ls : List Local) : List (List Local) → List (List Local)
  | [] => []
  | block :: outer => (ls ++ block) :: outer

@[simp] theorem addLocals_nil (blocks : List (List Local)) : addLocals [] blocks = blocks := by
  cases blocks <;> rfl

theorem addLocals_append (ls ls' : List Local) (blocks : List (List Local)) :
    addLocals (ls ++ ls') blocks = addLocals ls (addLocals ls' blocks) := by
  cases blocks with
  | nil => rfl
  | cons block outer => exact congrArg (· :: outer) (List.append_assoc _ _ _)

theorem scopes_bind (s : State) (l : Local) : (s.bind l).scopes = addLocals [l] s.scopes := by
  unfold State.bind
  split <;> rename_i h
  · rw [h]; rfl
  · rw [h]; rfl

theorem scopes_enter (c : Context) (n : Node) (s : State) :
    (c.enter n s).scopes = if n.kind.opensScope then [] :: s.scopes else s.scopes := by
  unfold Context.enter
  split
  case h_1 hkind =>
    rw [hkind, Context.bindImport]
    split <;> rfl
  case h_7 hfunction _ _ hbody hblock =>
    have hscope : n.kind.opensScope = false := by
      unfold NodeKind.opensScope
      split <;> first | contradiction | rfl
    rw [hscope]
    rfl
  all_goals
    rename_i hkind
    rw [hkind]
    try rw [declareItem_eq]
    rfl

theorem scopes_leave (h : n.kind.opensScope) (isBody : Bool) (below : Meanings) (s : State) :
    (c.leave n isBody below s).2.scopes = s.scopes.tail := by
  have hkind : n.kind = .functionDefinition ∨ n.kind = .functionBody ∨
      n.kind = .blockStatement := by
    revert h
    cases n.kind <;> decide
  rcases hkind with hkind | hkind | hkind <;> rw [Context.leave, hkind] <;> rfl

/-- The path of what a node declares in a function, as the binder knows it on leaving the node. -/
def Context.localPath (c : Context) (s : State) (n : Node) (name : Token) : SymbolPath :=
  if n.kind = .requiredParameter then .parameter c.module c.unit s.functionName name.text
  else .localVar c.module c.unit s.functionName name.text (s.declared.count name.text + 1)

/-- What declares a variable makes it visible in the innermost block. -/
theorem leave_declaration {name : Token} (h : n.localName? = some name) (isBody : Bool)
    (below : Meanings) (s : State) : ∃ l : Local,
      l.symbol.name = name.text ∧ l.symbol.id = .ofPath (c.localPath s n name) ∧
      (c.leave n isBody below s).2.scopes = addLocals [l] s.scopes ∧
      (c.leave n isBody below s).2.mentions = (n.id, ⟨l.symbol, name.id⟩) :: s.mentions := by
  unfold Node.localName? at h
  split at h
  case h_1 hkind =>
    rw [Context.leave, hkind, Context.localPath, if_pos hkind]
    dsimp only
    rw [Context.declareParameter, h]
    exact ⟨_, rfl, rfl, scopes_bind _ _, mentions_bind _ _⟩
  case h_2 hkind =>
    rw [Context.leave, hkind, Context.localPath, if_neg (by rw [hkind]; decide)]
    dsimp only
    rw [Context.declareVariable, h]
    exact ⟨_, rfl, rfl, scopes_bind _ _, mentions_bind _ _⟩
  case h_3 => cases h

theorem scopes_declareRecord (c : Context) (n : Node) (below : Meanings) (s : State) :
    (c.declareRecord n below s).2.scopes = s.scopes := by
  unfold Context.declareRecord
  split
  · rfl
  · dsimp only
    rw [foldl_mention]
    rfl

theorem scopes_bindType (c : Context) (n : Node) (s : State) :
    (c.bindType n s).2.scopes = s.scopes := by
  unfold Context.bindType
  dsimp only
  split <;> rfl

theorem scopes_bindName (c : Context) (n : Node) (s : State) :
    (c.bindName n s).2.scopes = s.scopes := by
  unfold Context.bindName
  split
  · rfl
  · split
    · rfl
    · split
      · rfl
      · split <;> rfl

theorem scopes_bindQualifiedName (c : Context) (n : Node) (s : State) :
    (c.bindQualifiedName n s).2.scopes = s.scopes := by
  unfold Context.bindQualifiedName
  split
  · split
    · rfl
    · split <;> rfl
  · rfl

theorem scopes_bindField (c : Context) (n : Node) (below : Meanings) (s : State) :
    (c.bindField n below s).2.scopes = s.scopes := by
  unfold Context.bindField
  split
  · split <;> rfl
  · rfl

/-- What declares no variable leaves the blocks as they are. -/
theorem leave_other (hscope : n.kind.opensScope = false) (hname : n.localName? = none)
    (isBody : Bool) (below : Meanings) (s : State) :
    (c.leave n isBody below s).2.scopes = s.scopes := by
  unfold Context.leave
  split
  case h_1 hkind => rw [hkind] at hscope; cases hscope
  case h_2 hkind => rw [hkind] at hscope; cases hscope
  case h_3 hkind => rw [hkind] at hscope; cases hscope
  case h_4 =>
    split
    · rfl
    · exact scopes_declareRecord c n below s
  case h_6 hkind =>
    rw [Node.localName?, hkind] at hname
    dsimp only at hname ⊢
    rw [Context.declareParameter, hname]
  case h_7 hkind =>
    rw [Node.localName?, hkind] at hname
    dsimp only at hname ⊢
    rw [Context.declareVariable, hname]
  case h_8 => exact scopes_bindType c n s
  case h_9 => exact scopes_bindName c n s
  case h_10 => exact scopes_bindQualifiedName c n s
  case h_12 => exact scopes_bindField c n below s
  all_goals rfl

/-! ## What is in the open blocks -/

/-- Whether a variable is the one that a node declares: the node is noted to mention its symbol. -/
def Denotes (notes : List (NodeId × Mention)) (d : Node) (l : Local) : Prop :=
  ∃ name, d.localName? = some name ∧ l.symbol.name = name.text ∧
    (d.id, ⟨l.symbol, name.id⟩) ∈ notes

/-- Whether variables are those that nodes declare, in the same order. -/
abbrev DenotesAll (notes : List (NodeId × Mention)) : List Node → List Local → Prop :=
  List.Forall₂ (Denotes notes)

/-- Whether blocks hold the variables that are declared in scopes. -/
abbrev DenotesFrames (notes : List (NodeId × Mention)) : List Frame → List (List Local) → Prop :=
  List.Forall₂ fun frame ls => DenotesAll notes frame.locals ls

theorem DenotesAll.append {ds ds' : List Node} {ls ls' : List Local} (h : DenotesAll notes ds ls)
    (h' : DenotesAll notes ds' ls') : DenotesAll notes (ds ++ ds') (ls ++ ls') :=
  List.rel_append h h'

/-- On leaving a node that is no scope the walk makes visible what the node itself declares. -/
theorem exists_scopes_leave (hscope : v.node.kind.opensScope = false)
    (hnotes : ∀ a ∈ v.noted c, a ∈ notes) : ∃ ls,
      DenotesAll notes (if v.node.localName?.isSome then [v.node] else []) ls ∧
      (c.leave v.node v.isBody v.below v.state).2.scopes = addLocals ls v.state.scopes := by
  cases hname : v.node.localName? with
  | none => exact ⟨[], .nil, (leave_other hscope hname _ _ _).trans (addLocals_nil _).symm⟩
  | some name =>
    obtain ⟨l, htext, -, hleave, hmentions⟩ :=
      leave_declaration (c := c) hname v.isBody v.below v.state
    have hitem : v.node.kind.isItem = false := by
      rcases Node.kind_of_localName (d := v.node) (by rw [hname]; rfl) with hkind | hkind <;>
        rw [hkind] <;> rfl
    have hnoted : v.noted c = [(v.node.id, ⟨l.symbol, name.id⟩)] := noted_of_leave hitem hmentions
    rw [hnoted] at hnotes
    exact ⟨[l], .cons ⟨name, hname, htext, hnotes _ (List.mem_singleton_self _)⟩ .nil, hleave⟩

mutual

/-- **The walk of a node** makes visible what the node exposes. -/
theorem scopes_bindNode : ∀ (n : Node) (isBody : Bool) (s : State),
    (∀ v ∈ visits c isBody n s, ∀ a ∈ v.noted c, a ∈ notes) →
    ∃ ls, DenotesAll notes n.exposed.reverse ls ∧
      (bindNode c isBody n s).2.scopes = addLocals ls s.scopes
  | ⟨id, kind, full, ends, slots⟩, isBody, s, hnotes => by
    let n : Node := ⟨id, kind, full, ends, slots⟩
    let v : Visit := ⟨n, isBody, (bindSlots c (kind == .typeDefinition) slots (c.enter n s)).1,
      (bindSlots c (kind == .typeDefinition) slots (c.enter n s)).2⟩
    obtain ⟨ls, hls, hscopes⟩ := scopes_bindSlots slots (kind == .typeDefinition) (c.enter n s)
      fun w hw => hnotes w (List.mem_cons_of_mem _ hw)
    have hstate : v.state.scopes = addLocals ls (c.enter n s).scopes := hscopes
    rw [scopes_enter] at hstate
    rw [bindNode_eq, Node.exposed_eq]
    change ∃ ls, DenotesAll notes (if n.kind.opensScope then [] else _).reverse ls ∧
      (c.leave v.node v.isBody v.below v.state).2.scopes = _
    split
    · rename_i hscope
      rw [if_pos hscope] at hstate
      refine ⟨[], .nil, ?_⟩
      rw [scopes_leave hscope, hstate, addLocals_nil]
      rfl
    · rename_i hscope
      rw [if_neg hscope] at hstate
      rw [Bool.not_eq_true] at hscope
      obtain ⟨own, hown, hleave⟩ := exists_scopes_leave (v := v) hscope (hnotes v List.mem_cons_self)
      refine ⟨own ++ ls, ?_, by rw [hleave, hstate, addLocals_append]⟩
      have hreverse : (if v.node.localName?.isSome then [v.node] else []).reverse =
          if v.node.localName?.isSome then [v.node] else [] := by split <;> rfl
      rw [List.reverse_append]
      exact (hreverse ▸ hown).append hls

theorem scopes_bindSlots : ∀ (slots : List Child) (inType : Bool) (s : State),
    (∀ v ∈ visitsIn c inType slots s, ∀ a ∈ v.noted c, a ∈ notes) →
    ∃ ls, DenotesAll notes (exposedIn slots).reverse ls ∧
      (bindSlots c inType slots s).2.scopes = addLocals ls s.scopes
  | [], _, s, _ => ⟨[], .nil, (addLocals_nil _).symm⟩
  | .node n :: rest, inType, s, hnotes => by
    rw [visitsIn, List.forall_mem_append] at hnotes
    obtain ⟨ls, hls, hfirst⟩ := scopes_bindNode n inType s hnotes.1
    obtain ⟨ls', hls', hrest⟩ := scopes_bindSlots rest inType _ hnotes.2
    refine ⟨ls' ++ ls, ?_, ?_⟩
    · rw [exposedIn, List.reverse_append]
      exact hls'.append hls
    · rw [addLocals_append, ← hfirst]
      exact hrest
  | .token _ :: rest, inType, s, hnotes => scopes_bindSlots rest inType s hnotes
  | .missing :: rest, inType, s, hnotes => scopes_bindSlots rest inType s hnotes

end

/-- Whether blocks hold what is declared in the scopes on a way, and the innermost block before them
what is passed by on the way besides. -/
def HoldsWay (notes : List (NodeId × Mention)) (way : List Step) (before blocks : List (List Local)) :
    Prop :=
  ∃ outer opened, DenotesAll notes (passed way) outer ∧ DenotesFrames notes (frames way) opened ∧
    blocks = opened ++ addLocals outer before

mutual

/-- **At a node that declares nothing** the open blocks are the scopes on the way to it, with what is
declared there before it. -/
theorem scopes_visits : ∀ (n : Node) (isBody : Bool) (s : State),
    (∀ v ∈ visits c isBody n s, ∀ a ∈ v.noted c, a ∈ notes) →
    ∀ v ∈ visits c isBody n s, v.node.kind.opensScope = false → exposedIn v.node.slots = [] →
      ∃ way, n.Way way v.node ∧ HoldsWay notes way s.scopes v.state.scopes
  | ⟨id, kind, full, ends, slots⟩, isBody, s, hnotes, v, hv, hscope, hslots => by
    let n : Node := ⟨id, kind, full, ends, slots⟩
    have henter := scopes_enter c n s
    rcases List.mem_cons.1 hv with rfl | hv
    · obtain ⟨ls, hls, hscopes⟩ := scopes_bindSlots slots (kind == .typeDefinition) (c.enter n s)
        fun w hw => hnotes w (List.mem_cons_of_mem _ hw)
      rw [show exposedIn slots = [] from hslots] at hls
      cases hls
      rw [if_neg (by rw [show n.kind.opensScope = false from hscope]; decide)] at henter
      refine ⟨[], .here _, [], [], .nil, .nil, ?_⟩
      rw [addLocals_nil, List.nil_append, ← henter]
      exact hscopes.trans (addLocals_nil _)
    · obtain ⟨before, child, after, way, heq, hway, outer, opened, houter, hopened, hblocks⟩ :=
        scopes_visitsIn slots (kind == .typeDefinition) (c.enter n s)
          (fun w hw => hnotes w (List.mem_cons_of_mem _ hw)) v hv hscope hslots
      refine ⟨⟨n, before⟩ :: way, .down heq hway, ?_⟩
      rw [henter] at hblocks
      unfold HoldsWay
      rw [passed, frames]
      dsimp only
      split at hblocks
      · rename_i hscope
        rw [if_pos hscope, if_pos hscope]
        refine ⟨[], opened ++ [outer], .nil, List.rel_append hopened (.cons houter .nil), ?_⟩
        rw [hblocks, addLocals_nil, List.append_assoc, addLocals, List.append_nil]
        rfl
      · rename_i hscope
        rw [if_neg hscope, if_neg hscope, List.append_nil]
        exact ⟨outer, opened, houter, hopened, hblocks⟩

theorem scopes_visitsIn : ∀ (slots : List Child) (inType : Bool) (s : State),
    (∀ v ∈ visitsIn c inType slots s, ∀ a ∈ v.noted c, a ∈ notes) →
    ∀ v ∈ visitsIn c inType slots s, v.node.kind.opensScope = false →
      exposedIn v.node.slots = [] →
      ∃ before child after way, slots = before ++ .node child :: after ∧
        child.Way way v.node ∧ ∃ outer opened,
          DenotesAll notes (passed way ++ (exposedIn before).reverse) outer ∧
          DenotesFrames notes (frames way) opened ∧ v.state.scopes = opened ++ addLocals outer s.scopes
  | [], _, _, _, _, hv, _, _ => nomatch hv
  | .node n :: rest, inType, s, hnotes, v, hv, hscope, hslots => by
    rw [visitsIn, List.forall_mem_append] at hnotes
    rcases List.mem_append.1 hv with hv | hv
    · obtain ⟨way, hway, outer, opened, houter, hopened, hblocks⟩ :=
        scopes_visits n inType s hnotes.1 v hv hscope hslots
      refine ⟨[], n, rest, way, rfl, hway, outer, opened, ?_, hopened, hblocks⟩
      rwa [exposedIn, List.reverse_nil, List.append_nil]
    · obtain ⟨before, child, after, way, heq, hway, outer, opened, houter, hopened, hblocks⟩ :=
        scopes_visitsIn rest inType _ hnotes.2 v hv hscope hslots
      obtain ⟨ls, hls, hfirst⟩ := scopes_bindNode n inType s hnotes.1
      refine ⟨.node n :: before, child, after, way, by rw [heq]; rfl, hway, outer ++ ls, opened, ?_,
        hopened, ?_⟩
      · rw [exposedIn, List.reverse_append, ← List.append_assoc]
        exact houter.append hls
      · rw [hblocks, hfirst, addLocals_append]
  | .token t :: rest, inType, s, hnotes, v, hv, hscope, hslots => by
    obtain ⟨before, child, after, way, heq, hrest⟩ :=
      scopes_visitsIn rest inType s hnotes v hv hscope hslots
    exact ⟨.token t :: before, child, after, way, by rw [heq]; rfl, hrest⟩
  | .missing :: rest, inType, s, hnotes, v, hv, hscope, hslots => by
    obtain ⟨before, child, after, way, heq, hrest⟩ :=
      scopes_visitsIn rest inType s hnotes v hv hscope hslots
    exact ⟨.missing :: before, child, after, way, by rw [heq]; rfl, hrest⟩

end

/-! ## Bare names -/

/-- A name means in the open blocks what it means in the scopes. -/
theorem local?_rel {fs : List Frame} (h : DenotesFrames notes fs s.scopes) (name : String) :
    Option.Rel (Denotes notes) (Node.lookup fs name) (s.local? name) := by
  refine findSome?_rel h fun frame ls hls => find?_rel hls fun d l hl => ?_
  obtain ⟨t, ht, htext, -⟩ := hl
  rw [Node.declaresLocal, ht, htext]
  rfl

/-- What a bare name notes: the variable that it means, or an item of the module, or something that
the language provides. -/
theorem noted_name (hkind : v.node.kind = .simpleNameReference) {name : Token}
    (hname : v.node.identifierAt? 0 = some name) : v.noted c =
      ((((v.state.local? name.text).map Local.symbol).or
        (((c.visible.own.get? name.text).map Item.symbol).or (builtin? name.text))).map
          fun symbol => (v.node.id, Mention.mk symbol name.id)).toList := by
  refine noted_of_leave (by rw [hkind]; rfl) ?_
  rw [Context.leave, hkind]
  dsimp only
  rw [Context.bindName, hname]
  dsimp only
  cases v.state.local? name.text with
  | some found => rfl
  | none =>
    cases c.visible.own.get? name.text with
    | some item => rfl
    | none => cases builtin? name.text <;> rfl

section
variable {source : String} {name : Token} (hr : r ∈ (Tree.ofSource source).root.preorder)

include hr

theorem width_of_identifier {i : Nat} (hname : r.identifierAt? i = some name) :
    r.fullSpan.start < r.fullSpan.stop :=
  (Tree.regular_ofSource source).nonempty r hr i name hname

variable (hkind : r.kind = .simpleNameReference) (hname : r.identifierAt? 0 = some name)

include hkind hname

/-- **A bare name mentions** the variable that is found in the scopes on the way to it, or else an
item of the module or something that the language provides. -/
theorem exists_way_of_name : ∃ way found, (Tree.ofSource source).root.Way way r ∧
    Option.Rel (Denotes (bindTree c (.ofSource source))) (Node.lookup (frames way) name.text) found ∧
    (c.bound source).mention? r.id =
      ((found.map Local.symbol).or
        (((c.visible.own.get? name.text).map Item.symbol).or (builtin? name.text))).map
          fun symbol => ⟨symbol, name.id⟩ := by
  obtain ⟨v, hv, rfl⟩ := exists_visit (c := c) hr
  have hregular := (Tree.regular_ofSource source).below hr
  have hnothing : exposedIn v.node.slots = [] := by
    rw [List.eq_nil_iff_forall_not_mem]
    intro d hd
    have hheld := hregular.holds_or_exposes hd
    rcases Node.kind_of_localName (Node.above_of_mem_exposedIn hd).2 with h | h <;>
      rw [hkind, h] at hheld <;> revert hheld <;> decide
  have hnotes : ∀ w ∈ unitVisits c source, ∀ a ∈ w.noted c, a ∈ bindTree c (.ofSource source) :=
    fun w hw a ha => mem_bindTree.2 ⟨w, hw, ha⟩
  obtain ⟨way, hway, outer, opened, -, hopened, hscopes⟩ :=
    scopes_visits _ _ _ hnotes v hv (by rw [hkind]; rfl) hnothing
  -- Around the unit no block is open.
  rw [show addLocals outer State.start.scopes = [] from rfl, List.append_nil] at hscopes
  rw [← hscopes] at hopened
  refine ⟨way, _, hway, local?_rel hopened name.text, ?_⟩
  refine mention?_eq_of_noted hv (by rw [hkind]; decide) ?_
  rw [noted_name hkind hname, Option.map_map]
  rfl

/-- **A bare name that means a variable** mentions what the declaration of the variable mentions. -/
theorem mention?_of_isLocalAt (hd : (Tree.ofSource source).root.IsLocalAt r name.text d) :
    ∃ a, (c.bound source).mention? d.id = some a ∧
      (c.bound source).mention? r.id = some ⟨a.symbol, name.id⟩ := by
  have hregular := Tree.regular_ofSource source
  have hwidth := width_of_identifier hr hname
  obtain ⟨way, found, hway, hfound, hmention⟩ := exists_way_of_name (c := c) hr hkind hname
  cases hlookup : Node.lookup (frames way) name.text with
  | none =>
    obtain ⟨scope, hvisible, -⟩ := hd
    exact absurd hvisible (hway.not_isVisibleAt_of_lookup hregular hwidth hlookup scope d)
  | some k =>
    obtain rfl := (hway.isLocalAt_of_lookup hregular hwidth hlookup).unique hregular hd
    rw [hlookup] at hfound
    cases hfound with
    | some hl =>
      obtain ⟨t, -, -, hmem⟩ := hl
      exact ⟨_, mention?_iff.2 hmem, hmention⟩

/-- A bare name that means no variable means an item of the module, or something that the language
provides. -/
theorem mention?_of_not_isVisibleAt
    (hnone : ∀ scope d, ¬ (Tree.ofSource source).root.IsVisibleAt r name.text scope d) :
    (c.bound source).mention? r.id =
      (((c.visible.own.get? name.text).map Item.symbol).or (builtin? name.text)).map
        fun symbol => ⟨symbol, name.id⟩ := by
  have hregular := Tree.regular_ofSource source
  have hwidth := width_of_identifier hr hname
  obtain ⟨way, found, hway, hfound, hmention⟩ := exists_way_of_name (c := c) hr hkind hname
  have hlookup : Node.lookup (frames way) name.text = none := by
    rw [Option.eq_none_iff_forall_ne_some]
    intro d hd
    obtain ⟨scope, hvisible, -⟩ := hway.isLocalAt_of_lookup hregular hwidth hd
    exact hnone scope d hvisible
  rw [hlookup] at hfound
  cases hfound with
  | none => exact hmention

end

end Binding

end Xref
