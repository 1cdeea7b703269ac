import Xref.Proofs.Binding.NameTokens
import Xref.Workspace

/-!
# Annotations

What binding does to the nodes of a unit, whatever the graph and the documents hold: it annotates a
node at most once, with a token right below the node that spells the name of the symbol, and tokens
of different nodes are different. What it annotates with and what has a declaration belongs to the
module of the unit or to one that the unit imports itself (`compile_annotates`).
-/

namespace Xref

namespace Binding

variable {c : Context} {source : String} {v : Visit}

/-! ## Each node once -/

mutual

/-- The mentions of a walk are those that its visits note, in another order. -/
theorem perm_bindNode : ∀ (n : Node) (isBody : Bool) (s : State),
    (bindNode c isBody n s).2.mentions.Perm
      ((visits c isBody n s).flatMap (Visit.noted c) ++ s.mentions)
  | ⟨id, kind, full, ends, slots⟩, isBody, s => by
    rw [bindNode_eq, visits_eq, mentions_leave, List.flatMap_cons, Visit.noted]
    dsimp only
    have hbelow := perm_bindSlots slots (kind == .typeDefinition)
      (c.enter ⟨id, kind, full, ends, slots⟩ s)
    rw [mentions_enter] at hbelow
    rw [List.append_assoc, List.append_assoc]
    refine .append_left _ (hbelow.trans ?_)
    rw [← List.append_assoc, ← List.append_assoc]
    exact .append_right _ List.perm_append_comm

theorem perm_bindSlots : ∀ (slots : List Child) (inType : Bool) (s : State),
    (bindSlots c inType slots s).2.mentions.Perm
      ((visitsIn c inType slots s).flatMap (Visit.noted c) ++ s.mentions)
  | [], _, _ => .refl _
  | .node n :: rest, inType, s => by
    rw [bindSlots, visitsIn, List.flatMap_append]
    refine (perm_bindSlots rest inType (bindNode c inType n s).2).trans ?_
    refine ((perm_bindNode n inType s).append_left _).trans ?_
    rw [← List.append_assoc]
    exact .append_right _ List.perm_append_comm
  | .token _ :: rest, inType, s => perm_bindSlots rest inType s
  | .missing :: rest, inType, s => perm_bindSlots rest inType s

end

/-- What is made of some elements of a list keeps their keys in order. -/
theorem sublist_keys {α β γ : Type} {f : α → Option β} {key : α → γ} {key' : β → γ}
    (h : ∀ x y, f x = some y → key' y = key x) (l : List α) :
    ((l.filterMap f).map key').Sublist (l.map key) := by
  induction l with
  | nil => exact .slnil
  | cons x l ih =>
    rw [List.filterMap_cons, List.map_cons]
    cases hx : f x with
    | none => exact .cons _ ih
    | some y =>
      dsimp only
      rw [List.map_cons, h x y hx]
      exact ih.cons_cons _

/-- A visit that notes its own node and then fields of a record, in their order, notes no node
twice. -/
theorem nodup_of_fields {r : Node} {own : Mention} {notes : List (NodeId × Mention)}
    (hv : v ∈ unitVisits c source) (hkind : v.node.kind ≠ .recordField) (hr : v.NotesFieldsOf r)
    (hnoted : v.noted c = (v.node.id, own) :: notes.reverse)
    (hkeys : (notes.map Prod.fst).Sublist (r.children.map Node.id)) :
    ((v.noted c).map Prod.fst).Nodup := by
  have hroot := hr.mem hv
  have hchildren : (r.children.map Node.id).Nodup := Tree.nodup_ids.sublist <|
    ((Node.children_sublist r).trans (Node.preorder_sublist hroot)).map Node.id
  rw [hnoted, List.map_cons, List.map_reverse, List.nodup_cons, List.nodup_reverse, List.mem_reverse]
  refine ⟨fun hmem => ?_, hchildren.sublist hkeys⟩
  obtain ⟨f, hf, heq⟩ := List.mem_map.1 (hkeys.subset hmem)
  have hfield := Node.preorder_trans hroot (Node.mem_preorder_child hf)
  obtain rfl := node_unique hfield (mem_preorder_of_visit hv) heq
  exact hkind (kind_field hroot hr.1 hf)

theorem nodup_item (hv : v ∈ unitVisits c source) (h : (declaredKind? v.node.kind).isSome) :
    ((v.noted c).map Prod.fst).Nodup := by
  have hnoted := noted_item (c := c) h
  cases hitem : itemOf? c.module c.unit v.node with
  | none => rw [hnoted, hitem]; exact List.nodup_nil
  | some item =>
    rw [hitem, Option.elim_some, itemNotes] at hnoted
    obtain ⟨kind, name, -, -, -, -, hfields, -⟩ := itemOf?_eq_some hitem
    by_cases hempty : item.fields = []
    · rw [hnoted, hempty]
      exact List.nodup_singleton _
    · obtain ⟨g, hg⟩ := List.exists_mem_of_ne_nil _ hempty
      rw [hfields] at hg
      obtain ⟨htype, body, hbody, hrecord, -⟩ := mem_itemFields hg
      have hlist : item.fields = body.children.filterMap
          (fieldOf? c.module c.unit (.item c.module name.text)) := by
        rw [hfields, itemFields, htype, hbody]
        exact if_pos hrecord
      have hfieldsOf : v.NotesFieldsOf body :=
        ⟨hrecord, .inr ⟨htype, List.mem_of_mem_head? hbody⟩⟩
      refine nodup_of_fields hv (by rw [htype]; decide) hfieldsOf hnoted ?_
      rw [List.map_map, hlist]
      refine sublist_keys (fun f g hg => ?_) _
      obtain ⟨-, -, hnode, -⟩ := fieldOf?_eq_some hg
      exact hnode

theorem nodup_record (hv : v ∈ unitVisits c source) (h : v.node.kind = .recordTypeDescriptor) :
    ((v.noted c).map Prod.fst).Nodup := by
  rcases noted_record (c := c) h with hnoted | ⟨keyword, hbody, -, hnoted⟩
  · rw [hnoted]
    exact List.nodup_nil
  · refine nodup_of_fields hv (by rw [h]; decide) ⟨h, .inl ⟨rfl, hbody⟩⟩ hnoted ?_
    rw [List.map_map, ← (below_visits _ _ _ v hv).1.nodes_below, List.map_map]
    refine sublist_keys (fun f w hw => ?_) _
    obtain ⟨name, -, hnode, -⟩ := writtenField?_eq_some hw
    exact congrArg Node.id hnode

/-- A visit notes a node at most once. -/
theorem nodup_noted (hv : v ∈ unitVisits c source) : ((v.noted c).map Prod.fst).Nodup := by
  have hone : ∀ o : Option Mention, v.noted c = (o.map fun a => (v.node.id, a)).toList →
      ((v.noted c).map Prod.fst).Nodup := fun o h => by
    rw [h]
    cases o with
    | none => exact List.nodup_nil
    | some a => exact List.nodup_singleton _
  by_cases himport : v.node.kind = .importDeclaration
  · refine hone ((v.node.identifierAt? 1).map fun name => ⟨moduleSymbol name.text, name.id⟩) ?_
    rw [noted_import himport, Option.map_map]
    rfl
  by_cases hitem : v.node.kind.isItem
  · refine nodup_item hv ?_
    revert hitem himport
    cases v.node.kind <;> decide
  by_cases hrecord : v.node.kind = .recordTypeDescriptor
  · exact nodup_record hv hrecord
  · obtain ⟨o, hnoted, -⟩ := noted_other (c := c) (Bool.not_eq_true _ ▸ hitem) hrecord
    exact hone o hnoted

/-- **A walk of a unit notes each node at most once.** -/
theorem nodup_bindTree (c : Context) (source : String) :
    ((bindTree c (.ofSource source)).map Prod.fst).Nodup := by
  have hperm : (bindTree c (.ofSource source)).Perm
      ((unitVisits c source).flatMap (Visit.noted c)) := by
    have hwalk := perm_bindNode (c := c) (Tree.ofSource source).root false .start
    rw [show State.start.mentions = [] from rfl, List.append_nil] at hwalk
    exact (List.reverse_perm _).trans hwalk
  rw [(hperm.map Prod.fst).nodup_iff, List.map_flatMap, List.nodup_flatMap]
  refine ⟨fun v hv => nodup_noted hv, ?_⟩
  have hids : (unitVisits c source).Pairwise fun v w => v.node.id ≠ w.node.id := by
    have hids : ((Tree.ofSource source).root.preorder.map Node.id).Nodup := Tree.nodup_ids
    rw [← node_visits (c := c) _ false .start, List.map_map] at hids
    exact List.pairwise_map.1 hids
  refine hids.imp_of_mem fun hv hw hne => ?_
  refine List.disjoint_left.2 fun id hid hid' => ?_
  obtain ⟨a, ha, rfl⟩ := List.mem_map.1 hid
  obtain ⟨b, hb, heq⟩ := List.mem_map.1 hid'
  exact hne (congrArg (·.node.id) (noted_unique hv hw ha hb heq.symm).1)

/-! ## Names -/

end Binding

/-- Whether a node is a record that is written in place: a record that is not the body of a type
definition. -/
def Tree.IsAnonymous (t : Tree) (n : Node) : Prop :=
  n.kind = .recordTypeDescriptor ∧ ∀ m ∈ t.root.preorder, n ∈ m.children → m.kind ≠ .typeDefinition

namespace Binding

variable {c : Context} {source : String} {a : NodeId × Mention}

/-- Whether an annotation belongs to a node, and a token right below the node spells the name of the
symbol: an identifier, or the keyword of a record exactly if the node is a record written in
place. -/
def NamedBy (t : Tree) (a : NodeId × Mention) (n : Node) (name : Token) : Prop :=
  n.id = a.1 ∧ name ∈ n.childTokens ∧ name.id = a.2.name ∧ name.text = a.2.symbol.name ∧
    (name.kind = .identifier ∧ ¬ t.IsAnonymous n ∨
      name.kind = .keyword ∧ name.text = "record" ∧ t.IsAnonymous n)

/-- A record that is annotated is written in place, and named by its keyword. -/
theorem namedBy_record {n : Node} (hn : n ∈ (Tree.ofSource source).root.preorder)
    (hkind : n.kind = .recordTypeDescriptor) (ha : a ∈ bindTree c (.ofSource source))
    (hid : n.id = a.1) : ∃ name, NamedBy (.ofSource source) a n name := by
  obtain ⟨v, hv, rfl⟩ := exists_visit (c := c) hn
  obtain ⟨hbody, keyword, hkeyword, rfl⟩ := record_of_mem hv hkind ha hid.symm
  obtain ⟨hkeywordKind, htext⟩ := Tree.keyword_record hn hkind hkeyword
  refine ⟨keyword, rfl, mem_childTokens_of_first hkeyword, rfl, htext,
    .inr ⟨hkeywordKind, htext, hkind, fun m hm hchild htype => ?_⟩⟩
  rcases (below_visits _ _ _ v hv).2 with ⟨hroot, -⟩ | ⟨m', hm', hchild', hbody'⟩
  · rw [hroot, Tree.kind_root] at hkind
    cases hkind
  · obtain rfl := Node.above_unique Tree.nodup_ids hm hm' hchild hchild'
    rw [hbody, htype] at hbody'
    cases hbody'

/-- **An annotation is named by a token of its node.** -/
theorem exists_namedBy (ha : a ∈ bindTree c (.ofSource source)) :
    ∃ n ∈ (Tree.ofSource source).root.preorder, ∃ name, NamedBy (.ofSource source) a n name := by
  obtain ⟨n, hn, hid, t, ht, hname, -⟩ :=
    bindTree_witnessed (visible_anything _) (covers_anything _) a ha
  refine ⟨n, hn, ?_⟩
  by_cases hkind : n.kind = .recordTypeDescriptor
  · exact namedBy_record hn hkind ha hid
  · rcases named_of_mem_bindTree ha with
      ⟨t', ht', hid', hidentifier, htext⟩ | ⟨v, hv, hrecord, -, _, -, rfl⟩
    · obtain rfl := eq_of_id_eq (Change.Marks.mem_of_childToken hn ht) ht' (hname.trans hid'.symm)
      exact ⟨t, hid, ht, hname, htext, .inl ⟨hidentifier, fun h => hkind h.1⟩⟩
    · rw [node_unique hn (mem_preorder_of_visit hv) hid] at hkind
      exact absurd hrecord hkind

/-! ## Owners -/

/-- Whether a symbol, if it is declared anywhere, belongs to a module or to one of several others. -/
def OwnedIn (m : ModuleId) (ms : List ModuleId) (s : Symbol) : Prop :=
  s.declaration.isSome → s.owner = m ∨ s.owner ∈ ms

variable {l : Layout} {d : Documents} {g : ModuleGraph} {u : UnitId} {own : ModuleScope}
  {imports : List ModuleScope}

/-- What a unit is annotated with belongs to its module or to one that it imports. -/
theorem ownedIn_of_mem (hown : moduleScopeWith l d g u (.ofSource source) = .ok own)
    (himports : moduleScopes l d g (importedModules g u.module (.ofSource source)) = .ok imports)
    (ha : a ∈ bindTree ⟨u.module, u.unit, ⟨own, imports⟩⟩ (.ofSource source)) :
    OwnedIn u.module (importedModules g u.module (.ofSource source)) a.2.symbol := by
  have hvisible : Visible.Good
      (OwnedIn u.module (importedModules g u.module (.ofSource source))) ⟨own, imports⟩ := by
    refine visible_good hown himports fun v text hreads n _ p hp s hs _ => ?_
    rw [hs.owner, owner_of_mem_itemPaths hp]
    cases hreads with
    | own => exact .inl rfl
    | listed hmodule => exact hmodule
  have hcovers : Covers (OwnedIn u.module (importedModules g u.module (.ofSource source)))
      (unitPaths u.module u.unit (.ofSource source)) := by
    intro p hp s hs hdeclared
    rw [hs.declaration] at hdeclared
    have harises : p.Arises (· = u.module) u.module u.unit := arises_of_mem_unitPaths rfl hp
    exact .inl (hs.owner.trans (harises.owner_eq hdeclared))
  obtain ⟨-, -, -, -, -, -, -, howned⟩ :=
    bindTree_witnessed (c := ⟨u.module, u.unit, ⟨own, imports⟩⟩) hvisible hcovers a ha
  exact howned

end Binding

/-! ## Compiled units -/

open Binding

/-- What is known of the annotations of a unit that is compiled in a graph. -/
structure BoundUnit.WellAnnotated (g : ModuleGraph) (b : BoundUnit) : Prop where
  /-- An annotation belongs to a node of the tree, and a token right below it spells the name: an
  identifier, or the keyword of a record exactly if the node is a record written in place. -/
  named : ∀ {id a}, b.mention? id = some a →
    ∃ n ∈ b.tree.root.preorder, ∃ name, NamedBy b.tree (id, a) n name
  /-- Different nodes have different tokens for names. -/
  apart : ∀ {id id' a a'}, b.mention? id = some a → b.mention? id' = some a' → a.name = a'.name →
    id = id'
  /-- What is declared anywhere belongs to the module of the unit, or to a module of the graph that
  the unit itself imports. -/
  owned : ∀ {id a}, b.mention? id = some a →
    OwnedIn b.module (importedModules g b.module b.tree) a.symbol

namespace Binding

variable {l : Layout} {d : Documents} {g : ModuleGraph} {u : UnitId} {source : String}
  {b : BoundUnit}

/-- **Annotations are well formed and unique.** A unit that compiles is what a walk of its tree in
the scopes of its modules notes, this walk notes each node at most once, and the annotations are
named, told apart and owned as they may be. -/
theorem compile_annotates (h : compile l d g u source = .ok b) : ∃ own imports,
    moduleScopeWith l d g u (.ofSource source) = .ok own ∧
    moduleScopes l d g (importedModules g u.module (.ofSource source)) = .ok imports ∧
    b = Context.bound ⟨u.module, u.unit, ⟨own, imports⟩⟩ source ∧
    ((bindTree ⟨u.module, u.unit, ⟨own, imports⟩⟩ (.ofSource source)).map Prod.fst).Nodup ∧
    b.WellAnnotated g := by
  obtain ⟨-, -, own, imports, hown, himports, rfl⟩ := compile_eq_ok.1 h
  refine ⟨own, imports, hown, himports, rfl, nodup_bindTree _ _, ?_⟩
  constructor
  · exact fun ha => exists_namedBy (BoundUnit.mem_of_mention? ha)
  · intro id id' a a' ha ha' hname
    obtain ⟨n, hn, t, rfl, ht, hid, -⟩ := exists_namedBy (BoundUnit.mem_of_mention? ha)
    obtain ⟨n', hn', t', rfl, ht', hid', -⟩ := exists_namedBy (BoundUnit.mem_of_mention? ha')
    have hids := Change.Marks.nodup_tokens (Node.self_mem_preorder (Tree.ofSource source).root)
    rw [Node.parent_unique hids hn hn' ht ht' (hid.trans (hname.trans hid'.symm))]
  · exact fun ha => ownedIn_of_mem hown himports (BoundUnit.mem_of_mention? ha)

open Workspace (documentsOf graphOf usualLayout)

/-- A unit with a record written in place that has a field of an imported type. -/
def placedFiles : List SourceFile :=
  [⟨⟨⟨"lib"⟩, "lib.nav"⟩, "type T = record { k: int; };"⟩,
    ⟨⟨.current, "main.nav"⟩, "import lib; fn f(p: record { t: lib:T; }) { return p.t.k; }"⟩]

theorem compile_annotates_placedFiles : ∃ b id id' a a',
    (∃ file ∈ placedFiles, compile usualLayout (documentsOf usualLayout placedFiles)
      (graphOf placedFiles) file.unit file.text = .ok b) ∧
    b.WellAnnotated (graphOf placedFiles) ∧
    b.mention? id = some a ∧ a.symbol.name = "record" ∧
    b.mention? id' = some a' ∧ a'.symbol.declaration.isSome ∧ a'.symbol.owner = ⟨"lib"⟩ := by
  have hchecked : (compile usualLayout (documentsOf usualLayout placedFiles)
      (graphOf placedFiles) ⟨.current, "main.nav"⟩
      "import lib; fn f(p: record { t: lib:T; }) { return p.t.k; }").toOption.any fun b =>
      decide ((∃ n ∈ b.tree.root.preorder, ∃ a ∈ b.mention? n.id, a.symbol.name = "record") ∧
        ∃ n ∈ b.tree.root.preorder, ∃ a ∈ b.mention? n.id,
          a.symbol.declaration.isSome ∧ a.symbol.owner = ⟨"lib"⟩) := by
    decide +kernel
  obtain ⟨b, hcompile, hchecked⟩ := exists_ok_of_any hchecked
  obtain ⟨⟨n, -, a, ha, hname⟩, n', -, a', ha', hdeclared, howner⟩ := of_decide_eq_true hchecked
  obtain ⟨-, -, -, -, -, -, hannotated⟩ := compile_annotates hcompile
  exact ⟨b, n.id, n'.id, a, a', ⟨⟨⟨.current, "main.nav"⟩, _⟩, by simp [placedFiles], hcompile⟩,
    hannotated, ha, hname, ha', hdeclared, howner⟩

end Binding

end Xref
