import Xref.Proofs.Binding.Renaming
import Xref.Proofs.Binding.VisitPaths

/-!
# Marking the names of a symbol

A change of name marks the tokens of a unit that name the symbol (`Change.Marks`). In the text in
which the marked tokens have the new name, declarations and type names are what they were up to the
name of the symbol (`Marks.itemOf?_renames`, `Marks.ofNode?_renames`).
-/

namespace Xref.Binding

open Change

/-- Whether `p` holds of the tokens of a unit that name the symbol of a change, and of no others. No
identifier is the new name, which is no keyword that names a record, and no path of the unit has the
identity of the symbol but the path of the symbol. -/
structure Change.Marks (ρ : Change) (c : Context) (source : String) (p : Token → Bool) :
    Prop where
  noted : ∀ a ∈ bindTree c (.ofSource source), ∀ t ∈ sourceTokens source, t.id = a.2.name →
    (p t ↔ a.2.symbol.id = ρ.target)
  marked : ∀ t ∈ sourceTokens source, p t → ∃ n ∈ (Tree.ofSource source).root.preorder,
    t ∈ n.childTokens ∧ ∃ s, (n.id, ⟨s, t.id⟩) ∈ bindTree c (.ofSource source) ∧ s.id = ρ.target
  declared : ∀ a ∈ bindTree c (.ofSource source), a.2.symbol.id = ρ.target →
    a.2.symbol.declaration.isSome
  name : ∀ t ∈ sourceTokens source, p t → t.kind = .identifier ∧ t.text = ρ.old
  fresh : ∀ t ∈ sourceTokens source, t.kind = .identifier → t.text ≠ ρ.new
  keyword : "record" ≠ ρ.new
  paths : ∀ q ∈ unitPaths c.module c.unit (.ofSource source), SymbolId.ofPath q = ρ.target →
    q = ρ.path

namespace Change.Marks

variable {ρ : Change} {c : Context} {source : String} {p : Token → Bool} {v : Visit} {n n' : Node}
  {t t' : Token} {a : NodeId × Mention}

theorem mem_of_childToken (hn : n ∈ (Tree.ofSource source).root.preorder)
    (ht : t ∈ n.childTokens) : t ∈ sourceTokens source := by
  rw [← Tree.tokens_root]
  exact Node.childTokens_subset hn ht

/-- A token right below a node names what the visit has noted with it. -/
theorem noted_iff (h : ρ.Marks c source p) (hv : v ∈ unitVisits c source) (ha : a ∈ v.noted c)
    (ht : t ∈ sourceTokens source) (hname : t.id = a.2.name) :
    p t ↔ a.2.symbol.id = ρ.target :=
  h.noted a (mem_bindTree.2 ⟨v, hv, ha⟩) t ht hname

theorem exists_noted (h : ρ.Marks c source p) (hv : v ∈ unitVisits c source)
    (hkind : v.node.kind ≠ .recordField) (ht : t ∈ v.node.childTokens) (hp : p t) :
    ∃ s, (v.node.id, ⟨s, t.id⟩) ∈ v.noted c ∧ s.id = ρ.target := by
  have hnode := mem_preorder_of_visit hv
  obtain ⟨n, hn, htn, s, hs, hid⟩ := h.marked t (mem_of_childToken hnode ht) hp
  have hids : ((Tree.ofSource source).root.tokens.map Token.id).Nodup := by
    rw [Tree.tokens_root]
    exact nodup_ids_sourceTokens
  obtain rfl := Node.parent_unique hids hn hnode htn ht rfl
  exact ⟨s, noted_of_mem hv hkind hs rfl, hid⟩

/-- If a visit notes nothing with a token, the token is not marked. -/
theorem not_marked (h : ρ.Marks c source p) (hv : v ∈ unitVisits c source)
    (hkind : v.node.kind ≠ .recordField) (ht : t ∈ v.node.childTokens)
    (hnone : ∀ a ∈ v.noted c, t.id ≠ a.2.name) : p t = false := by
  rw [Bool.eq_false_iff]
  intro hp
  obtain ⟨s, hs, -⟩ := h.exists_noted hv hkind ht hp
  exact hnone _ hs rfl

/-- What is declared nowhere is not the symbol. -/
theorem id_ne (h : ρ.Marks c source p) (hv : v ∈ unitVisits c source) (ha : a ∈ v.noted c)
    (hnone : a.2.symbol.declaration = none) : a.2.symbol.id ≠ ρ.target := by
  intro hid
  have := h.declared a (mem_bindTree.2 ⟨v, hv, ha⟩) hid
  rw [hnone] at this
  cases this

/-- The name of an imported module is not marked. -/
theorem import_unmarked (h : ρ.Marks c source p) (hv : v ∈ unitVisits c source)
    (hkind : v.node.kind = .importDeclaration) (ht : v.node.identifierAt? 1 = some t) :
    p t = false ∧ (moduleSymbol t.text).id ≠ ρ.target := by
  have hmem : (v.node.id, ⟨moduleSymbol t.text, t.id⟩) ∈ v.noted c := by
    rw [noted_import hkind, ht]
    exact List.mem_singleton_self _
  have hne := h.id_ne hv hmem rfl
  have htoken := mem_of_childToken (mem_preorder_of_visit hv) (identifierAt?_eq_some ht).1
  exact ⟨Bool.eq_false_iff.2 fun hp => hne ((h.noted_iff hv hmem htoken rfl).1 hp), hne⟩

theorem text_eq (h : t.Renamed p ρ.new t') (hp : p t = false) : t'.text = t.text := by
  rw [h.text, hp]
  rfl

/-! ## Type names -/

theorem noted_type (hkind : v.node.kind = .typeReference) {tn : TypeName} {name : Token}
    (htn : TypeName.ofNode? v.node = some tn)
    (hname : (v.node.childTokens.filter (·.kind.isIdentifier)).getLast? = some name) :
    v.noted c = ((c.visible.resolve? c.visible.own tn).map fun r =>
      (v.node.id, Mention.mk r.1 name.id)).toList := by
  refine noted_of_leave (by rw [hkind]; rfl) ?_
  rw [Context.leave, hkind]
  dsimp only
  rw [Context.bindType, htn, hname]
  simp only [Option.bind_some]
  cases c.visible.resolve? c.visible.own tn <;> rfl

/-- The last identifier of a type name is marked exactly if the name means the symbol. -/
theorem marked_type_iff (h : ρ.Marks c source p) (hv : v ∈ unitVisits c source)
    (hkind : v.node.kind = .typeReference) {tn : TypeName} {name : Token}
    (htn : TypeName.ofNode? v.node = some tn)
    (hname : (v.node.childTokens.filter (·.kind.isIdentifier)).getLast? = some name) :
    p name ↔ ∃ r, c.visible.resolve? c.visible.own tn = some r ∧ r.1.id = ρ.target := by
  have hnoted := noted_type (c := c) hkind htn hname
  have hchild := (typeName_last htn hname).1
  constructor
  · intro hp
    obtain ⟨s, hs, hid⟩ := h.exists_noted hv (by rw [hkind]; decide) hchild hp
    rw [hnoted, Option.mem_toList, Option.map_eq_some_iff] at hs
    obtain ⟨r, hr, heq⟩ := hs
    obtain ⟨-, hmention⟩ := Prod.mk.inj heq
    obtain ⟨rfl, -⟩ := Mention.mk.inj hmention
    exact ⟨r, hr, hid⟩
  · rintro ⟨r, hr, hid⟩
    refine (h.noted_iff (a := (v.node.id, ⟨r.1, name.id⟩)) hv ?_
      (mem_of_childToken (mem_preorder_of_visit hv) hchild) rfl).2 hid
    rw [hnoted, hr]
    exact List.mem_singleton_self _

theorem nodup_tokens (hn : n ∈ (Tree.ofSource source).root.preorder) :
    (n.tokens.map Token.id).Nodup := by
  have hids : ((sourceTokens source).map Token.id).Nodup := nodup_ids_sourceTokens
  rw [← Tree.tokens_root] at hids
  exact hids.sublist ((Node.tokens_sublist hn).map _)

variable {scope : ModuleId → ModuleScope} {m : ModuleId} {u : String} {imports : List ModuleId}

/-- A type name that is marked means the symbol wherever it is looked up, and one without a qualifier
is marked if it means the symbol. -/
theorem targets_of_marked (h : ρ.Marks (contextSeeing scope m u imports) source p)
    (hscope : ∀ m, (scope m).module = m) (hv : v ∈ unitVisits (contextSeeing scope m u imports) source)
    (hkind : v.node.kind = .typeReference) {tn : TypeName} {name : Token}
    (htn : TypeName.ofNode? v.node = some tn)
    (hname : (v.node.childTokens.filter (·.kind.isIdentifier)).getLast? = some name) :
    (p name → ρ.Targets (scope (tn.qualifier.elim m ModuleId.mk)) tn.name) ∧
      (tn.qualifier = none → ρ.Targets (scope m) tn.name → p name) := by
  have hiff := h.marked_type_iff hv hkind htn hname
  have hnoted := noted_type (c := contextSeeing scope m u imports) hkind htn hname
  constructor
  · intro hp
    obtain ⟨r, hr, hid⟩ := hiff.1 hp
    have hdeclared := fun hnone => h.id_ne (a := (v.node.id, ⟨r.1, name.id⟩)) hv
      (by rw [hnoted, hr]; exact List.mem_singleton_self _) hnone hid
    unfold Visible.resolve? at hr
    cases hq : tn.qualifier with
    | some q =>
      rw [hq] at hr
      dsimp only at hr
      rw [imported?_seen hscope] at hr
      obtain ⟨S, hS, hr⟩ := Option.bind_eq_some_iff.1 hr
      obtain ⟨k, hk, rfl⟩ := Option.map_eq_some_iff.1 hS
      obtain rfl : k = ⟨q⟩ := congrArg ModuleId.mk (by simpa using List.find?_some hk)
      obtain ⟨item, hitem, rfl⟩ := Option.map_eq_some_iff.1 hr
      exact ⟨item, hitem, hid⟩
    | none =>
      rw [hq] at hr
      dsimp only at hr
      split at hr
      · rename_i item hitem
        obtain rfl := Option.some.inj hr
        exact ⟨item, hitem, hid⟩
      · split at hr
        · obtain ⟨s, hs, rfl⟩ := Option.map_eq_some_iff.1 hr
          exact absurd (builtin?_declaration hs) hdeclared
        · cases hr
  · rintro hq ⟨item, hitem, hid⟩
    refine hiff.2 ⟨(item.symbol, some (.named (scope m).module tn.name)), ?_, hid⟩
    rw [Visible.resolve?, hq]
    dsimp only [seen]
    rw [hitem]

/-- **A type name** in its new form. -/
theorem ofNode?_renames (h : ρ.Marks (contextSeeing scope m u imports) source p)
    (hscope : ∀ m, (scope m).module = m) (hn : n ∈ (Tree.ofSource source).root.preorder)
    (halike : n.Alike (Token.Renamed p ρ.new) n') :
    Option.Rel (ρ.RenamesName scope m) (TypeName.ofNode? n) (TypeName.ofNode? n') := by
  obtain ⟨v, hv, rfl⟩ := exists_visit (c := contextSeeing scope m u imports) hn
  have hidentifiers := halike.identifiers fun _ _ h => h.kind
  have hfresh : ∀ t ∈ v.node.childTokens.filter (·.kind.isIdentifier), t.text ≠ ρ.new := by
    intro t ht
    obtain ⟨ht, hkind⟩ := List.mem_filter.1 ht
    exact h.fresh t (mem_of_childToken hn ht) (by simpa [TokenKind.isIdentifier] using hkind)
  by_cases hkind : v.node.kind = .typeReference
  · have htargets : ∀ {tn : TypeName} {name : Token}, TypeName.ofNode? v.node = some tn →
        (v.node.childTokens.filter (·.kind.isIdentifier)).getLast? = some name →
          (p name → ρ.Targets (scope (tn.qualifier.elim m ModuleId.mk)) tn.name) ∧
            (tn.qualifier = none → ρ.Targets (scope m) tn.name → p name) :=
      fun htn hname => h.targets_of_marked hscope hv hkind htn hname
    have hnames : ∀ {tn : TypeName} {name : Token}, TypeName.ofNode? v.node = some tn →
        (v.node.childTokens.filter (·.kind.isIdentifier)).getLast? = some name →
          ∀ a ∈ v.noted (contextSeeing scope m u imports), a.2.name = name.id := by
      intro tn name htn hname a ha
      rw [noted_type hkind htn hname, Option.mem_toList, Option.map_eq_some_iff] at ha
      obtain ⟨r, -, rfl⟩ := ha
      rfl
    have hnodup : ((v.node.childTokens.filter (·.kind.isIdentifier)).map Token.id).Nodup :=
      (nodup_tokens hn).sublist
        ((List.filter_sublist.trans (Node.childTokens_sublist v.node)).map _)
    have hsub : ∀ t ∈ v.node.childTokens.filter (·.kind.isIdentifier), t ∈ v.node.childTokens :=
      fun t ht => (List.mem_filter.1 ht).1
    unfold TypeName.ofNode? at htargets hnames ⊢
    rw [if_pos hkind] at htargets hnames
    rw [if_pos hkind, if_pos (halike.kind_eq.trans hkind)]
    generalize v.node.childTokens.filter (·.kind.isIdentifier) = l at *
    generalize n'.childTokens.filter (·.kind.isIdentifier) = l' at hidentifiers
    cases hidentifiers with
    | nil => exact .none
    | @cons t t' l l' ht hl =>
      cases hl with
      | nil =>
        obtain ⟨hmarked, hown⟩ := htargets rfl rfl
        exact .some ⟨rfl, hfresh t List.mem_cons_self, p t, ht.text, hmarked, hown⟩
      | @cons name name' l l' hname hl =>
        cases hl with
        | cons => exact .none
        | nil =>
          -- The qualifier names nothing.
          have hne : t.id ≠ name.id := by
            rw [List.map_cons, List.nodup_cons] at hnodup
            exact fun heq => hnodup.1 (heq ▸ List.mem_cons_self)
          have hq := h.not_marked hv (by rw [hkind]; decide) (hsub t List.mem_cons_self)
            fun a ha => by
              rw [hnames rfl rfl a ha]
              exact hne
          obtain ⟨hmarked, hown⟩ := htargets rfl rfl
          refine .some ⟨congrArg some (text_eq ht hq), hfresh name (by simp), p name, hname.text,
            hmarked, hown⟩
  · unfold TypeName.ofNode?
    rw [if_neg hkind, if_neg fun h => hkind (halike.kind_eq.symm.trans h)]
    exact .none

/-- The first type name right below a node, in its new form. -/
theorem below?_renames (h : ρ.Marks (contextSeeing scope m u imports) source p)
    (hscope : ∀ m, (scope m).module = m) (hn : n ∈ (Tree.ofSource source).root.preorder)
    (halike : n.Alike (Token.Renamed p ρ.new) n') :
    Option.Rel (ρ.RenamesName scope m) (TypeName.below? n) (TypeName.below? n') :=
  findSome?_rel (forall₂_mem halike.children) fun _ _ hc =>
    h.ofNode?_renames hscope (Node.preorder_trans hn (Node.mem_preorder_child hc.1)) hc.2.2

theorem itemType?_renames (h : ρ.Marks (contextSeeing scope m u imports) source p)
    (hscope : ∀ m, (scope m).module = m) (hn : n ∈ (Tree.ofSource source).root.preorder)
    (halike : n.Alike (Token.Renamed p ρ.new) n') :
    Option.Rel (ρ.RenamesName scope m) (itemType? n) (itemType? n') := by
  have hchildren := forall₂_mem halike.children
  have hmem : ∀ k ∈ n.children, k ∈ (Tree.ofSource source).root.preorder := fun k hk =>
    Node.preorder_trans hn (Node.mem_preorder_child hk)
  rw [itemType?, itemType?, halike.kind_eq]
  split
  · refine bind_rel (find?_rel hchildren fun k k' hk => ?_) fun k k' hk =>
      h.below?_renames hscope (hmem k hk.1) hk.2.2
    rw [hk.2.2.kind_eq]
  · exact bind_rel (head?_rel hchildren) fun k k' hk =>
      h.ofNode?_renames hscope (hmem k hk.1) hk.2.2
  · exact h.below?_renames hscope hn halike

/-! ## Declarations -/

/-- A declaration whose name is marked exactly if it declares the symbol. -/
theorem declaredSymbol_renames {q q' : SymbolPath} {kind : SymbolKind} {detail detail' : String}
    (hmarked : p t ↔ SymbolId.ofPath q = ρ.target)
    (hpath : SymbolId.ofPath q = ρ.target → q = ρ.path) (hlast : q.lastName = t.text)
    (ht : t.Renamed p ρ.new t') (hfresh : t.text ≠ ρ.new)
    (hnew : q = ρ.path → t'.text = ρ.new → q' = ρ.newPath) :
    ρ.Renames (declaredSymbol q t kind m u detail) (declaredSymbol q' t' kind m u detail') where
  fresh := hfresh
  kind := rfl
  owner := rfl
  declaration := rfl
  target hid := by
    have heq := hpath hid
    have hname : t'.text = ρ.new := by rw [ht.text, if_pos (hmarked.2 hid)]
    exact ⟨hlast.symm.trans (congrArg SymbolPath.lastName heq), hname,
      congrArg SymbolId.ofPath (hnew heq hname)⟩
  other hid := by
    have hname : p t = false := Bool.eq_false_iff.2 fun hp => hid (hmarked.1 hp)
    exact text_eq ht hname

theorem item_newPath {x : String} (h : SymbolPath.item m x = ρ.path) :
    SymbolPath.item m ρ.new = ρ.newPath := by
  rw [newPath, ← h]

theorem itemField_newPath {x y : String} (h : SymbolPath.field (.item m x) y = ρ.path) :
    SymbolPath.field (.item m x) ρ.new = ρ.newPath := by
  rw [newPath, ← h]

/-- The field of a declared record, in its new form. -/
theorem fieldOf?_renames {x x' : String} (h : ρ.Marks (contextSeeing scope m u imports) source p)
    (hscope : ∀ m, (scope m).module = m) (hn : n ∈ (Tree.ofSource source).root.preorder)
    (halike : n.Alike (Token.Renamed p ρ.new) n')
    (hx : ∀ y, SymbolPath.field (.item m x) y = ρ.path → x' = x)
    (hmarked : ∀ g, fieldOf? m u (.item m x) n = some g → ∀ t ∈ sourceTokens source, t.id = g.name →
      (p t ↔ g.symbol.id = ρ.target))
    (hpath : ∀ y, n.identifierAt? 0 = some y →
      SymbolId.ofPath (.field (.item m x) y.text) = ρ.target →
        SymbolPath.field (.item m x) y.text = ρ.path) :
    Option.Rel (ρ.RenamesField scope m) (fieldOf? m u (.item m x) n) (fieldOf? m u (.item m x') n') := by
  have hbelow := h.below?_renames hscope hn halike
  unfold fieldOf? at hmarked ⊢
  rcases rel_cases (halike.identifierAt? (fun _ _ h => h.kind) 0) with
    ⟨hname, hname'⟩ | ⟨t, t', hname, hname', ht⟩
  · rw [hname, hname']
    exact .none
  · obtain ⟨hchild, hkind⟩ := identifierAt?_eq_some hname
    have hmem := mem_of_childToken hn hchild
    rw [hname] at hmarked
    have hiff := hmarked _ rfl t hmem rfl
    rw [hname, hname']
    refine .some ⟨halike.id_eq, ht.id, ?_, ?_, hbelow⟩
    · refine declaredSymbol_renames hiff (hpath t hname) rfl ht (h.fresh t hmem hkind) ?_
      intro heq hnew
      rw [hnew, hx t.text heq]
      exact itemField_newPath heq
    · rintro hid ⟨m', y, hitem⟩
      have heq := hpath t hname hid
      rw [hitem] at heq
      cases heq

/-- The fields of a declaration, in their new form. -/
theorem itemFields_renames {t : Token} {x' : String}
    (h : ρ.Marks (contextSeeing scope m u imports) source p) (hscope : ∀ m, (scope m).module = m)
    (hn : n ∈ (Tree.ofSource source).root.preorder) (halike : n.Alike (Token.Renamed p ρ.new) n')
    (hname : n.identifierAt? 1 = some t)
    (hx : ∀ y, SymbolPath.field (.item m t.text) y = ρ.path → x' = t.text)
    (hmarked : ∀ g ∈ itemFields m u (.item m t.text) n, ∀ k ∈ sourceTokens source, k.id = g.name →
      (p k ↔ g.symbol.id = ρ.target))
    (hpaths : ∀ q ∈ itemPaths m n, SymbolId.ofPath q = ρ.target → q = ρ.path) :
    List.Forall₂ (ρ.RenamesField scope m) (itemFields m u (.item m t.text) n)
      (itemFields m u (.item m x') n') := by
  rw [itemFields_eq] at hmarked ⊢
  rw [itemFields_eq, halike.kind_eq]
  by_cases htype : n.kind = .typeDefinition
  · rw [if_pos htype] at hmarked ⊢
    rw [if_pos htype]
    rcases rel_cases (head?_rel (forall₂_mem halike.children)) with
      ⟨hbody, hbody'⟩ | ⟨body, body', hbody, hbody', hmem, -, hb⟩
    · rw [hbody, hbody']
      exact .nil
    · rw [hbody, Option.elim_some] at hmarked ⊢
      rw [hbody', Option.elim_some, hb.kind_eq]
      by_cases hrecord : body.kind = .recordTypeDescriptor
      · rw [if_pos hrecord] at hmarked ⊢
        rw [if_pos hrecord]
        refine List.rel_filterMap (fun f f' hf => ?_) (forall₂_mem hb.children)
        have hroot := Node.preorder_trans hn (Node.preorder_trans
          (Node.mem_preorder_child hmem) (Node.mem_preorder_child hf.1))
        exact h.fieldOf?_renames hscope hroot hf.2.2 hx
          (fun g hg => hmarked g (List.mem_filterMap.2 ⟨f, hf.1, hg⟩))
          fun y hy => hpaths _ (field_mem_itemPaths hname htype hbody hrecord hf.1 hy)
      · rw [if_neg hrecord, if_neg hrecord]
        exact .nil
  · rw [if_neg htype, if_neg htype]
    exact .nil

/-- **A declaration** with its fields, in its new form. -/
theorem itemOf?_renames (h : ρ.Marks (contextSeeing scope m u imports) source p)
    (hscope : ∀ m, (scope m).module = m) (hn : n ∈ (Tree.ofSource source).root.preorder)
    (halike : n.Alike (Token.Renamed p ρ.new) n') :
    Option.Rel (ρ.RenamesItem scope m) (itemOf? m u n) (itemOf? m u n') := by
  obtain ⟨v, hv, rfl⟩ := exists_visit (c := contextSeeing scope m u imports) hn
  have hidentifier := halike.identifierAt? (fun _ _ h => h.kind) 1
  cases hitem : itemOf? m u v.node with
  | none =>
    unfold itemOf? at hitem ⊢
    rw [halike.kind_eq]
    rcases rel_cases hidentifier with ⟨-, ht'⟩ | ⟨t, t', ht, -, -⟩
    · rw [ht']
      cases declaredKind? v.node.kind <;> exact .none
    · cases hkind : declaredKind? v.node.kind with
      | none => exact .none
      | some kind =>
        rw [hkind, ht] at hitem
        cases hitem
  | some item =>
    obtain ⟨kind, t, hkind, hname, htoken, htype, hfields, hsymbol⟩ := itemOf?_eq_some hitem
    obtain ⟨t', hname', ht⟩ := exists_of_rel hidentifier hname
    obtain ⟨hchild, hidentifierKind⟩ := identifierAt?_eq_some hname
    have hmem := mem_of_childToken hn hchild
    have hitem' : itemOf? m u n' = some
        { name := t'.id
          symbol := declaredSymbol (.item m t'.text) t' kind m u (itemDetail n' t')
          type := itemType? n'
          fields := itemFields m u (.item m t'.text) n' } := by
      rw [itemOf?, halike.kind_eq, hkind, hname']
    have hnoted : v.noted (contextSeeing scope m u imports) = itemNotes v.node item := by
      rw [noted_item (by rw [hkind]; rfl), hitem]
      rfl
    have hpaths : ∀ q ∈ itemPaths m v.node, SymbolId.ofPath q = ρ.target → q = ρ.path :=
      fun q hq => h.paths q (itemPaths_mem hv hq)
    have hself : SymbolPath.item m t.text ∈ itemPaths m v.node := item_mem_itemPaths hkind hname
    have hmarked : p t ↔ item.symbol.id = ρ.target :=
      h.noted_iff (a := (v.node.id, ⟨item.symbol, item.name⟩)) hv
        (by rw [hnoted]; exact List.mem_cons_self) hmem htoken.symm
    rw [hsymbol] at hmarked
    rw [hitem']
    refine .some ⟨ht.id.trans htoken.symm, ?_, ?_, ?_, ?_⟩
    · rw [hsymbol]
      refine declaredSymbol_renames hmarked (hpaths _ hself) rfl ht
        (h.fresh t hmem hidentifierKind) fun heq hnew => ?_
      rw [hnew]
      exact item_newPath heq
    · intro hid
      rw [hsymbol] at hid
      exact ⟨m, t.text, (hpaths _ hself hid).symm⟩
    · rw [htype]
      exact h.itemType?_renames hscope hn halike
    · rw [hfields]
      refine h.itemFields_renames hscope hn halike hname ?_ ?_ hpaths
      · intro y heq
        refine text_eq ht (Bool.eq_false_iff.2 fun hp => ?_)
        have := hpaths _ hself (hmarked.1 hp)
        rw [← heq] at this
        cases this
      · intro g hg k hk hkname
        refine h.noted_iff (a := (g.node, ⟨g.symbol, g.name⟩)) hv ?_ hk hkname
        rw [hnoted, itemNotes, hfields]
        exact List.mem_cons_of_mem _ (List.mem_reverse.2 (List.mem_map_of_mem hg))

end Change.Marks

end Xref.Binding
