import Xref.Proofs.Syntax.Rewording

/-!
# Trees of texts with other words

The tree of a text in which identifiers have given way to another word has the same nodes with the
same numbers, and its tokens have the same numbers and kinds (`Tree.alike_replaceTokens`). Spans are
different.
-/

namespace Xref

/-! ## Lists related -/

section
variable {α β : Type} {R : α → β → Prop} {l : List α} {l' : List β}

theorem exists_right_of_forall₂ (h : List.Forall₂ R l l') {a : α} (ha : a ∈ l) :
    ∃ b ∈ l', R a b := by
  induction h with
  | nil => cases ha
  | cons hab _ ih =>
    rcases List.mem_cons.1 ha with rfl | ha
    · exact ⟨_, List.mem_cons_self, hab⟩
    · obtain ⟨b, hb, hab⟩ := ih ha
      exact ⟨b, List.mem_cons_of_mem _ hb, hab⟩

theorem exists_left_of_forall₂ (h : List.Forall₂ R l l') {b : β} (hb : b ∈ l') :
    ∃ a ∈ l, R a b := by
  obtain ⟨a, ha, hab⟩ := exists_right_of_forall₂ (R := fun b a => R a b) h.flip hb
  exact ⟨a, ha, hab⟩

theorem getElem?_rel (h : List.Forall₂ R l l') (i : Nat) : Option.Rel R l[i]? l'[i]? := by
  induction h generalizing i with
  | nil => exact .none
  | cons hab _ ih =>
    cases i with
    | zero => exact .some hab
    | succ i => exact ih i

theorem forall₂_mem (h : List.Forall₂ R l l') :
    List.Forall₂ (fun a b => a ∈ l ∧ b ∈ l' ∧ R a b) l l' := by
  rw [List.forall₂_iff_zip] at h ⊢
  refine ⟨h.1, fun {a b} hmem => ?_⟩
  obtain ⟨ha, hb⟩ := List.of_mem_zip hmem
  exact ⟨ha, hb, h.2 hmem⟩

theorem map_eq_of_forall₂ {γ : Type} {f : α → γ} {g : β → γ} (h : List.Forall₂ R l l')
    (hfg : ∀ a b, R a b → g b = f a) : l'.map g = l.map f := by
  induction h with
  | nil => rfl
  | cons hab _ ih => rw [List.map_cons, List.map_cons, hfg _ _ hab, ih]

theorem filterMap_eq_of_forall₂ {γ : Type} {f : α → Option γ} {g : β → Option γ}
    (h : List.Forall₂ R l l') (hfg : ∀ a b, R a b → g b = f a) :
    l'.filterMap g = l.filterMap f := by
  induction h with
  | nil => rfl
  | cons hab _ ih => rw [List.filterMap_cons, List.filterMap_cons, hfg _ _ hab, ih]

/-- What is found first among related things is related. -/
theorem find?_rel {p : α → Bool} {q : β → Bool} (h : List.Forall₂ R l l')
    (hpq : ∀ a b, R a b → q b = p a) : Option.Rel R (l.find? p) (l'.find? q) := by
  induction h with
  | nil => exact .none
  | @cons a b l l' hab _ ih =>
    rw [List.find?_cons, List.find?_cons, hpq a b hab]
    split
    · exact .some hab
    · exact ih

theorem filter_rel {p : α → Bool} {q : β → Bool} (h : List.Forall₂ R l l')
    (hpq : ∀ a b, R a b → q b = p a) : List.Forall₂ R (l.filter p) (l'.filter q) :=
  List.rel_filter (fun a b hab => by
    show p a ↔ q b
    rw [hpq a b hab]) h

theorem findSome?_rel {γ δ : Type} {S : γ → δ → Prop} {f : α → Option γ} {g : β → Option δ}
    (h : List.Forall₂ R l l') (hfg : ∀ a b, R a b → Option.Rel S (f a) (g b)) :
    Option.Rel S (l.findSome? f) (l'.findSome? g) := by
  induction h with
  | nil => exact .none
  | @cons a b l l' hab _ ih =>
    rw [List.findSome?_cons, List.findSome?_cons]
    have hrel := hfg a b hab
    generalize f a = o at hrel
    generalize g b = o' at hrel
    cases hrel with
    | none => exact ih
    | some h => exact .some h

/-- Of related options both are there, or neither is. -/
theorem rel_cases {o : Option α} {o' : Option β} (h : Option.Rel R o o') :
    (o = none ∧ o' = none) ∨ ∃ a b, o = some a ∧ o' = some b ∧ R a b := by
  cases h with
  | none => exact .inl ⟨rfl, rfl⟩
  | some hab => exact .inr ⟨_, _, rfl, rfl, hab⟩

theorem exists_of_rel {o : Option α} {o' : Option β} {a : α} (h : Option.Rel R o o')
    (ha : o = some a) : ∃ b, o' = some b ∧ R a b := by
  subst ha
  cases h with
  | some hab => exact ⟨_, rfl, hab⟩

theorem rel_eq_iff {o o' : Option α} : Option.Rel Eq o o' ↔ o = o' := by
  constructor
  · intro h
    cases h with
    | none => rfl
    | some hab => rw [hab]
  · rintro rfl
    cases o with
    | none => exact .none
    | some a => exact .some rfl

theorem tail_rel (h : List.Forall₂ R l l') : List.Forall₂ R l.tail l'.tail := by
  cases h with
  | nil => exact .nil
  | cons _ h => exact h

theorem modifyHead_rel {f : α → α} {g : β → β} (h : List.Forall₂ R l l')
    (hfg : ∀ a b, R a b → R (f a) (g b)) :
    List.Forall₂ R (l.modifyHead f) (l'.modifyHead g) := by
  cases h with
  | nil => exact .nil
  | cons hab h => exact .cons (hfg _ _ hab) h

theorem head?_rel (h : List.Forall₂ R l l') : Option.Rel R l.head? l'.head? := by
  cases h with
  | nil => exact .none
  | cons hab _ => exact .some hab

theorem getLast?_rel (h : List.Forall₂ R l l') : Option.Rel R l.getLast? l'.getLast? := by
  rw [List.getLast?_eq_head?_reverse, List.getLast?_eq_head?_reverse]
  exact head?_rel (List.rel_reverse h)

theorem bind_rel {γ δ : Type} {S : γ → δ → Prop} {f : α → Option γ} {g : β → Option δ}
    {o : Option α} {o' : Option β} (h : Option.Rel R o o')
    (hfg : ∀ a b, R a b → Option.Rel S (f a) (g b)) : Option.Rel S (o.bind f) (o'.bind g) := by
  cases h with
  | none => exact .none
  | some hab => exact hfg _ _ hab

end

/-! ## Nodes alike -/

mutual

/-- Whether two nodes differ in spans and tokens only, and the tokens are related by `R`. -/
def Node.Alike (R : Token → Token → Prop) : Node → Node → Prop
  | ⟨id, kind, _, _, slots⟩, ⟨id', kind', _, _, slots'⟩ =>
    id' = id ∧ kind' = kind ∧ Node.slotsAlike R slots slots'

/-- Whether the slots of two nodes are alike. -/
def Node.slotsAlike (R : Token → Token → Prop) : List Child → List Child → Prop
  | [], [] => True
  | .node n :: rest, .node n' :: rest' => n.Alike R n' ∧ Node.slotsAlike R rest rest'
  | .token t :: rest, .token t' :: rest' => R t t' ∧ Node.slotsAlike R rest rest'
  | .missing :: rest, .missing :: rest' => Node.slotsAlike R rest rest'
  | _, _ => False

end

namespace Node

/-- Whether two slots are alike. -/
inductive SlotAlike (R : Token → Token → Prop) : Child → Child → Prop
  | node {n n' : Node} : n.Alike R n' → SlotAlike R (.node n) (.node n')
  | token {t t' : Token} : R t t' → SlotAlike R (.token t) (.token t')
  | missing : SlotAlike R .missing .missing

variable {R S : Token → Token → Prop} {n n' m : Node} {t t' : Token}

theorem slotsAlike_iff {slots slots' : List Child} :
    slotsAlike R slots slots' ↔ List.Forall₂ (SlotAlike R) slots slots' := by
  induction slots generalizing slots' with
  | nil => cases slots' <;> simp [slotsAlike]
  | cons s slots ih =>
    cases slots' with
    | nil => cases s <;> simp [slotsAlike]
    | cons s' slots' =>
      rw [List.forall₂_cons, ← ih]
      constructor
      · cases s <;> cases s' <;> simp only [slotsAlike, false_imp_iff]
        · exact fun h => ⟨.node h.1, h.2⟩
        · exact fun h => ⟨.token h.1, h.2⟩
        · exact fun h => ⟨.missing, h⟩
      · rintro ⟨hs, h⟩
        cases hs with
        | node hn => exact ⟨hn, h⟩
        | token ht => exact ⟨ht, h⟩
        | missing => exact h

namespace Alike

theorem id_eq (h : n.Alike R n') : n'.id = n.id := by
  cases n
  cases n'
  exact h.1

theorem kind_eq (h : n.Alike R n') : n'.kind = n.kind := by
  cases n
  cases n'
  exact h.2.1

theorem slots (h : n.Alike R n') : List.Forall₂ (SlotAlike R) n.slots n'.slots := by
  cases n
  cases n'
  exact slotsAlike_iff.1 h.2.2

theorem children (h : n.Alike R n') : List.Forall₂ (Alike R) n.children n'.children := by
  refine List.rel_filterMap (fun _ _ hs => ?_) h.slots
  cases hs with
  | node hn => exact .some hn
  | token => exact .none
  | missing => exact .none

theorem childTokens (h : n.Alike R n') : List.Forall₂ R n.childTokens n'.childTokens := by
  refine List.rel_filterMap (fun _ _ hs => ?_) h.slots
  cases hs with
  | node => exact .none
  | token ht => exact .some ht
  | missing => exact .none

/-- Tokens correspond one to one. -/
theorem tokens (h : n.Alike R n') : List.Forall₂ R n.tokens n'.tokens := by
  induction n using Node.induct generalizing n' with
  | h n ih =>
    rw [tokens_eq, tokens_eq n']
    refine List.rel_flatMap (forall₂_mem h.slots) fun s s' hs => ?_
    obtain ⟨hmem, -, hs⟩ := hs
    cases hs with
    | node hc => exact ih _ (mem_children.2 hmem) hc
    | token ht => exact .cons ht .nil
    | missing => exact .nil

/-- A node of the tree below corresponds to one below the other. -/
theorem preorder (h : n.Alike R n') : List.Forall₂ (Alike R) n.preorder n'.preorder := by
  induction n using Node.induct generalizing n' with
  | h n ih =>
    rw [preorder_eq, preorder_eq n']
    exact .cons h (List.rel_flatMap (forall₂_mem h.children) fun c c' hc => ih c hc.1 hc.2.2)

/-- The chain of nodes to a token corresponds to one in the other tree. -/
theorem leads (h : n.Alike R n') {path : List Node} (hpath : n.Leads path t) :
    ∃ path' t', n'.Leads path' t' ∧ R t t' ∧ List.Forall₂ (Alike R) path path' := by
  induction hpath generalizing n' with
  | token ht =>
    obtain ⟨_, ht', hslot⟩ := exists_right_of_forall₂ h.slots ht
    cases hslot with
    | token hR => exact ⟨[n'], _, .token ht', hR, .cons h .nil⟩
  | node hc _ ih =>
    obtain ⟨_, hc', hslot⟩ := exists_right_of_forall₂ h.slots hc
    cases hslot with
    | node hnode =>
      obtain ⟨path', t', hpath', hR, hall⟩ := ih hnode
      exact ⟨n' :: path', t', .node hc' hpath', hR, .cons h hall⟩

theorem imp (h : n.Alike R n') (hRS : ∀ t ∈ n.tokens, ∀ t' ∈ n'.tokens, R t t' → S t t') :
    n.Alike S n' := by
  induction n using Node.induct generalizing n' with
  | h n ih =>
    obtain ⟨id, kind, full, ends, slots⟩ := n
    obtain ⟨id', kind', full', ends', slots'⟩ := n'
    refine ⟨h.1, h.2.1, slotsAlike_iff.2 ?_⟩
    have hslots := h.slots
    rw [List.forall₂_iff_zip] at hslots ⊢
    refine ⟨hslots.1, fun {s s'} hmem => ?_⟩
    obtain ⟨hs, hs'⟩ := List.of_mem_zip hmem
    have htokens : ∀ {m : Node} {s : Child} {t : Token}, s ∈ m.slots → t ∈ slotTokens s →
        t ∈ m.tokens := fun {m s t} hs ht => by
      rw [tokens_eq]
      exact List.mem_flatMap.2 ⟨s, hs, ht⟩
    cases hslots.2 hmem with
    | node hnode =>
      refine .node (ih _ (mem_children.2 hs) hnode fun t ht t' ht' => hRS t ?_ t' ?_)
      · exact htokens hs ht
      · exact htokens hs' ht'
    | token ht =>
      refine .token (hRS _ ?_ _ ?_ ht)
      · exact htokens hs (List.mem_singleton_self _)
      · exact htokens hs' (List.mem_singleton_self _)
    | missing => exact .missing

/-- Identifiers stand in the same slots. -/
theorem identifierAt? (h : n.Alike R n') (hkind : ∀ t t', R t t' → t'.kind = t.kind) (i : Nat) :
    Option.Rel R (n.identifierAt? i) (n'.identifierAt? i) := by
  have hslot := getElem?_rel h.slots i
  unfold Node.identifierAt?
  cases hs : n.slots[i]? with
  | none =>
    rw [hs] at hslot
    cases hs' : n'.slots[i]? with
    | none => exact .none
    | some s' => rw [hs'] at hslot; cases hslot
  | some s =>
    rw [hs] at hslot
    cases hs' : n'.slots[i]? with
    | none => rw [hs'] at hslot; cases hslot
    | some s' =>
      rw [hs'] at hslot
      obtain ⟨hslot⟩ := hslot
      cases hslot with
      | node => exact .none
      | missing => exact .none
      | @token t t' ht =>
        simp only [Option.bind_some, Slot.token?, Option.filter_some, hkind t t' ht]
        split
        · exact .some ht
        · exact .none

/-- A node starts with a token if the other does. -/
theorem firstToken (h : n.Alike R n') :
    Option.Rel R (n.slots.head?.bind Slot.token?) (n'.slots.head?.bind Slot.token?) := by
  refine bind_rel (head?_rel h.slots) fun _ _ hslot => ?_
  cases hslot with
  | node => exact .none
  | token ht => exact .some ht
  | missing => exact .none

/-- The identifiers right below a node. -/
theorem identifiers (h : n.Alike R n') (hkind : ∀ t t', R t t' → t'.kind = t.kind) :
    List.Forall₂ R (n.childTokens.filter (·.kind.isIdentifier))
      (n'.childTokens.filter (·.kind.isIdentifier)) :=
  filter_rel h.childTokens fun t t' ht => by rw [hkind t t' ht]

end Alike

end Node

/-! ## Trees alike -/

section
variable {S : Lexeme → Lexeme → Prop}

mutual

/-- Phrases that are alike make nodes that are alike. -/
theorem alike_placed : ∀ (q q' : Phrase) (p p' : Place), q.Alike S q' → p'.token = p.token →
    p'.node = p.node →
    (q.placed p).1.Alike (fun t t' => t'.id = t.id ∧ S t.lexeme t'.lexeme) (q'.placed p').1 ∧
      (q'.placed p').2.token = (q.placed p).2.token ∧ (q'.placed p').2.node = (q.placed p).2.node
  | ⟨_, slots⟩, ⟨_, slots'⟩, p, p', h, htoken, hnode => by
    obtain ⟨hslots, htoken', hnode'⟩ := alike_placedParts slots slots' p p' h.2 htoken hnode
    exact ⟨⟨hnode', h.1, hslots⟩, htoken', congrArg (· + 1) hnode'⟩

theorem alike_placedParts : ∀ (qs qs' : List Part) (p p' : Place), partsAlike S qs qs' →
    p'.token = p.token → p'.node = p.node →
    Node.slotsAlike (fun t t' => t'.id = t.id ∧ S t.lexeme t'.lexeme) (placedParts qs p).1
        (placedParts qs' p').1 ∧
      (placedParts qs' p').2.token = (placedParts qs p).2.token ∧
      (placedParts qs' p').2.node = (placedParts qs p).2.node
  | [], [], _, _, _, htoken, hnode => ⟨trivial, htoken, hnode⟩
  | .node q :: rest, .node q' :: rest', p, p', h, htoken, hnode => by
    obtain ⟨hfirst, htoken', hnode'⟩ := alike_placed q q' p p' h.1 htoken hnode
    obtain ⟨hothers, htoken'', hnode''⟩ :=
      alike_placedParts rest rest' _ _ h.2 htoken' hnode'
    exact ⟨⟨hfirst, hothers⟩, htoken'', hnode''⟩
  | .token l :: rest, .token l' :: rest', p, p', h, htoken, hnode => by
    obtain ⟨hothers, htoken', hnode'⟩ := alike_placedParts rest rest' (p.behindToken l)
      (p'.behindToken l') h.2 (congrArg (· + 1) htoken) hnode
    exact ⟨⟨⟨htoken, h.1⟩, hothers⟩, htoken', hnode'⟩
  | .missing :: rest, .missing :: rest', p, p', h, htoken, hnode =>
    alike_placedParts rest rest' p p' h htoken hnode

end

end

theorem discerning_reworded : Discerning Lexeme.Reworded := by
  rintro l l' (rfl | ⟨hkind, _, _, _, rfl⟩)
  · exact ⟨rfl, fun _ => rfl⟩
  · exact ⟨rfl, fun hne => absurd hkind hne⟩

/-- **The tree of a text with other words** is alike, and its tokens have the new texts. -/
theorem Tree.alike_respelled {ρ : Token → Option String} {source source' : String}
    (hρ : Respells ρ source) (hsource : source'.toList =
      ((sourceTokens source).map (Token.respelled ρ)).flatMap Lexeme.chars) :
    (Tree.ofSource source).root.Alike (fun t t' => t'.id = t.id ∧ t'.lexeme = t.respelled ρ)
      (Tree.ofSource source').root := by
  have hscan := scan_respelled hρ hsource
  have hphrase : (Phrase.ofSource source).Alike Lexeme.Reworded (Phrase.ofSource source') := by
    refine Phrase.alike_ofSource discerning_reworded ?_ ?_
    · rw [hscan]
      exact forall₂_reworded hρ
    · rw [hscan]
      exact .inl rfl
  have halike : (Tree.ofSource source).root.Alike
      (fun t t' => t'.id = t.id ∧ Lexeme.Reworded t.lexeme t'.lexeme)
      (Tree.ofSource source').root :=
    (alike_placed _ _ .start .start hphrase rfl rfl).1
  -- Tokens with one number are the same token before and after.
  refine halike.imp fun t ht t' ht' h => ⟨h.1, ?_⟩
  rw [Tree.tokens_root] at ht ht'
  have hlexeme := (lexeme_of_mem ht').1
  rw [lex_respelled hρ hsource, h.1, List.getElem?_map, mem_sourceTokens.1 ht,
    Option.map_some] at hlexeme
  exact (Option.some.inj hlexeme).symm

/-- What a token becomes if those that `p` holds of get a new text. -/
structure Token.Renamed (p : Token → Bool) (new : String) (t t' : Token) : Prop where
  id : t'.id = t.id
  kind : t'.kind = t.kind
  text : t'.text = if p t then new else t.text

section
variable {p : Token → Bool} {new source : String}
  (hp : ∀ t ∈ sourceTokens source, p t → t.kind = .identifier) (hword : isWord new)
  (hkind : wordKind new = .identifier)

include hp hword hkind

/-- Tokens of the two texts with one number correspond. -/
theorem renamed_of_id {t t' : Token} (ht : t ∈ sourceTokens source)
    (ht' : t' ∈ sourceTokens (replaceTokens p new source)) (hid : t'.id = t.id) :
    t.Renamed p new t' := by
  have hlexeme := (lexeme_of_mem ht').1
  rw [lex_replaceTokens hp hword hkind, hid, replaced, List.getElem?_map, mem_sourceTokens.1 ht,
    Option.map_some] at hlexeme
  have hlexeme := (Option.some.inj hlexeme).symm
  refine ⟨hid, ?_, ?_⟩
  · rw [Token.kind, hlexeme]
    split <;> rfl
  · rw [Token.text, hlexeme]
    split <;> rfl

theorem exists_renamed {t : Token} (ht : t ∈ sourceTokens source) :
    ∃ t' ∈ sourceTokens (replaceTokens p new source), t.Renamed p new t' := by
  have hget : (sourceTokens (replaceTokens p new source))[t.id]? = _ := getElem?_sourceTokens t.id
  rw [lex_replaceTokens hp hword hkind, replaced, List.getElem?_map, mem_sourceTokens.1 ht,
    Option.map_some, Option.map_some] at hget
  have hmem := List.mem_of_getElem? hget
  exact ⟨_, hmem, renamed_of_id hp hword hkind ht hmem rfl⟩

/-- **Replacing is undone** by replacing the same tokens with the text that they all had. -/
theorem replaceTokens_back {q : Token → Bool} {old : String}
    (hold : ∀ t ∈ sourceTokens source, p t → t.text = old)
    (hq : ∀ t ∈ sourceTokens source, ∀ t' ∈ sourceTokens (replaceTokens p new source),
      t'.id = t.id → q t' = p t) :
    replaceTokens q old (replaceTokens p new source) = source := by
  have hlex := lex_replaceTokens hp hword hkind
  have hback : replaced q old (sourceTokens (replaceTokens p new source)) = lex source := by
    refine List.ext_getElem? fun i => ?_
    have hget : (sourceTokens (replaceTokens p new source))[i]? = _ := getElem?_sourceTokens i
    have hlexeme : (sourceTokens source)[i]? = _ := getElem?_sourceTokens i
    rw [hlex, replaced, List.getElem?_map] at hget
    rw [replaced, List.getElem?_map]
    cases ht : (sourceTokens source)[i]? with
    | none =>
      rw [ht] at hget hlexeme
      rw [hget, Option.map_none, Option.map_none, Option.map_none]
      exact (Option.map_eq_none_iff.1 hlexeme.symm).symm
    | some t =>
      obtain ⟨l, hl, rfl⟩ := Option.map_eq_some_iff.1 (hlexeme.symm.trans ht)
      rw [ht, Option.map_some, Option.map_some] at hget
      rw [hget, Option.map_some, hl, hq _ (List.mem_of_getElem? ht) _ (List.mem_of_getElem? hget) rfl]
      split
      · rename_i hpt
        have hsame := hold _ (List.mem_of_getElem? ht) hpt
        exact congrArg (fun text => some (l.withText text)) hsame.symm
      · rfl
  rw [replaceTokens, hback, join_lex]

theorem Tree.alike_replaceTokens : (Tree.ofSource source).root.Alike (Token.Renamed p new)
    (Tree.ofSource (replaceTokens p new source)).root := by
  have htext : (replaceTokens p new source).toList =
      ((sourceTokens source).map (Token.respelled (oneText p new))).flatMap Lexeme.chars := by
    rw [← replaced_eq, toList_replaceTokens]
  have halike := Tree.alike_respelled (respells_oneText hp hword hkind) htext
  refine halike.imp fun t ht t' ht' h => ?_
  rw [Tree.tokens_root] at ht ht'
  exact renamed_of_id hp hword hkind ht ht' h.1

end

end Xref
