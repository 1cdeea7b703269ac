import Mathlib.Data.List.Nodup
import Mathlib.Data.List.Pairwise
import Xref.Syntax.Locate

/-!
# Nodes, the nodes below them and their tokens

A token that lies below a node is reached on a chain of nodes (`Node.Leads`). Where no two tokens
have the same number there is one chain for each (`Leads.unique`), so a token lies right below one
node only.
-/

namespace Xref

namespace Node

/-! ## Slots -/

mutual

/-- What holds of a node if it holds of the nodes right below it holds of every node. -/
theorem induct {P : Node → Prop} (h : ∀ n : Node, (∀ c ∈ n.children, P c) → P n) :
    ∀ n : Node, P n
  | ⟨id, kind, full, ends, slots⟩ => h ⟨id, kind, full, ends, slots⟩ (inductSlots h slots)

theorem inductSlots {P : Node → Prop} (h : ∀ n : Node, (∀ c ∈ n.children, P c) → P n) :
    ∀ slots : List Child, ∀ c ∈ slots.filterMap Slot.node?, P c
  | [], _, hc => nomatch hc
  | .node n :: rest, c, hc => by
    rcases List.mem_cons.1 hc with hc | hc
    · exact hc ▸ induct h n
    · exact inductSlots h rest c hc
  | .token _ :: rest, c, hc => inductSlots h rest c hc
  | .missing :: rest, c, hc => inductSlots h rest c hc

end

theorem mem_children {n c : Node} : c ∈ n.children ↔ .node c ∈ n.slots := by
  rw [children, List.mem_filterMap]
  constructor
  · rintro ⟨s, hs, hc⟩
    cases s <;> cases hc
    exact hs
  · exact fun hc => ⟨_, hc, rfl⟩

theorem mem_childTokens {n : Node} {t : Token} : t ∈ n.childTokens ↔ .token t ∈ n.slots := by
  rw [childTokens, List.mem_filterMap]
  constructor
  · rintro ⟨s, hs, ht⟩
    cases s <;> cases ht
    exact hs
  · exact fun ht => ⟨_, ht, rfl⟩

/-- The tokens in a slot. -/
def slotTokens : Child → List Token
  | .node n => n.tokens
  | .token t => [t]
  | .missing => []

theorem tokensOf_eq (slots : List Child) : tokensOf slots = slots.flatMap slotTokens := by
  induction slots with
  | nil => rfl
  | cons s rest ih =>
    cases s with
    | node n => rw [tokensOf_node, ih]; rfl
    | token t => rw [tokensOf_token, ih]; rfl
    | missing => rw [tokensOf_missing, ih]; rfl

theorem tokens_eq (n : Node) : n.tokens = n.slots.flatMap slotTokens := by
  cases n
  exact tokensOf_eq _

theorem preorderOf_eq (slots : List Child) :
    preorderOf slots = (slots.filterMap Slot.node?).flatMap preorder := by
  induction slots with
  | nil => rfl
  | cons s rest ih => cases s <;> simp [preorderOf, List.filterMap_cons, Slot.node?, ih]

theorem preorder_eq (n : Node) : n.preorder = n :: n.children.flatMap preorder := by
  cases n
  exact congrArg (_ :: ·) (preorderOf_eq _)

theorem mem_preorder {n m : Node} : m ∈ n.preorder ↔ m = n ∨ ∃ c ∈ n.children, m ∈ c.preorder := by
  rw [preorder_eq, List.mem_cons, List.mem_flatMap]

theorem self_mem_preorder (n : Node) : n ∈ n.preorder := mem_preorder.2 (.inl rfl)

theorem mem_preorder_child {n c : Node} (hc : c ∈ n.children) : c ∈ n.preorder :=
  mem_preorder.2 (.inr ⟨c, hc, c.self_mem_preorder⟩)

theorem preorder_trans {n m k : Node} (hm : m ∈ n.preorder) (hk : k ∈ m.preorder) :
    k ∈ n.preorder := by
  induction n using induct with
  | h n ih =>
    rcases mem_preorder.1 hm with rfl | ⟨c, hc, hm⟩
    · exact hk
    · exact mem_preorder.2 (.inr ⟨c, hc, ih c hc hm⟩)

/-- Nodes below a node in either order are the same. -/
theorem mem_postorder {n m : Node} : m ∈ n.postorder ↔ m ∈ n.preorder := by
  have hslots : ∀ slots : List Child,
      postorderOf slots = (slots.filterMap Slot.node?).flatMap postorder := by
    intro slots
    induction slots with
    | nil => rfl
    | cons s rest ih => cases s <;> simp [postorderOf, List.filterMap_cons, Slot.node?, ih]
  induction n using induct with
  | h n ih =>
    have hpost : n.postorder = n.children.flatMap postorder ++ [n] := by
      cases n
      exact congrArg (· ++ _) (hslots _)
    rw [hpost, mem_preorder, List.mem_append, List.mem_singleton, List.mem_flatMap, or_comm]
    exact or_congr_right (exists_congr fun c => and_congr_right fun hc => ih c hc)

/-! ## Chains of nodes -/

/-- Whether the nodes lead one below the other from `n` down to a token. -/
inductive Leads : Node → List Node → Token → Prop
  | token {n : Node} {t : Token} : .token t ∈ n.slots → Leads n [n] t
  | node {n c : Node} {path : List Node} {t : Token} :
    .node c ∈ n.slots → Leads c path t → Leads n (n :: path) t

namespace Leads

variable {n m : Node} {path path' : List Node} {t t' : Token}

theorem mem_tokens (h : Leads n path t) : t ∈ n.tokens := by
  induction h with
  | token ht => rw [tokens_eq, List.mem_flatMap]; exact ⟨_, ht, List.mem_singleton_self _⟩
  | node hc _ ih => rw [tokens_eq, List.mem_flatMap]; exact ⟨_, hc, ih⟩

theorem mem_preorder (h : Leads n path t) (hm : m ∈ path) : m ∈ n.preorder := by
  induction h with
  | token => rw [List.mem_singleton.1 hm]; exact self_mem_preorder _
  | node hc _ ih =>
    rcases List.mem_cons.1 hm with rfl | hm
    · exact self_mem_preorder _
    · exact Node.mem_preorder.2 (.inr ⟨_, mem_children.2 hc, ih hm⟩)

/-- A token right below a node is reached through this node. -/
theorem of_childToken (hm : m ∈ n.preorder) (ht : t ∈ m.childTokens) :
    ∃ path, Leads n (path ++ [m]) t := by
  induction n using induct with
  | h n ih =>
    rcases Node.mem_preorder.1 hm with rfl | ⟨c, hc, hm⟩
    · exact ⟨[], .token (mem_childTokens.1 ht)⟩
    · obtain ⟨path, hpath⟩ := ih c hc hm
      exact ⟨n :: path, .node (mem_children.1 hc) hpath⟩

/-- A token below a node is reached from it. -/
theorem of_mem_tokens (ht : t ∈ n.tokens) : ∃ path, Leads n path t := by
  induction n using induct with
  | h n ih =>
    rw [tokens_eq, List.mem_flatMap] at ht
    obtain ⟨s, hs, ht⟩ := ht
    cases s with
    | node c =>
      obtain ⟨path, hpath⟩ := ih c (mem_children.2 hs) ht
      exact ⟨n :: path, .node hs hpath⟩
    | token u =>
      obtain rfl := List.mem_singleton.1 ht
      exact ⟨[n], .token hs⟩
    | missing => cases ht

/-- The last node of a chain is right above the token. -/
theorem childToken_getLast (h : Leads n path t) : ∃ m, path.getLast? = some m ∧ t ∈ m.childTokens := by
  induction h with
  | token ht => exact ⟨_, rfl, mem_childTokens.2 ht⟩
  | node _ hpath ih =>
    obtain ⟨m, hm, ht⟩ := ih
    refine ⟨m, ?_, ht⟩
    cases hpath <;> exact hm

/-- Slots of one node that hold tokens of one number are the same slot. -/
theorem slot_unique {slots : List Child} (hids : ((slots.flatMap slotTokens).map Token.id).Nodup)
    {s s' : Child} (hs : s ∈ slots) (hs' : s' ∈ slots) (ht : t ∈ slotTokens s)
    (ht' : t' ∈ slotTokens s') (hid : t.id = t'.id) : s = s' := by
  by_contra hne
  rw [List.map_flatMap, List.nodup_flatMap] at hids
  have : Std.Symm (Function.onFun List.Disjoint fun s => (slotTokens s).map Token.id) :=
    ⟨fun _ _ h _ ha hb => h hb ha⟩
  exact hids.2.forall hs hs' hne (List.mem_map_of_mem ht) (hid ▸ List.mem_map_of_mem ht')

theorem nodup_slot {slots : List Child} (hids : ((slots.flatMap slotTokens).map Token.id).Nodup)
    {s : Child} (hs : s ∈ slots) : ((slotTokens s).map Token.id).Nodup := by
  rw [List.map_flatMap, List.nodup_flatMap] at hids
  exact hids.1 s hs

/-- **There is one chain to each token,** where tokens have different numbers. -/
theorem unique (hids : (n.tokens.map Token.id).Nodup) (h : Leads n path t)
    (h' : Leads n path' t') (hid : t.id = t'.id) : path = path' ∧ t = t' := by
  induction h generalizing path' with
  | token ht =>
    rw [tokens_eq] at hids
    cases h' with
    | token ht' =>
      cases slot_unique hids ht ht' (List.mem_singleton_self _) (List.mem_singleton_self _) hid
      exact ⟨rfl, rfl⟩
    | node hc' hpath' =>
      cases slot_unique hids ht hc' (List.mem_singleton_self _) hpath'.mem_tokens hid
  | node hc hpath ih =>
    rw [tokens_eq] at hids
    cases h' with
    | token ht' =>
      cases slot_unique hids hc ht' hpath.mem_tokens (List.mem_singleton_self _) hid
    | node hc' hpath' =>
      cases slot_unique hids hc hc' hpath.mem_tokens hpath'.mem_tokens hid
      obtain ⟨rfl, rfl⟩ := ih (nodup_slot hids hc) hpath' hid
      exact ⟨rfl, rfl⟩

end Leads

theorem tokens_subset {n m : Node} (hm : m ∈ n.preorder) : m.tokens ⊆ n.tokens := by
  induction n using induct with
  | h n ih =>
    rcases mem_preorder.1 hm with rfl | ⟨c, hc, hm⟩
    · exact fun _ ht => ht
    · intro t ht
      rw [tokens_eq, List.mem_flatMap]
      exact ⟨_, mem_children.1 hc, ih c hc hm ht⟩

theorem childTokens_subset {n m : Node} (hm : m ∈ n.preorder) : m.childTokens ⊆ n.tokens := by
  intro t ht
  refine tokens_subset hm ?_
  rw [tokens_eq, List.mem_flatMap]
  exact ⟨_, mem_childTokens.1 ht, List.mem_singleton_self _⟩

/-- A token lies right below one node only. -/
theorem parent_unique {n m m' : Node} {t t' : Token} (hids : (n.tokens.map Token.id).Nodup)
    (hm : m ∈ n.preorder) (hm' : m' ∈ n.preorder) (ht : t ∈ m.childTokens)
    (ht' : t' ∈ m'.childTokens) (hid : t.id = t'.id) : m = m' := by
  obtain ⟨path, h⟩ := Leads.of_childToken hm ht
  obtain ⟨path', h'⟩ := Leads.of_childToken hm' ht'
  have := (h.unique hids h' hid).1
  simpa using congrArg List.getLast? this

/-! ## Nodes above nodes -/

/-- What lies right below a node of a tree lies below one of the nodes right below its root. -/
theorem mem_below {n m c : Node} (hm : m ∈ n.preorder) (hc : c ∈ m.children) :
    ∃ k ∈ n.children, c ∈ k.preorder := by
  rcases mem_preorder.1 hm with rfl | ⟨k, hk, hm⟩
  · exact ⟨c, hc, c.self_mem_preorder⟩
  · exact ⟨k, hk, preorder_trans hm (mem_preorder_child hc)⟩

section
variable {n m m' c : Node} (hids : (n.preorder.map Node.id).Nodup)

include hids

theorem nodup_child (hc : c ∈ n.children) : (c.preorder.map Node.id).Nodup := by
  rw [preorder_eq, List.map_cons, List.nodup_cons, List.map_flatMap, List.nodup_flatMap] at hids
  exact hids.2.1 c hc

/-- No node lies below itself. -/
theorem self_not_below (hc : c ∈ n.children) : n ∉ c.preorder := by
  rw [preorder_eq, List.map_cons, List.nodup_cons] at hids
  exact fun h => hids.1 (List.mem_map_of_mem (List.mem_flatMap.2 ⟨c, hc, h⟩))

/-- What lies below different children of a node is different. -/
theorem child_unique {k k' : Node} (hk : k ∈ n.children) (hk' : k' ∈ n.children)
    (hc : c ∈ k.preorder) (hc' : c ∈ k'.preorder) : k = k' := by
  rw [preorder_eq, List.map_cons, List.nodup_cons, List.map_flatMap, List.nodup_flatMap] at hids
  have hsymm : Std.Symm (Function.onFun List.Disjoint fun k : Node => k.preorder.map Node.id) :=
    ⟨fun _ _ h _ ha hb => h hb ha⟩
  by_contra hne
  have hapart := hids.2.2.forall hk hk' hne
  exact hapart (List.mem_map_of_mem hc) (List.mem_map_of_mem hc')

/-- A node lies right below one node only. -/
theorem above_unique (hm : m ∈ n.preorder) (hm' : m' ∈ n.preorder) (hc : c ∈ m.children)
    (hc' : c ∈ m'.children) : m = m' := by
  induction n using induct with
  | h n ih =>
    -- A child of the root is no node below a child of the root.
    have hchild : ∀ {k m}, k ∈ n.children → m ∈ k.preorder → c ∈ n.children → c ∈ m.children →
        False := by
      intro k m hk hm hcn hcm
      have hbelow := preorder_trans hm (mem_preorder_child hcm)
      obtain rfl := child_unique hids hcn hk c.self_mem_preorder hbelow
      obtain ⟨j, hj, hmem⟩ := mem_below hm hcm
      exact self_not_below (nodup_child hids hk) hj hmem
    rcases mem_preorder.1 hm with rfl | ⟨k, hk, hmk⟩ <;>
      rcases mem_preorder.1 hm' with rfl | ⟨k', hk', hmk'⟩
    · rfl
    · exact (hchild hk' hmk' hc hc').elim
    · exact (hchild hk hmk hc' hc).elim
    · obtain rfl := child_unique hids hk hk' (preorder_trans hmk (mem_preorder_child hc))
        (preorder_trans hmk' (mem_preorder_child hc'))
      exact ih k hk (nodup_child hids hk) hmk hmk'

end

theorem preorder_sublist {n m : Node} (hm : m ∈ n.preorder) : m.preorder.Sublist n.preorder := by
  induction n using induct with
  | h n ih =>
    rcases mem_preorder.1 hm with rfl | ⟨c, hc, hm⟩
    · exact .refl _
    · refine (ih c hc hm).trans ?_
      rw [preorder_eq n, List.flatMap]
      exact .cons _ (List.sublist_flatten_of_mem (List.mem_map_of_mem hc))

theorem children_sublist (n : Node) : n.children.Sublist n.preorder := by
  rw [preorder_eq]
  refine .cons _ ?_
  induction n.children with
  | nil => exact .refl _
  | cons c cs ih => exact (List.singleton_sublist.2 c.self_mem_preorder).append ih

/-! ## Tokens of one node -/

theorem tokens_sublist {n m : Node} (hm : m ∈ n.preorder) : m.tokens.Sublist n.tokens := by
  induction n using induct with
  | h n ih =>
    rcases mem_preorder.1 hm with rfl | ⟨c, hc, hm⟩
    · exact .refl _
    · refine (ih c hc hm).trans ?_
      rw [tokens_eq n, List.flatMap]
      exact List.sublist_flatten_of_mem (List.mem_map_of_mem (mem_children.1 hc))

theorem childTokens_sublist (n : Node) : n.childTokens.Sublist n.tokens := by
  rw [childTokens, tokens_eq]
  induction n.slots with
  | nil => exact .refl _
  | cons slot slots ih =>
    cases slot with
    | node c => exact ih.trans (List.sublist_append_right _ _)
    | token t => exact ih.cons_cons t
    | missing => exact ih

/-- A token lies in one slot of a node. -/
theorem slot_index_unique {n : Node} {t : Token} {i j : Nat} (hids : (n.tokens.map Token.id).Nodup)
    (hi : n.slots[i]? = some (.token t)) (hj : n.slots[j]? = some (.token t)) : i = j := by
  have htokens := List.Nodup.of_map _ hids
  rw [tokens_eq, List.nodup_flatMap] at htokens
  obtain ⟨hi, hit⟩ := List.getElem?_eq_some_iff.1 hi
  obtain ⟨hj, hjt⟩ := List.getElem?_eq_some_iff.1 hj
  have happart : ∀ {i j : Nat} (hi : i < n.slots.length) (hj : j < n.slots.length), i < j →
      n.slots[i] = .token t → n.slots[j] = .token t → False := by
    intro i j hi hj hlt hit hjt
    have hdisjoint : List.Disjoint (slotTokens n.slots[i]) (slotTokens n.slots[j]) :=
      List.pairwise_iff_getElem.1 htokens.2 i j hi hj hlt
    rw [hit, hjt] at hdisjoint
    exact hdisjoint (List.mem_singleton_self t) (List.mem_singleton_self t)
  rcases Nat.lt_trichotomy i j with hlt | heq | hlt
  · exact (happart hi hj hlt hit hjt).elim
  · exact heq
  · exact (happart hj hi hlt hjt hit).elim

/-- Identifiers in different slots are different tokens. -/
theorem identifierAt?_ne {n : Node} {t t' : Token} {i j : Nat}
    (hids : (n.tokens.map Token.id).Nodup) (hi : n.identifierAt? i = some t)
    (hj : n.identifierAt? j = some t') (hij : i ≠ j) : t.id ≠ t'.id := by
  have hslot : ∀ {i : Nat} {t : Token}, n.identifierAt? i = some t →
      n.slots[i]? = some (.token t) := by
    intro i t h
    obtain ⟨s, hs, ht⟩ := Option.bind_eq_some_iff.1 (Option.filter_eq_some_iff.1 h).1
    cases s <;> cases ht
    exact hs
  have hmem : ∀ {i : Nat} {t : Token}, n.identifierAt? i = some t → t ∈ n.tokens := by
    intro i t h
    exact childTokens_subset n.self_mem_preorder
      (mem_childTokens.2 (List.mem_of_getElem? (hslot h)))
  intro hid
  obtain rfl := List.inj_on_of_nodup_map hids (hmem hi) (hmem hj) hid
  exact hij (slot_index_unique hids (hslot hi) (hslot hj))

end Node

end Xref
