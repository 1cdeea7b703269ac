import Xref.Proofs.Syntax.Nodes

/-!
# Slots one behind the other

In a tiled tree the slots of each node take its bytes one behind the other, empty slots none
(`Node.Tiled`). Then the tokens take the bytes of the text in the same way (`Tree.Tiled.tokens`), and
the descent, which goes by widths only, finds exactly the token that holds a byte, with the nodes
above it (`Tree.Tiled.locate_eq_ok_iff`).
-/

namespace Xref

/-- Whether a slot takes the bytes from one offset to another. -/
def Child.Takes (start stop : Nat) : Child → Prop
  | .node n => n.fullSpan = ⟨start, stop⟩
  | .token t => t.fullSpan = ⟨start, stop⟩
  | .missing => start = stop

/-- Whether several slots take the bytes from one offset to another, one behind the other. -/
def Tiles : Nat → List Child → Nat → Prop
  | start, [], stop => start = stop
  | start, s :: rest, stop => ∃ mid, Child.Takes start mid s ∧ Tiles mid rest stop

/-- Whether the slots of a node take its bytes, one behind the other. -/
def Node.Tiled (n : Node) : Prop := Tiles n.fullSpan.start n.slots n.fullSpan.stop

/-- Whether every node is tiled and the root takes the bytes of the text. -/
structure Tree.Tiled (tree : Tree) : Prop where
  root : tree.root.fullSpan = ⟨0, tree.length⟩
  nodes : ∀ n ∈ tree.root.preorder, n.Tiled

/-! ## Runs of slots -/

section
variable {start mid stop stop' : Nat} {s : Child} {ss ts : List Child}

theorem tiles_append :
    Tiles start (ss ++ ts) stop ↔ ∃ mid, Tiles start ss mid ∧ Tiles mid ts stop := by
  induction ss generalizing start with
  | nil => exact ⟨fun h => ⟨start, rfl, h⟩, fun ⟨_, hmid, h⟩ => hmid ▸ h⟩
  | cons s rest ih =>
    constructor
    · rintro ⟨behind, hs, hrest⟩
      obtain ⟨mid, hss, hts⟩ := ih.1 hrest
      exact ⟨mid, ⟨behind, hs, hss⟩, hts⟩
    · rintro ⟨mid, ⟨behind, hs, hss⟩, hts⟩
      exact ⟨behind, hs, ih.2 ⟨mid, hss, hts⟩⟩

theorem tiles_singleton : Tiles start [s] stop ↔ Child.Takes start stop s := by
  constructor
  · rintro ⟨mid, hs, rfl⟩
    exact hs
  · exact fun hs => ⟨stop, hs, rfl⟩

theorem Child.Takes.unique (h : Child.Takes start stop s) (h' : Child.Takes start stop' s) :
    stop = stop' := by
  cases s with
  | node n => exact congrArg Span.stop (h.symm.trans h')
  | token t => exact congrArg Span.stop (h.symm.trans h')
  | missing => exact h.symm.trans h'

/-- Where slots end depends on where they start only. -/
theorem Tiles.unique (h : Tiles start ss stop) (h' : Tiles start ss stop') : stop = stop' := by
  induction ss generalizing start with
  | nil => exact h.symm.trans h'
  | cons s rest ih =>
    obtain ⟨mid, hs, hrest⟩ := h
    obtain ⟨mid', hs', hrest'⟩ := h'
    obtain rfl := hs.unique hs'
    exact ih hrest hrest'

end

/-! ## Tokens of tiled nodes -/

section
variable {start stop : Nat} {ts : List Token} {t : Token}

theorem Tiles.tokens_bounds (h : Tiles start (ts.map Slot.token) stop) :
    start ≤ stop ∧ ∀ t ∈ ts, start ≤ t.fullSpan.start ∧ t.fullSpan.stop ≤ stop := by
  induction ts generalizing start with
  | nil => exact ⟨Nat.le_of_eq h, fun _ ht => nomatch ht⟩
  | cons t rest ih =>
    obtain ⟨mid, ht, hrest⟩ := h
    obtain ⟨hle, hbounds⟩ := ih hrest
    have hstart : t.fullSpan.start = start := congrArg Span.start ht
    have hstop : t.fullSpan.stop = mid := congrArg Span.stop ht
    have hwidth : t.fullSpan.start ≤ t.fullSpan.stop := Nat.le_add_right _ _
    refine ⟨by omega, List.forall_mem_cons.2 ⟨⟨by omega, by omega⟩, fun u hu => ?_⟩⟩
    have := hbounds u hu
    omega

theorem Tiles.start_of_head? (h : Tiles start (ts.map Slot.token) stop) (ht : ts.head? = some t) :
    start = t.fullSpan.start := by
  obtain ⟨rest, rfl⟩ := List.head?_eq_some_iff.1 ht
  obtain ⟨mid, htakes, -⟩ := h
  exact (congrArg Span.start htakes).symm

theorem Tiles.stop_of_getLast? (h : Tiles start (ts.map Slot.token) stop)
    (ht : ts.getLast? = some t) : stop = t.fullSpan.stop := by
  obtain ⟨rest, rfl⟩ := List.getLast?_eq_some_iff.1 ht
  rw [List.map_append, tiles_append] at h
  obtain ⟨mid, -, hlast⟩ := h
  exact (congrArg Span.stop (tiles_singleton.1 hlast)).symm

end

mutual

/-- The tokens of a tiled node take its bytes. -/
theorem Node.tiles_tokens : ∀ n : Node, (∀ m ∈ n.preorder, m.Tiled) →
    Tiles n.fullSpan.start (n.tokens.map Slot.token) n.fullSpan.stop
  | ⟨id, kind, full, ends, slots⟩, h => by
    rw [Node.preorder, List.forall_mem_cons] at h
    exact tiles_tokensOf slots full.start full.stop h.1 h.2

theorem tiles_tokensOf : ∀ (slots : List Child) (start stop : Nat), Tiles start slots stop →
    (∀ m ∈ Node.preorderOf slots, m.Tiled) →
    Tiles start ((Node.tokensOf slots).map Slot.token) stop
  | [], _, _, h, _ => h
  | .node n :: rest, start, stop, ⟨mid, hn, hrest⟩, h => by
    rw [Node.preorderOf, List.forall_mem_append] at h
    have hspan : n.fullSpan = ⟨start, mid⟩ := hn
    have htokens := Node.tiles_tokens n h.1
    rw [hspan] at htokens
    rw [Node.tokensOf_node, List.map_append, tiles_append]
    exact ⟨mid, htokens, tiles_tokensOf rest mid stop hrest h.2⟩
  | .token _ :: rest, _, stop, ⟨mid, ht, hrest⟩, h =>
    ⟨mid, ht, tiles_tokensOf rest mid stop hrest h⟩
  | .missing :: rest, start, stop, ⟨_, hmid, hrest⟩, h => by
    rw [Child.Takes] at hmid
    exact tiles_tokensOf rest start stop (hmid ▸ hrest) h

end

/-- A tiled node runs from the start of its first token to the end of its last. -/
theorem Node.fullSpan_of_tiled {n : Node} (h : ∀ m ∈ n.preorder, m.Tiled) {first last : Token}
    (hfirst : n.tokens.head? = some first) (hlast : n.tokens.getLast? = some last) :
    n.fullSpan = ⟨first.fullSpan.start, last.fullSpan.stop⟩ := by
  have htokens := n.tiles_tokens h
  rw [← htokens.start_of_head? hfirst, ← htokens.stop_of_getLast? hlast]

/-! ## The descent -/

/-- Whether a token with the nodes above it is what the descent through several slots can find. -/
def TokenPath.LiesIn (path : TokenPath) (slots : List Child) : Prop :=
  .token path.token ∈ slots ∧ path.ancestors = [] ∨
    ∃ c, .node c ∈ slots ∧ c.Leads path.ancestors path.token

/-- Whether the token holds the byte at the offset and is not the end of the file. -/
def Token.Covers (t : Token) (offset : Nat) : Prop :=
  t.fullSpan.start ≤ offset ∧ offset < t.fullSpan.stop ∧ t.kind ≠ .endOfFile

namespace TokenPath

variable {path : TokenPath} {c : Node} {t : Token} {slots : List Child}

theorem liesIn_node : path.LiesIn (.node c :: slots) ↔
    c.Leads path.ancestors path.token ∨ path.LiesIn slots := by
  simp [LiesIn, or_and_right, exists_or, or_left_comm]

theorem liesIn_token : path.LiesIn (.token t :: slots) ↔
    path.token = t ∧ path.ancestors = [] ∨ path.LiesIn slots := by
  simp [LiesIn, or_and_right, or_assoc]

theorem liesIn_missing : path.LiesIn (.missing :: slots) ↔ path.LiesIn slots := by simp [LiesIn]

/-- A token that is found in several slots is one of their tokens. -/
theorem LiesIn.mem_tokensOf (h : path.LiesIn slots) : path.token ∈ Node.tokensOf slots := by
  rw [Node.tokensOf_eq, List.mem_flatMap]
  rcases h with ⟨ht, -⟩ | ⟨c, hc, h⟩
  · exact ⟨_, ht, List.mem_singleton_self _⟩
  · exact ⟨_, hc, h.mem_tokens⟩

end TokenPath

theorem Node.leads_iff {n : Node} {path : List Node} {t : Token} :
    n.Leads path t ↔ ∃ below : TokenPath, below.LiesIn n.slots ∧
      path = n :: below.ancestors ∧ t = below.token := by
  constructor
  · intro h
    cases h with
    | token ht => exact ⟨⟨[], t⟩, .inl ⟨ht, rfl⟩, rfl, rfl⟩
    | node hc h => exact ⟨⟨_, t⟩, .inr ⟨_, hc, h⟩, rfl, rfl⟩
  · rintro ⟨⟨path, t⟩, ⟨ht, rfl⟩ | ⟨c, hc, h⟩, rfl, rfl⟩
    · exact .token ht
    · exact .node hc h

/-- What lies behind the offset does not hold it. -/
theorem Tiles.not_covers {start stop : Nat} {slots : List Child} {path : TokenPath} {offset : Nat}
    (h : Tiles start slots stop) (hbelow : ∀ m ∈ Node.preorderOf slots, m.Tiled)
    (hlt : offset < start) : ¬ (path.LiesIn slots ∧ path.token.Covers offset) := by
  rintro ⟨hlies, hcovers⟩
  have := ((tiles_tokensOf slots start stop h hbelow).tokens_bounds.2 _ hlies.mem_tokensOf).1
  have := hcovers.1
  omega

mutual

theorem Node.descend_tiled : ∀ (n : Node) (offset : Nat) (path : TokenPath),
    (∀ m ∈ n.preorder, m.Tiled) → n.fullSpan.start ≤ offset →
    (n.descend offset n.fullSpan.start = some path ↔
      n.Leads path.ancestors path.token ∧ path.token.Covers offset)
  | ⟨id, kind, full, ends, slots⟩, offset, path, h, hle => by
    rw [Node.preorder, List.forall_mem_cons] at h
    have hslots := fun below => descendAll_tiled slots full.start full.stop offset below h.1 h.2 hle
    rw [Node.descend, Option.map_eq_some_iff, Node.leads_iff]
    constructor
    · rintro ⟨below, hbelow, rfl⟩
      obtain ⟨hlies, hcovers⟩ := (hslots below).1 hbelow
      exact ⟨⟨below, hlies, rfl, rfl⟩, hcovers⟩
    · rintro ⟨⟨below, hlies, hancestors, htoken⟩, hcovers⟩
      obtain ⟨ancestors, token⟩ := path
      cases hancestors
      cases htoken
      exact ⟨below, (hslots below).2 ⟨hlies, hcovers⟩, rfl⟩

theorem descendAll_tiled : ∀ (slots : List Child) (start stop offset : Nat) (path : TokenPath),
    Tiles start slots stop → (∀ m ∈ Node.preorderOf slots, m.Tiled) → start ≤ offset →
    (Child.descendAll offset start slots = some path ↔
      path.LiesIn slots ∧ path.token.Covers offset)
  | [], start, stop, offset, path, _, _, _ => by simp [Child.descendAll, TokenPath.LiesIn]
  | .node n :: rest, start, stop, offset, path, ⟨mid, hn, hrest⟩, h, hle => by
    rw [Node.preorderOf, List.forall_mem_append] at h
    have hspan : n.fullSpan = ⟨start, mid⟩ := hn
    have htokens := Node.tiles_tokens n h.1
    have hdescend := Node.descend_tiled n offset path h.1
    rw [hspan] at htokens hdescend
    have hwidth : start + n.fullSpan.length = mid := by
      rw [hspan]
      exact Nat.add_sub_cancel' htokens.tokens_bounds.1
    rw [Child.descendAll, hwidth, TokenPath.liesIn_node, or_and_right]
    split
    · rename_i hlt
      rw [hdescend hle, or_iff_left (hrest.not_covers h.2 hlt)]
    · rename_i hge
      rw [descendAll_tiled rest mid stop offset path hrest h.2 (Nat.le_of_not_lt hge)]
      refine (or_iff_right ?_).symm
      rintro ⟨hleads, hcovers⟩
      have hstop : path.token.fullSpan.stop ≤ mid :=
        (htokens.tokens_bounds.2 _ hleads.mem_tokens).2
      exact hge (Nat.lt_of_lt_of_le hcovers.2.1 hstop)
  | .token t :: rest, start, stop, offset, path, ⟨mid, ht, hrest⟩, h, hle => by
    have hspan : t.fullSpan = ⟨start, mid⟩ := ht
    have hmid : start + t.fullSpan.length = mid := by
      have hwidth : t.fullSpan.start ≤ t.fullSpan.stop := Nat.le_add_right _ _
      rw [hspan] at hwidth ⊢
      exact Nat.add_sub_cancel' hwidth
    rw [Child.descendAll, hmid, TokenPath.liesIn_token, or_and_right]
    split
    · rename_i hlt
      have hhere : t.Covers offset ↔ ¬ t.kind.isEnd = true := by
        rw [Token.Covers, hspan, TokenKind.isEnd, beq_iff_eq]
        exact ⟨fun h => h.2.2, fun h => ⟨hle, hlt, h⟩⟩
      rw [or_iff_left (hrest.not_covers h hlt)]
      obtain ⟨ancestors, token⟩ := path
      show (if t.kind.isEnd = true then none else some _) = _ ↔
        (token = t ∧ ancestors = []) ∧ token.Covers offset
      split
      · rename_i hend
        refine iff_of_false nofun ?_
        rintro ⟨⟨rfl, -⟩, hcovers⟩
        exact hhere.1 hcovers hend
      · rename_i hend
        rw [Option.some.injEq, TokenPath.mk.injEq]
        constructor
        · rintro ⟨rfl, rfl⟩
          exact ⟨⟨rfl, rfl⟩, hhere.2 hend⟩
        · rintro ⟨⟨rfl, rfl⟩, -⟩
          exact ⟨rfl, rfl⟩
    · rename_i hge
      rw [descendAll_tiled rest mid stop offset path hrest h (Nat.le_of_not_lt hge)]
      refine (or_iff_right ?_).symm
      rintro ⟨⟨rfl, -⟩, hcovers⟩
      have := hcovers.2.1
      rw [hspan] at this
      exact hge this
  | .missing :: rest, start, stop, offset, path, ⟨mid, hmid, hrest⟩, h, hle => by
    rw [Child.Takes] at hmid
    rw [Child.descendAll, TokenPath.liesIn_missing]
    exact descendAll_tiled rest start stop offset path (hmid ▸ hrest) h hle

end

namespace Tree.Tiled

variable {tree : Tree} {offset : Nat} {path : TokenPath} {t : Token} (h : tree.Tiled)

include h

/-- The tokens of a tiled tree take the bytes of the text. -/
theorem tokens : Tiles 0 (tree.root.tokens.map Slot.token) tree.length := by
  have htokens := tree.root.tiles_tokens h.nodes
  rwa [h.root] at htokens

/-- **A token is found at an offset exactly if it holds the byte there,** and with it the nodes
above it. -/
theorem locate_eq_ok_iff : tree.locate offset = .ok path ↔
    tree.root.Leads path.ancestors path.token ∧ path.token.Covers offset := by
  have hstart : tree.root.fullSpan.start ≤ offset := by
    rw [h.root]
    exact Nat.zero_le _
  refine Iff.trans ?_ (tree.root.descend_tiled offset path h.nodes hstart)
  rw [locate]
  split <;> simp [*]

/-- A token that holds the byte at an offset is found there. -/
theorem exists_locate (ht : t ∈ tree.root.tokens) (hcovers : t.Covers offset) :
    ∃ path, tree.locate offset = .ok path ∧ path.token = t := by
  obtain ⟨ancestors, hleads⟩ := Node.Leads.of_mem_tokens ht
  exact ⟨⟨ancestors, t⟩, h.locate_eq_ok_iff.2 ⟨hleads, hcovers⟩, rfl⟩

/-- Where no token holds the byte at an offset, the answer says so. -/
theorem locate_eq_error (hcovers : ∀ t ∈ tree.root.tokens, ¬ t.Covers offset) :
    tree.locate offset = .error ⟨offset, tree.length⟩ := by
  cases hpath : tree.locate offset with
  | ok path =>
    obtain ⟨hleads, hholds⟩ := h.locate_eq_ok_iff.1 hpath
    exact absurd hholds (hcovers _ hleads.mem_tokens)
  | error e =>
    rw [locate] at hpath
    split at hpath
    · cases hpath
    · exact hpath.symm

end Tree.Tiled

end Xref
