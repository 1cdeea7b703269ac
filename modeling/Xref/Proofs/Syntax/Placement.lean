import Xref.Proofs.Syntax.Nodes
import Xref.Proofs.Syntax.Parsing

/-!
# Trees of phrases

Building never fails: the tree of a phrase is the phrase with every token and node at its place
(`parse_eq`). Tokens are numbered and placed one after the other (`tokens_placed`), nodes get
different numbers (`nodup_ids_placed`), and the bytes of a node are those of its tokens.
-/

namespace Xref

/-- The numbers and the offset that come next. -/
structure Place where
  token : Nat
  node : Nat
  offset : Nat

namespace Place

/-- The start of a tree. -/
def start : Place := ⟨0, 0, 0⟩

/-- The place behind a token. -/
def behindToken (p : Place) (l : Lexeme) : Place :=
  ⟨p.token + 1, p.node, p.offset + l.source.utf8ByteSize⟩

/-- The place behind a node that ends here. -/
def behindNode (p : Place) : Place := { p with node := p.node + 1 }

end Place

mutual

/-- The node that a phrase makes at a place, and the place behind it. -/
def Phrase.placed : Phrase → Place → Node × Place
  | ⟨kind, slots⟩, p =>
    let below := placedParts slots p
    (⟨below.2.node, kind, ⟨p.offset, below.2.offset⟩, Child.endsOf below.1, below.1⟩,
      below.2.behindNode)

/-- The slots that several parts make at a place, and the place behind them. -/
def placedParts : List Part → Place → List Child × Place
  | [], p => ([], p)
  | .node q :: rest, p =>
    let first := q.placed p
    let others := placedParts rest first.2
    (.node first.1 :: others.1, others.2)
  | .token l :: rest, p =>
    let others := placedParts rest (p.behindToken l)
    (.token ⟨p.token, p.offset, l⟩ :: others.1, others.2)
  | .missing :: rest, p =>
    let others := placedParts rest p
    (.missing :: others.1, others.2)

end

/-- The tokens that several lexemes make from a place on. -/
def tokensFrom : Place → List Lexeme → List Token
  | _, [] => []
  | p, l :: ls => ⟨p.token, p.offset, l⟩ :: tokensFrom (p.behindToken l) ls

/-- The number of bytes of several lexemes. -/
def bytesOf : List Lexeme → Nat
  | [] => 0
  | l :: ls => l.source.utf8ByteSize + bytesOf ls

/-! ## Tokens one after the other -/

section
variable {p : Place} {ls ms : List Lexeme}

@[simp] theorem bytesOf_nil : bytesOf [] = 0 := rfl

@[simp] theorem bytesOf_cons (l : Lexeme) (ls : List Lexeme) :
    bytesOf (l :: ls) = l.source.utf8ByteSize + bytesOf ls := rfl

@[simp] theorem bytesOf_append : bytesOf (ls ++ ms) = bytesOf ls + bytesOf ms := by
  induction ls with
  | nil => rw [List.nil_append, bytesOf_nil, Nat.zero_add]
  | cons l ls ih => rw [List.cons_append, bytesOf_cons, bytesOf_cons, ih, Nat.add_assoc]

theorem utf8ByteSize_join_source (ls : List Lexeme) :
    (String.join (ls.map Lexeme.source)).utf8ByteSize = bytesOf ls := by
  induction ls with
  | nil => rfl
  | cons l ls ih => rw [List.map_cons, String.join_cons, String.utf8ByteSize_append, ih]; rfl

/-- The place of a token depends on the nodes before it for their number only. -/
theorem tokensFrom_congr {q : Place} (ht : p.token = q.token) (ho : p.offset = q.offset) :
    tokensFrom p ls = tokensFrom q ls := by
  induction ls generalizing p q with
  | nil => rfl
  | cons l ls ih =>
    rw [tokensFrom, tokensFrom, ht, ho]
    rw [ih (p := p.behindToken l) (q := q.behindToken l) (by simp [Place.behindToken, ht])
      (by simp [Place.behindToken, ho])]

theorem tokensFrom_append :
    tokensFrom p (ls ++ ms) =
      tokensFrom p ls ++
        tokensFrom ⟨p.token + ls.length, p.node, p.offset + bytesOf ls⟩ ms := by
  induction ls generalizing p with
  | nil => rfl
  | cons l ls ih =>
    rw [List.cons_append, tokensFrom, tokensFrom, ih, List.cons_append]
    have hcount : p.token + 1 + ls.length = p.token + (ls.length + 1) := by omega
    have hbytes : p.offset + l.source.utf8ByteSize + bytesOf ls =
        p.offset + (l.source.utf8ByteSize + bytesOf ls) := by omega
    simp only [Place.behindToken, List.length_cons, bytesOf_cons, hcount, hbytes]

@[simp] theorem length_tokensFrom : (tokensFrom p ls).length = ls.length := by
  induction ls generalizing p with
  | nil => rfl
  | cons l ls ih => rw [tokensFrom, List.length_cons, List.length_cons, ih]

theorem map_lexeme_tokensFrom : (tokensFrom p ls).map Token.lexeme = ls := by
  induction ls generalizing p with
  | nil => rfl
  | cons l ls ih => rw [tokensFrom, List.map_cons, ih]

theorem getElem?_tokensFrom (i : Nat) :
    (tokensFrom p ls)[i]? =
      ls[i]?.map fun l => ⟨p.token + i, p.offset + bytesOf (ls.take i), l⟩ := by
  induction ls generalizing p i with
  | nil => rfl
  | cons l ls ih =>
    cases i with
    | zero => rfl
    | succ i =>
      rw [tokensFrom, List.getElem?_cons_succ, ih, List.getElem?_cons_succ, List.take_succ_cons,
        bytesOf_cons]
      simp only [Place.behindToken, Nat.add_assoc, Nat.add_comm 1 i]

end

/-! ## Placed phrases -/

mutual

theorem place_placed : ∀ (q : Phrase) (p : Place),
    (q.placed p).2.token = p.token + q.lexemes.length ∧
      (q.placed p).2.offset = p.offset + bytesOf q.lexemes
  | ⟨_, slots⟩, p => place_placedParts slots p

theorem place_placedParts : ∀ (qs : List Part) (p : Place),
    (placedParts qs p).2.token = p.token + (Phrase.lexemesOf qs).length ∧
      (placedParts qs p).2.offset = p.offset + bytesOf (Phrase.lexemesOf qs)
  | [], _ => ⟨rfl, rfl⟩
  | .node q :: rest, p => by
    have hfirst := place_placed q p
    have hothers := place_placedParts rest (q.placed p).2
    rw [Phrase.lexemesOf, List.length_append, bytesOf_append]
    refine ⟨hothers.1.trans ?_, hothers.2.trans ?_⟩
    · rw [hfirst.1, Nat.add_assoc]
    · rw [hfirst.2, Nat.add_assoc]
  | .token l :: rest, p => by
    have hothers := place_placedParts rest (p.behindToken l)
    rw [Phrase.lexemesOf, List.length_cons, bytesOf_cons]
    refine ⟨hothers.1.trans ?_, hothers.2.trans ?_⟩
    · rw [Place.behindToken, Nat.add_assoc, Nat.add_comm 1]
    · rw [Place.behindToken, Nat.add_assoc]
  | .missing :: rest, p => place_placedParts rest p

end

theorem placedParts_append (qs rs : List Part) (p : Place) : placedParts (qs ++ rs) p =
    ((placedParts qs p).1 ++ (placedParts rs (placedParts qs p).2).1,
      (placedParts rs (placedParts qs p).2).2) := by
  induction qs generalizing p with
  | nil => rfl
  | cons s rest ih => cases s <;> simp [placedParts, ih]

mutual

/-- **The tokens of a placed phrase are its lexemes, one after the other.** -/
theorem tokens_placed : ∀ (q : Phrase) (p : Place), (q.placed p).1.tokens = tokensFrom p q.lexemes
  | ⟨_, slots⟩, p => tokensOf_placedParts slots p

theorem tokensOf_placedParts : ∀ (qs : List Part) (p : Place),
    Node.tokensOf (placedParts qs p).1 = tokensFrom p (Phrase.lexemesOf qs)
  | [], _ => rfl
  | .node q :: rest, p => by
    have hplace := place_placed q p
    show Node.tokensOf (.node (q.placed p).1 :: (placedParts rest (q.placed p).2).1) = _
    rw [Node.tokensOf_node, tokens_placed q p, tokensOf_placedParts rest, Phrase.lexemesOf,
      tokensFrom_append]
    congr 1
    exact tokensFrom_congr hplace.1 hplace.2
  | .token l :: rest, p => by
    show Node.tokensOf (.token _ :: (placedParts rest (p.behindToken l)).1) = _
    rw [Node.tokensOf_token, tokensOf_placedParts rest]
    rfl
  | .missing :: rest, p => tokensOf_placedParts rest p

end

theorem fullSpan_placed (q : Phrase) (p : Place) :
    (q.placed p).1.fullSpan = ⟨p.offset, p.offset + bytesOf q.lexemes⟩ := by
  cases q with
  | mk kind slots => rw [← (place_placed ⟨kind, slots⟩ p).2]; rfl

@[simp] theorem kind_placed (q : Phrase) (p : Place) : (q.placed p).1.kind = q.kind := by
  cases q; rfl

/-! ### Numbers of nodes -/

mutual

theorem ids_placed : ∀ (q : Phrase) (p : Place),
    p.node < (q.placed p).2.node ∧ ((q.placed p).1.preorder.map Node.id).Nodup ∧
      ∀ n ∈ (q.placed p).1.preorder, p.node ≤ n.id ∧ n.id < (q.placed p).2.node
  | ⟨kind, slots⟩, p => by
    obtain ⟨hle, hnodup, hmem⟩ := ids_placedParts slots p
    have hpre : ((Phrase.mk kind slots).placed p).1.preorder =
        ((Phrase.mk kind slots).placed p).1 :: Node.preorderOf (placedParts slots p).1 := rfl
    have hid : ((Phrase.mk kind slots).placed p).1.id = (placedParts slots p).2.node := rfl
    have hbehind : ((Phrase.mk kind slots).placed p).2.node =
        (placedParts slots p).2.node + 1 := rfl
    rw [hpre, hbehind]
    refine ⟨Nat.lt_succ_of_le hle, List.nodup_cons.2 ⟨?_, hnodup⟩, ?_⟩
    · intro hin
      obtain ⟨n, hn, heq⟩ := List.mem_map.1 hin
      exact Nat.ne_of_lt (hmem n hn).2 heq
    · intro n hn
      rcases List.mem_cons.1 hn with rfl | hn
      · rw [hid]
        exact ⟨hle, Nat.lt_succ_self _⟩
      · exact ⟨(hmem n hn).1, Nat.lt_succ_of_lt (hmem n hn).2⟩

theorem ids_placedParts : ∀ (qs : List Part) (p : Place),
    p.node ≤ (placedParts qs p).2.node ∧
      ((Node.preorderOf (placedParts qs p).1).map Node.id).Nodup ∧
      ∀ n ∈ Node.preorderOf (placedParts qs p).1,
        p.node ≤ n.id ∧ n.id < (placedParts qs p).2.node
  | [], p => ⟨Nat.le_refl _, List.nodup_nil, fun _ h => nomatch h⟩
  | .node q :: rest, p => by
    obtain ⟨hlt, hnodup, hmem⟩ := ids_placed q p
    obtain ⟨hle, hnodup', hmem'⟩ := ids_placedParts rest (q.placed p).2
    have hpre : Node.preorderOf (placedParts (.node q :: rest) p).1 =
        (q.placed p).1.preorder ++ Node.preorderOf (placedParts rest (q.placed p).2).1 := rfl
    have hplace : (placedParts (.node q :: rest) p).2 = (placedParts rest (q.placed p).2).2 := rfl
    rw [hpre, hplace]
    refine ⟨Nat.le_trans (Nat.le_of_lt hlt) hle, ?_, ?_⟩
    · rw [List.map_append]
      refine List.nodup_append.2 ⟨hnodup, hnodup', ?_⟩
      intro a ha b hb
      obtain ⟨m, hm, rfl⟩ := List.mem_map.1 ha
      obtain ⟨n, hn, rfl⟩ := List.mem_map.1 hb
      exact Nat.ne_of_lt (Nat.lt_of_lt_of_le (hmem m hm).2 (hmem' n hn).1)
    · intro n hn
      rcases List.mem_append.1 hn with hn | hn
      · exact ⟨(hmem n hn).1, Nat.lt_of_lt_of_le (hmem n hn).2 hle⟩
      · exact ⟨Nat.le_trans (Nat.le_of_lt hlt) (hmem' n hn).1, (hmem' n hn).2⟩
  | .token l :: rest, p => ids_placedParts rest (p.behindToken l)
  | .missing :: rest, p => ids_placedParts rest p

end

/-- No two nodes of a placed phrase have the same number. -/
theorem nodup_ids_placed (q : Phrase) (p : Place) :
    ((q.placed p).1.preorder.map Node.id).Nodup := (ids_placed q p).2.1

/-! ### Kinds of nodes -/

mutual

theorem allows_placed : ∀ (q : Phrase) (p : Place), q.Sorted →
    ∀ n ∈ (q.placed p).1.preorder, ∀ c ∈ n.children, n.kind.allows c.kind
  | ⟨kind, slots⟩, p, h, n, hn => by
    obtain ⟨hchildren, hbelow⟩ := allows_placedParts slots p h
    have hpre : ((Phrase.mk kind slots).placed p).1.preorder =
        ((Phrase.mk kind slots).placed p).1 :: Node.preorderOf (placedParts slots p).1 := rfl
    rw [hpre] at hn
    rcases List.mem_cons.1 hn with rfl | hn
    · exact hchildren
    · exact hbelow n hn

theorem allows_placedParts {ok : NodeKind → Bool} : ∀ (qs : List Part) (p : Place),
    partsSorted ok qs →
    (∀ c ∈ (placedParts qs p).1.filterMap Slot.node?, ok c.kind) ∧
      ∀ n ∈ Node.preorderOf (placedParts qs p).1, ∀ c ∈ n.children, n.kind.allows c.kind
  | [], _, _ => ⟨(fun _ h => nomatch h), fun _ h => nomatch h⟩
  | .node q :: rest, p, h => by
    obtain ⟨hq, hsorted, hrest⟩ := h
    have hfirst := allows_placed q p hsorted
    have hothers := allows_placedParts rest (q.placed p).2 hrest
    constructor
    · intro c hc
      rcases List.mem_cons.1 hc with rfl | hc
      · rw [kind_placed]
        exact hq
      · exact hothers.1 c hc
    · intro n hn
      rcases List.mem_append.1 hn with hn | hn
      · exact hfirst n hn
      · exact hothers.2 n hn
  | .token l :: rest, p, h => allows_placedParts rest (p.behindToken l) h
  | .missing :: rest, p, h => allows_placedParts rest p h

end

/-! ### Written types -/

/-- The lexemes in the slots of a node. -/
def Node.slotLexemes (n : Node) : List (Option Lexeme) :=
  n.slots.map fun slot => slot.token?.map Token.lexeme

theorem slotLexemes_placedParts (qs : List Part) (p : Place) :
    ((placedParts qs p).1.map fun slot => slot.token?.map Token.lexeme) = qs.map Slot.token? := by
  induction qs generalizing p with
  | nil => rfl
  | cons s rest ih => cases s <;> exact congrArg (_ :: ·) (ih _)

mutual

theorem written_placed : ∀ (q : Phrase) (p : Place), q.Written →
    ∀ n ∈ (q.placed p).1.preorder, n.kind.isWrittenAs n.slotLexemes
  | ⟨kind, slots⟩, p, h, n, hn => by
    rcases List.mem_cons.1 hn with rfl | hn
    · have hslots := slotLexemes_placedParts slots p
      show kind.isWrittenAs ((placedParts slots p).1.map _)
      rw [hslots]
      exact h.1
    · exact written_placedParts slots p h.2 n hn

theorem written_placedParts : ∀ (qs : List Part) (p : Place), partsWritten qs →
    ∀ n ∈ Node.preorderOf (placedParts qs p).1, n.kind.isWrittenAs n.slotLexemes
  | [], _, _, _, hn => nomatch hn
  | .node q :: rest, p, h, n, hn => by
    rcases List.mem_append.1 hn with hn | hn
    · exact written_placed q p h.1 n hn
    · exact written_placedParts rest (q.placed p).2 h.2 n hn
  | .token l :: rest, p, h, n, hn => written_placedParts rest (p.behindToken l) h n hn
  | .missing :: rest, p, h, n, hn => written_placedParts rest p h n hn

end

/-! ## Building -/

namespace TreeBuilder

/-- The place that a builder has reached. -/
def place (b : TreeBuilder) : Place := ⟨b.tokens.size, b.nodeCount, b.offset⟩

/-- A builder with more text and tokens, more nodes and more pending slots. -/
def grown (b : TreeBuilder) (ls : List Lexeme) (nodes : Nat) (slots : List Child) : TreeBuilder :=
  ⟨b.text ++ String.join (ls.map Lexeme.source), b.tokens ++ (tokensFrom b.place ls).toArray, nodes,
    b.opened, b.pending ++ slots.toArray⟩

theorem offset_grown (b : TreeBuilder) (ls : List Lexeme) (nodes : Nat) (slots : List Child) :
    (b.grown ls nodes slots).offset = b.offset + bytesOf ls := by
  rw [offset, grown, String.utf8ByteSize_append, utf8ByteSize_join_source]
  rfl

theorem place_grown (b : TreeBuilder) (ls : List Lexeme) (nodes : Nat) (slots : List Child) :
    (b.grown ls nodes slots).place =
      ⟨b.place.token + ls.length, nodes, b.place.offset + bytesOf ls⟩ := by
  rw [place, offset_grown]
  simp [grown, place]

theorem grown_grown (b : TreeBuilder) (ls ms : List Lexeme) (m n : Nat) (ss ts : List Child) :
    (b.grown ls m ss).grown ms n ts = b.grown (ls ++ ms) n (ss ++ ts) := by
  have htokens : tokensFrom (b.grown ls m ss).place ms =
      tokensFrom ⟨b.place.token + ls.length, b.place.node, b.place.offset + bytesOf ls⟩ ms := by
    rw [place_grown]
    exact tokensFrom_congr rfl rfl
  rw [grown, htokens]
  simp only [grown, List.map_append, String.join_append, String.append_assoc, Array.append_assoc,
    List.append_toArray, tokensFrom_append]

theorem finishNode_grown (b : TreeBuilder) (kind : NodeKind) (ls : List Lexeme) (nodes : Nat)
    (slots : List Child) :
    ((b.start kind).grown ls nodes slots).finishNode =
      .ok (b.grown ls (nodes + 1) [.node ⟨nodes, kind, ⟨b.offset, b.offset + bytesOf ls⟩,
        Child.endsOf slots, slots⟩]) := by
  have hoffset := offset_grown (b.start kind) ls nodes slots
  unfold finishNode
  rw [hoffset]
  have hslots : ((b.pending ++ slots.toArray).extract b.pending.size
      (b.pending ++ slots.toArray).size).toList = slots := by simp
  have hpending : (b.pending ++ slots.toArray).shrink b.pending.size = b.pending := by simp
  simp only [grown, start, hslots, hpending]
  rw [if_neg (by simp)]
  rfl

mutual

theorem addPhrase_eq : ∀ (q : Phrase) (b : TreeBuilder),
    b.addPhrase q =
      .ok (b.grown q.lexemes (q.placed b.place).2.node [.node (q.placed b.place).1])
  | ⟨kind, slots⟩, b => by
    have hplace := place_placedParts slots b.place
    rw [addPhrase, addParts_eq slots (b.start kind), Except.bind, finishNode_grown]
    show Except.ok _ = Except.ok (b.grown _ ((placedParts slots b.place).2.node + 1)
      [.node ⟨_, kind, ⟨b.offset, (placedParts slots b.place).2.offset⟩, _, _⟩])
    rw [hplace.2]
    rfl

theorem addParts_eq : ∀ (qs : List Part) (b : TreeBuilder),
    b.addParts qs =
      .ok (b.grown (Phrase.lexemesOf qs) (placedParts qs b.place).2.node
        (placedParts qs b.place).1)
  | [], b => by
    rw [addParts]
    simp [grown, tokensFrom, Phrase.lexemesOf, placedParts, place]
  | .node q :: rest, b => by
    have hplace := place_placed q b.place
    rw [addParts, addPhrase_eq q b, Except.bind, addParts_eq rest, grown_grown, place_grown,
      ← hplace.1, ← hplace.2]
    rfl
  | .token l :: rest, b => by
    have htoken : b.token l = b.grown [l] b.nodeCount [.token ⟨b.tokens.size, b.offset, l⟩] := by
      simp [token, grown, tokensFrom, place, String.join]
    rw [addParts, addParts_eq rest, htoken, grown_grown, place_grown]
    rfl
  | .missing :: rest, b => by
    have hmissing : b.missing = b.grown [] b.nodeCount [.missing] := by
      simp [missing, grown, tokensFrom]
    rw [addParts, addParts_eq rest, hmissing, grown_grown, place_grown]
    rfl

end

end TreeBuilder

/-! ## The tree of a source text -/

/-- The tokens of a source text. -/
def sourceTokens (source : String) : List Token := tokensFrom .start (lex source)

/-- The root of the tree of a source text, and the place behind it. -/
def Phrase.rootOf (source : String) : Node × Place := (Phrase.ofSource source).placed .start

/-- The tree of a source text. -/
def Tree.ofSource (source : String) : Tree :=
  ⟨source, (sourceTokens source).toArray, (Phrase.rootOf source).2.node, (Phrase.rootOf source).1⟩

/-- **A source text has a tree, which keeps the text, if offsets can count its bytes.** Else it is too
large, and no other error is there. -/
theorem parse_eq (source : String) : parse source =
    if source.utf8ByteSize ≤ Span.maxOffset then .ok (Tree.ofSource source)
    else .error .tooLarge := by
  have hadd := TreeBuilder.addPhrase_eq (Phrase.ofSource source) .empty
  rw [Phrase.lexemes_ofSource] at hadd
  have hfinish : (TreeBuilder.empty.grown (lex source) (Phrase.rootOf source).2.node
      [.node (Phrase.rootOf source).1]).finish =
      if Span.maxOffset < ("" ++ String.join ((lex source).map Lexeme.source)).utf8ByteSize then
        .error .tooLarge
      else .ok ⟨"" ++ String.join ((lex source).map Lexeme.source),
        #[] ++ (sourceTokens source).toArray, (Phrase.rootOf source).2.node,
        (Phrase.rootOf source).1⟩ := rfl
  rw [join_lex, String.empty_append, Array.empty_append] at hfinish
  rw [parse, Phrase.toTree, hadd, Except.bind]
  refine hfinish.trans ?_
  by_cases hsize : source.utf8ByteSize ≤ Span.maxOffset
  · rw [if_neg (Nat.not_lt.2 hsize), if_pos hsize]
    rfl
  · rw [if_pos (Nat.not_le.1 hsize), if_neg hsize]

theorem parse_eq_ok {source : String} (hsize : source.utf8ByteSize ≤ Span.maxOffset) :
    parse source = .ok (Tree.ofSource source) := by
  rw [parse_eq, if_pos hsize]

theorem parse_ok_or_tooLarge (source : String) : parse source = .ok (Tree.ofSource source) ∨
    (parse source = .error .tooLarge ∧ Span.maxOffset < source.utf8ByteSize) := by
  by_cases hsize : source.utf8ByteSize ≤ Span.maxOffset
  · exact .inl (parse_eq_ok hsize)
  · exact .inr ⟨by rw [parse_eq, if_neg hsize], Nat.not_le.1 hsize⟩

theorem parse_eq_ok_iff {source : String} {t : Tree} :
    parse source = .ok t ↔ source.utf8ByteSize ≤ Span.maxOffset ∧ t = Tree.ofSource source := by
  refine ⟨fun h => ?_, fun ⟨hsize, ht⟩ => ht ▸ parse_eq_ok hsize⟩
  rw [parse_eq] at h
  split at h
  · rename_i hsize
    exact ⟨hsize, (Except.ok.inj h).symm⟩
  · cases h

namespace Tree

variable {source : String}

theorem tokens_root : (ofSource source).root.tokens = sourceTokens source := by
  rw [sourceTokens, ← Phrase.lexemes_ofSource]
  exact tokens_placed _ _

theorem nodup_ids : ((ofSource source).root.preorder.map Node.id).Nodup := nodup_ids_placed _ _

/-- The node above a node allows its kind. -/
theorem allows_ofSource {n c : Node} (hn : n ∈ (ofSource source).root.preorder)
    (hc : c ∈ n.children) : n.kind.allows c.kind :=
  allows_placed _ _ (Phrase.sorted_ofSource source) n hn c hc

/-- A type name in the tree is a name, or two with a colon between them. -/
theorem slots_typeReference {n : Node} (hn : n ∈ (ofSource source).root.preorder)
    (hkind : n.kind = .typeReference) :
    (∃ name, n.slots = [.token name] ∧ name.kind = .identifier) ∨
      ∃ qualifier colon name, n.slots = [.token qualifier, .token colon, .token name] ∧
        qualifier.kind = .identifier ∧ colon.kind ≠ .identifier ∧ name.kind = .identifier := by
  have hwritten := written_placed _ _ (Phrase.written_ofSource source) n hn
  have htoken : ∀ {slot : Child} {l : Lexeme}, slot.token?.map Token.lexeme = some l →
      ∃ t, slot = .token t ∧ t.lexeme = l := by
    intro slot l h
    cases slot <;> cases h
    exact ⟨_, rfl, rfl⟩
  have hidentifier : ∀ {l : Lexeme}, l.isIdentifier → l.kind = .identifier := fun h => by
    simpa [Lexeme.isIdentifier, TokenKind.isIdentifier] using h
  rw [hkind] at hwritten
  rcases NodeKind.isWrittenAs_typeReference hwritten with ⟨l, heq, hl⟩ | ⟨q, colon, l, heq, hq, hcolon, hl⟩
  · obtain ⟨slot, hslots, hslot⟩ := List.map_eq_singleton_iff.1 heq
    obtain ⟨name, rfl, rfl⟩ := htoken hslot
    exact .inl ⟨name, hslots, hidentifier hl⟩
  · obtain ⟨first, rest, hslots, hfirst, heq⟩ := List.map_eq_cons_iff.1 heq
    obtain ⟨second, rest, rfl, hsecond, heq⟩ := List.map_eq_cons_iff.1 heq
    obtain ⟨third, rfl, hthird⟩ := List.map_eq_singleton_iff.1 heq
    obtain ⟨qualifier, rfl, rfl⟩ := htoken hfirst
    obtain ⟨colonToken, rfl, rfl⟩ := htoken hsecond
    obtain ⟨name, rfl, rfl⟩ := htoken hthird
    refine .inr ⟨qualifier, colonToken, name, hslots, hidentifier hq, fun hname => ?_, hidentifier hl⟩
    have hpunctuation : colonToken.lexeme.kind = .punctuation := by
      simpa using (Bool.and_eq_true_iff.1 hcolon).1
    cases hname.symm.trans hpunctuation

/-- A record in the tree starts with a token. -/
theorem slots_record {n : Node} (hn : n ∈ (ofSource source).root.preorder)
    (hkind : n.kind = .recordTypeDescriptor) :
    ∃ keyword, n.slots.head?.bind Slot.token? = some keyword := by
  have hwritten := written_placed _ _ (Phrase.written_ofSource source) n hn
  rw [hkind, Node.slotLexemes] at hwritten
  cases hslots : n.slots with
  | nil => rw [hslots] at hwritten; cases hwritten
  | cons slot rest =>
    rw [hslots] at hwritten
    cases slot with
    | token keyword => exact ⟨keyword, rfl⟩
    | node => cases hwritten
    | missing => cases hwritten

/-- The token that a record in the tree starts with is its keyword. -/
theorem keyword_record {n : Node} (hn : n ∈ (ofSource source).root.preorder)
    (hkind : n.kind = .recordTypeDescriptor) {keyword : Token}
    (h : n.slots.head?.bind Slot.token? = some keyword) :
    keyword.kind = .keyword ∧ keyword.text = "record" := by
  have hwritten := written_placed _ _ (Phrase.written_ofSource source) n hn
  rw [hkind, Node.slotLexemes] at hwritten
  obtain ⟨slot, hslot, htoken⟩ := Option.bind_eq_some_iff.1 h
  obtain ⟨rest, hslots⟩ := List.head?_eq_some_iff.1 hslot
  rw [hslots] at hwritten
  cases slot <;> cases htoken
  have hrecord : keyword.lexeme.kind = .keyword ∧ keyword.lexeme.text = "record" := by
    simpa [NodeKind.isWrittenAs, Slot.token?, Lexeme.isKeyword, Lexeme.is] using hwritten
  exact hrecord

theorem kind_root : (ofSource source).root.kind = .modulePart := kind_placed _ _

/-- What passes from a kind to those that it allows passes to everything below a node. -/
theorem kind_below {Q : NodeKind → Prop} (hQ : ∀ {k c}, Q k → k.allows c → Q c) {n m : Node}
    (hn : n ∈ (ofSource source).root.preorder) (hkind : Q n.kind) (hm : m ∈ n.preorder) :
    Q m.kind := by
  induction n using Node.induct with
  | h n ih =>
    rcases Node.mem_preorder.1 hm with rfl | ⟨c, hc, hm⟩
    · exact hkind
    · exact ih c hc (Node.preorder_trans hn (Node.mem_preorder_child hc))
        (hQ hkind (allows_ofSource hn hc)) hm

variable {item m : Node}

/-- Below an item there are no items. -/
theorem isBelowItem_below (hitem : item ∈ (ofSource source).root.children)
    (hm : ∃ c ∈ item.children, m ∈ c.preorder) : m.kind.isBelowItem := by
  obtain ⟨c, hc, hm⟩ := hm
  have hroot := Node.mem_preorder_child hitem
  have hkind : item.kind ≠ .modulePart := by
    intro h
    have := allows_ofSource (Node.self_mem_preorder _) hitem
    rw [kind_root, h] at this
    cases this
  have hpass : ∀ {k c : NodeKind}, k.isBelowItem → k.allows c → c.isBelowItem := by
    intro k c hk
    refine NodeKind.isBelowItem_of_allows ?_
    rintro rfl
    cases hk
  exact kind_below (Q := fun k => k.isBelowItem) hpass
    (Node.preorder_trans hroot (Node.mem_preorder_child hc))
    (NodeKind.isBelowItem_of_allows hkind (allows_ofSource hroot hc)) hm

/-- In an item that is no function no variables of a function are declared. -/
theorem isStill_below (hitem : item ∈ (ofSource source).root.children)
    (hkind : item.kind ≠ .functionDefinition) (hm : m ∈ item.preorder) : m.kind.isStill := by
  have hallows := allows_ofSource (Node.self_mem_preorder _) hitem
  rw [kind_root] at hallows
  refine kind_below (Q := fun k => k.isStill) NodeKind.isStill_of_allows
    (Node.mem_preorder_child hitem) ?_ hm
  revert hallows hkind
  cases item.kind <;> decide

end Tree

end Xref
