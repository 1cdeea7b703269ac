import Mathlib.Data.List.Flatten
import Mathlib.Data.List.Perm.Basic
import Mathlib.Data.List.Range
import Xref.Proofs.Syntax.Spans
import Xref.Syntax.Walk

/-!
# What a builder holds

Whatever a builder is told, its pending slots hold every token that it was given, once and in order,
and every node that it finished, once (`TreeBuilder.Holds`). Each instruction keeps this, also one
that opens a node at a checkpoint of old and then takes slots of another node. So a tree that comes of
it has lost nothing, doubled nothing and changed no order (`BuildRun.finish_keeps_all`).
-/

namespace Xref

/-- The lexeme that an instruction adds to the text. -/
def BuildStep.lexeme? : BuildStep → Option Lexeme
  | .token l => some l
  | _ => none

/-- The token that a walk comes across. -/
def WalkEvent.tokenId? : WalkEvent → Option TokenId
  | .token id => some id
  | _ => none

namespace Tree

/-- Every slot of every node. -/
def slots (t : Tree) : List Child := t.root.preorder.flatMap Node.slots

end Tree

/-! ## Ends -/

/-- Whether the ends of a node or a slot are the first and the last of its tokens. -/
def EndsFit (ends : Option (Token × Token)) (tokens : List Token) : Prop :=
  ends.map Prod.fst = tokens.head? ∧ ends.map Prod.snd = tokens.getLast?

section
variable {slots : List Child} (h : ∀ s ∈ slots, EndsFit (Child.ends s) (Node.slotTokens s))

include h

theorem head?_tokensOf :
    (slots.findSome? Child.ends).map Prod.fst = (Node.tokensOf slots).head? := by
  rw [Node.tokensOf_eq]
  induction slots with
  | nil => rfl
  | cons s rest ih =>
    rw [List.forall_mem_cons] at h
    rw [List.findSome?_cons, List.flatMap_cons, List.head?_append, ← ih h.2, ← h.1.1]
    cases Child.ends s <;> rfl

theorem getLast?_tokensOf :
    (slots.reverse.findSome? Child.ends).map Prod.snd = (Node.tokensOf slots).getLast? := by
  rw [Node.tokensOf_eq]
  induction slots with
  | nil => rfl
  | cons s rest ih =>
    rw [List.forall_mem_cons] at h
    rw [List.reverse_cons, List.findSome?_append, List.flatMap_cons, List.getLast?_append,
      ← ih h.2, ← h.1.2, Option.map_or, List.findSome?_singleton]

/-- The ends of several slots are their first and last tokens if those of each slot are. -/
theorem endsFit_endsOf : EndsFit (Child.endsOf slots) (Node.tokensOf slots) := by
  have hfirst := head?_tokensOf h
  have hlast := getLast?_tokensOf h
  rw [Child.endsOf]
  cases hstart : slots.findSome? Child.ends with
  | none =>
    rw [hstart] at hfirst
    rw [List.head?_eq_none_iff.1 hfirst.symm]
    exact ⟨rfl, rfl⟩
  | some first =>
    cases hstop : slots.reverse.findSome? Child.ends with
    | none =>
      rw [hstop] at hlast
      rw [List.getLast?_eq_none_iff.1 hlast.symm]
      exact ⟨rfl, rfl⟩
    | some last =>
      rw [hstart] at hfirst
      rw [hstop] at hlast
      exact ⟨hfirst, hlast⟩

end

/-- Whether a node has a higher number than the nodes right below it, and its ends are its first and
last token. -/
structure Node.Sound (n : Node) : Prop where
  children : ∀ c ∈ n.children, c.id < n.id
  ends : EndsFit n.ends n.tokens

/-! ## The invariant -/

namespace TreeBuilder

/-- **The invariant** of a builder that was given the lexemes `ls`: they make up its text and its
tokens, its pending slots hold all tokens in order and all finished nodes, and the nodes are sound. -/
structure Holds (b : TreeBuilder) (ls : List Lexeme) : Prop where
  text : b.text = String.join (ls.map Lexeme.source)
  tokens : b.tokens.toList = tokensFrom .start ls
  pending : Node.tokensOf b.pending.toList = b.tokens.toList
  ids : ((Node.preorderOf b.pending.toList).map Node.id).Perm (List.range b.nodeCount)
  nodes : ∀ n ∈ Node.preorderOf b.pending.toList, n.Sound

variable {b b' : TreeBuilder} {ls : List Lexeme}

theorem Holds.empty : empty.Holds [] := ⟨rfl, rfl, rfl, .refl _, fun _ h => nomatch h⟩

/-- Opening a node changes no slot. -/
theorem Holds.open (h : b.Holds ls) (os : List OpenNode) : { b with opened := os }.Holds ls :=
  ⟨h.text, h.tokens, h.pending, h.ids, h.nodes⟩

theorem tokensOf_append (ss ts : List Child) :
    Node.tokensOf (ss ++ ts) = Node.tokensOf ss ++ Node.tokensOf ts := by
  rw [Node.tokensOf_eq, Node.tokensOf_eq, Node.tokensOf_eq, List.flatMap_append]

theorem preorderOf_append (ss ts : List Child) :
    Node.preorderOf (ss ++ ts) = Node.preorderOf ss ++ Node.preorderOf ts := by
  rw [Node.preorderOf_eq, Node.preorderOf_eq, Node.preorderOf_eq, List.filterMap_append,
    List.flatMap_append]

theorem Holds.token (h : b.Holds ls) (l : Lexeme) : (b.token l).Holds (ls ++ [l]) where
  text := by
    rw [List.map_append, String.join_append, ← h.text]
    simp [TreeBuilder.token, String.join]
  tokens := by
    have hsize : b.tokens.size = ls.length := by
      rw [← Array.length_toList, h.tokens, length_tokensFrom]
    have hoffset : b.offset = bytesOf ls := by rw [offset, h.text, utf8ByteSize_join_source]
    rw [tokensFrom_append, ← h.tokens]
    simp [TreeBuilder.token, tokensFrom, Place.start, hsize, hoffset]
  pending := by
    simp only [TreeBuilder.token, Array.toList_push]
    rw [tokensOf_append, h.pending]
    rfl
  ids := by
    simp only [TreeBuilder.token, Array.toList_push]
    rw [preorderOf_append]
    simpa [Node.preorderOf] using h.ids
  nodes := by
    simp only [TreeBuilder.token, Array.toList_push]
    rw [preorderOf_append]
    simpa [Node.preorderOf] using h.nodes

theorem Holds.missing (h : b.Holds ls) : b.missing.Holds ls where
  text := h.text
  tokens := h.tokens
  pending := by
    simp only [TreeBuilder.missing, Array.toList_push]
    rw [tokensOf_append, h.pending]
    exact List.append_nil _
  ids := by
    simp only [TreeBuilder.missing, Array.toList_push]
    rw [preorderOf_append]
    simpa [Node.preorderOf] using h.ids
  nodes := by
    simp only [TreeBuilder.missing, Array.toList_push]
    rw [preorderOf_append]
    simpa [Node.preorderOf] using h.nodes

/-- The node that finishing an open node makes. -/
def closed (b : TreeBuilder) (o : OpenNode) : Node :=
  ⟨b.nodeCount, o.kind, ⟨o.start, b.offset⟩, Child.endsOf (b.pending.toList.drop o.firstSlot),
    b.pending.toList.drop o.firstSlot⟩

/-- **What finishing a node does:** the pending slots from its first one on give way to the node. -/
theorem finishNode_eq_ok (h : b.finishNode = .ok b') :
    ∃ o rest, b.opened = o :: rest ∧ o.firstSlot ≤ b.pending.size ∧
      b'.text = b.text ∧ b'.tokens = b.tokens ∧ b'.nodeCount = b.nodeCount + 1 ∧ b'.opened = rest ∧
      b'.pending.toList = b.pending.toList.take o.firstSlot ++ [.node (b.closed o)] := by
  rw [finishNode] at h
  split at h
  · cases h
  · rename_i o rest hopened
    split at h
    · cases h
    · rename_i hsize
      obtain rfl := Except.ok.inj h
      have hslots : (b.pending.extract o.firstSlot b.pending.size).toList =
          b.pending.toList.drop o.firstSlot := by
        rw [Array.toList_extract, List.extract_eq_take_drop]
        exact List.take_of_length_le (by simp)
      refine ⟨o, rest, hopened, Nat.le_of_not_lt hsize, rfl, rfl, rfl, rfl, ?_⟩
      dsimp only
      rw [hslots, Array.toList_push, Array.toList_shrink]
      rfl

theorem Holds.finishNode (h : b.Holds ls) (hfinish : b.finishNode = .ok b') : b'.Holds ls := by
  obtain ⟨o, rest, -, -, htext, htokens, hcount, -, hpending⟩ := finishNode_eq_ok hfinish
  have hsplit := List.take_append_drop o.firstSlot b.pending.toList
  have hnodes := preorderOf_append (b.pending.toList.take o.firstSlot)
    (b.pending.toList.drop o.firstSlot)
  have hall := tokensOf_append (b.pending.toList.take o.firstSlot)
    (b.pending.toList.drop o.firstSlot)
  rw [hsplit] at hnodes hall
  have hafter : Node.preorderOf b'.pending.toList =
      Node.preorderOf (b.pending.toList.take o.firstSlot) ++
        b.closed o :: Node.preorderOf (b.pending.toList.drop o.firstSlot) := by
    rw [hpending, preorderOf_append]
    simp [Node.preorderOf, Node.preorder, closed]
  have hbelow : ∀ n ∈ Node.preorderOf (b.pending.toList.drop o.firstSlot),
      n ∈ Node.preorderOf b.pending.toList := by
    intro n hn
    rw [hnodes]
    exact List.mem_append_right _ hn
  refine ⟨htext.trans h.text, by rw [htokens, h.tokens], ?_, ?_, ?_⟩
  · rw [hpending, tokensOf_append, htokens, ← h.pending, hall]
    simp [closed]
  · rw [hafter, hcount, List.range_succ]
    have hperm := h.ids
    rw [hnodes] at hperm
    simp only [List.map_append, List.map_cons] at hperm ⊢
    exact (List.perm_middle.trans (hperm.cons _)).trans (List.perm_append_singleton _ _).symm
  · intro n hn
    rw [hafter, List.mem_append, List.mem_cons] at hn
    rcases hn with hn | rfl | hn
    · exact h.nodes n (hnodes ▸ List.mem_append_left _ hn)
    · constructor
      · intro c hc
        have hmem : c ∈ Node.preorderOf (b.pending.toList.drop o.firstSlot) := by
          rw [Node.preorderOf_eq]
          exact List.mem_flatMap.2 ⟨c, hc, c.self_mem_preorder⟩
        have hid := h.ids.mem_iff.1 (List.mem_map_of_mem (hbelow c hmem))
        exact List.mem_range.1 hid
      · refine endsFit_endsOf fun s hs => ?_
        cases s with
        | node c =>
          refine (h.nodes c (hbelow c ?_)).ends
          rw [Node.preorderOf_eq]
          exact List.mem_flatMap.2 ⟨c, List.mem_filterMap.2 ⟨_, hs, rfl⟩, c.self_mem_preorder⟩
        | token t => exact ⟨rfl, rfl⟩
        | missing => exact ⟨rfl, rfl⟩
    · exact h.nodes n (hbelow n hn)

end TreeBuilder

namespace BuildRun

variable {r : BuildRun} {ls : List Lexeme}

/-- What an instruction to open a node at a checkpoint does. -/
theorem step_startAt_cases (r : BuildRun) {i : Nat} (kind : NodeKind) {c : Checkpoint}
    (hc : r.marks.getD i default = c) :
    (c.depth = r.builder.depth ∧ c.pending ≤ r.builder.pending.size) ∧
        r.step (.startAt i kind) = (.depth (r.builder.depth + 1), ⟨{ r.builder with
          opened := ⟨kind, c.pending, c.offset⟩ :: r.builder.opened }, r.marks⟩) ∨
      ¬ (c.depth = r.builder.depth ∧ c.pending ≤ r.builder.pending.size) ∧
        r.step (.startAt i kind) = (.failed .staleCheckpoint, r) := by
  by_cases hrefused : c.depth ≠ r.builder.depth ∨ r.builder.pending.size < c.pending
  · refine .inr ⟨by omega, ?_⟩
    simp only [step, hc, TreeBuilder.startAt, if_pos hrefused]
  · refine .inl ⟨by omega, ?_⟩
    simp only [step, hc, TreeBuilder.startAt, if_neg hrefused]
    rfl

/-- What an instruction to finish a node does. -/
theorem step_finish_cases (r : BuildRun) :
    (∃ b, r.builder.finishNode = .ok b ∧
        r.step .finish = (.node r.builder.nodeCount, ⟨b, r.marks⟩)) ∨
      ∃ e, r.builder.finishNode = .error e ∧ r.step .finish = (.failed e, r) := by
  cases hfinish : r.builder.finishNode with
  | ok b => exact .inl ⟨b, rfl, by simp only [step, hfinish]⟩
  | error e => exact .inr ⟨e, rfl, by simp only [step, hfinish]⟩

/-- **Every instruction keeps the invariant.** -/
theorem holds_step (h : r.builder.Holds ls) (s : BuildStep) :
    (r.step s).2.builder.Holds (ls ++ s.lexeme?.toList) := by
  cases s with
  | token l => exact h.token l
  | start kind =>
    show TreeBuilder.Holds _ (ls ++ [])
    rw [List.append_nil]
    exact h.open _
  | mark =>
    show TreeBuilder.Holds _ (ls ++ [])
    rw [List.append_nil]
    exact h
  | startAt i kind =>
    show TreeBuilder.Holds _ (ls ++ [])
    rw [List.append_nil]
    rcases r.step_startAt_cases kind (i := i) rfl with ⟨-, hstep⟩ | ⟨-, hstep⟩
    · rw [hstep]
      exact h.open _
    · rw [hstep]
      exact h
  | missing =>
    show TreeBuilder.Holds _ (ls ++ [])
    rw [List.append_nil]
    exact h.missing
  | finish =>
    show TreeBuilder.Holds _ (ls ++ [])
    rw [List.append_nil]
    rcases r.step_finish_cases with ⟨b, hfinish, hstep⟩ | ⟨e, -, hstep⟩
    · rw [hstep]
      exact h.finishNode hfinish
    · rw [hstep]
      exact h

theorem holds_run (h : r.builder.Holds ls) (steps : List BuildStep) :
    (r.run steps).2.builder.Holds (ls ++ steps.filterMap BuildStep.lexeme?) := by
  induction steps generalizing r ls with
  | nil => simpa [run] using h
  | cons s rest ih =>
    have hrest := ih (holds_step h s)
    rw [run]
    cases hs : s.lexeme? <;> simpa [List.filterMap_cons, hs] using hrest

end BuildRun

/-! ## Slots of a tree -/

namespace Node

theorem slotsBelow_eq (n : Node) : n.preorder.flatMap slots =
    n.slots ++ n.children.flatMap fun c => c.preorder.flatMap slots := by
  rw [preorder_eq, List.flatMap_cons, List.flatMap_assoc]

/-- The tokens in several slots lie in these or in slots below them. -/
theorem tokensOf_perm {below : Node → List Token} : ∀ slots : List Child,
    (∀ c ∈ slots.filterMap Slot.node?, (below c).Perm c.tokens) →
    (slots.filterMap Slot.token? ++ (slots.filterMap Slot.node?).flatMap below).Perm
      (tokensOf slots)
  | [], _ => .refl _
  | .node c :: rest, h => by
    have hnodes : (Slot.node c :: rest).filterMap Slot.node? = c :: rest.filterMap Slot.node? := rfl
    rw [hnodes, List.forall_mem_cons] at h
    rw [hnodes, List.flatMap_cons, tokensOf_node]
    exact List.perm_append_comm_assoc _ _ _ |>.trans (h.1.append (tokensOf_perm rest h.2))
  | .token t :: rest, h => (tokensOf_perm rest h).cons t
  | .missing :: rest, h => tokensOf_perm rest h

/-- Every token lies in one slot below a node. -/
theorem tokenSlots_perm (n : Node) :
    ((n.preorder.flatMap slots).filterMap Slot.token?).Perm n.tokens := by
  induction n using induct with
  | h n ih =>
    have htokens : n.tokens = tokensOf n.slots := by cases n; rfl
    rw [slotsBelow_eq, List.filterMap_append, List.filterMap_flatMap, htokens]
    exact tokensOf_perm n.slots ih

/-- Every node but the one at the top lies in one slot below it. -/
theorem nodeSlots_perm (n : Node) :
    (n :: (n.preorder.flatMap slots).filterMap Slot.node?).Perm n.preorder := by
  induction n using induct with
  | h n ih =>
    have hself : n.children = n.children.flatMap fun c => [c] := by simp
    rw [slotsBelow_eq, List.filterMap_append, List.filterMap_flatMap, preorder_eq]
    refine List.Perm.cons n ?_
    show (n.children ++ _).Perm _
    rw [hself, List.flatMap_assoc, List.flatMap_assoc]
    refine (List.flatMap_append_perm _ _ _).trans (List.Perm.flatMap_left _ fun c hc => ?_)
    simpa using ih c hc

/-- A node has a higher number than every other node below it. -/
theorem id_le_of_sound {n m : Node} (h : ∀ k ∈ n.preorder, k.Sound) (hm : m ∈ n.preorder) :
    m.id ≤ n.id := by
  induction n using induct with
  | h n ih =>
    rcases mem_preorder.1 hm with rfl | ⟨c, hc, hm⟩
    · exact Nat.le_refl _
    · have hchild := (h n n.self_mem_preorder).children c hc
      have hbelow := ih c hc (fun k hk => h k (mem_preorder.2 (.inr ⟨c, hc, hk⟩))) hm
      exact Nat.le_trans hbelow (Nat.le_of_lt hchild)

end Node

/-! ## Walks -/

mutual

theorem Node.walk_tokens : ∀ n : Node,
    (n.walk fun _ => false).filterMap WalkEvent.tokenId? = n.tokens.map Token.id
  | ⟨id, kind, full, ends, slots⟩ => by
    rw [Node.walk, if_neg Bool.false_ne_true, List.filterMap_cons_none rfl, List.filterMap_append,
      Child.walkAll_tokens id 0 slots, Node.tokens_mk]
    exact List.append_nil _

theorem Child.walkAll_tokens (parent : NodeId) : ∀ (index : Nat) (slots : List Child),
    (Child.walkAll (fun _ => false) parent index slots).filterMap WalkEvent.tokenId? =
      (Node.tokensOf slots).map Token.id
  | _, [] => rfl
  | index, .node n :: rest => by
    rw [Child.walkAll, List.filterMap_append, Node.walk_tokens n,
      Child.walkAll_tokens parent (index + 1) rest, Node.tokensOf_node, List.map_append]
  | index, .token t :: rest => by
    rw [Child.walkAll, Node.tokensOf_token, List.map_cons,
      ← Child.walkAll_tokens parent (index + 1) rest]
    rfl
  | index, .missing :: rest => by
    rw [Child.walkAll, List.filterMap_cons_none rfl,
      Child.walkAll_tokens parent (index + 1) rest, Node.tokensOf_missing]

end

/-! ## Texts of tokens -/

/-- Whether the spans of a token and of its trivia lead to their texts. -/
structure Tree.Spells (tree : Tree) (t : Token) : Prop where
  leading : (t.leading.map fun p => ⟨p.1, tree.slice p.2⟩) = t.lexeme.leading
  text : tree.slice t.span = t.text
  trailing : (t.trailing.map fun p => ⟨p.1, tree.slice p.2⟩) = t.lexeme.trailing

namespace Tree

variable {tree : Tree}

theorem slice_eq {as cs bs : List Char} (h : tree.text.toList = as ++ (cs ++ bs)) :
    tree.slice ⟨Text.byteLength as, Text.byteLength as + Text.byteLength cs⟩ =
      String.ofList cs := by
  have hslice := Text.slice?_eq_some_iff.2 ⟨as, bs, h, rfl, rfl⟩
  simp only [slice, hslice]

/-- The spans of consecutive trivia lead to their texts. -/
theorem slice_placeTrivia {as bs : List Char} {pieces : List Trivia}
    (h : tree.text.toList = as ++ ((Trivia.join pieces).toList ++ bs)) :
    ((Token.placeTrivia (Text.byteLength as) pieces).map fun p =>
      (⟨p.1, tree.slice p.2⟩ : Trivia)) = pieces := by
  induction pieces generalizing as with
  | nil => rfl
  | cons piece rest ih =>
    rw [Trivia.toList_join, List.flatMap_cons, ← Trivia.toList_join, List.append_assoc] at h
    have hpiece := slice_eq h
    rw [← List.append_assoc] at h
    have hrest := ih h
    rw [Text.byteLength_append, ← Text.utf8ByteSize_eq] at hrest
    rw [← Text.utf8ByteSize_eq, String.ofList_toList] at hpiece
    rw [Token.placeTrivia, List.map_cons, hrest, hpiece]

theorem spells_of_mem {ls : List Lexeme} (htext : tree.text = String.join (ls.map Lexeme.source))
    {t : Token} (ht : t ∈ tokensFrom .start ls) : tree.Spells t := by
  obtain ⟨i, hi⟩ := List.getElem?_of_mem ht
  rw [getElem?_tokensFrom, Option.map_eq_some_iff] at hi
  obtain ⟨l, hl, rfl⟩ := hi
  obtain ⟨hlt, rfl⟩ := List.getElem?_eq_some_iff.1 hl
  have hsplit : ls = ls.take i ++ (ls[i] :: ls.drop (i + 1)) := by
    rw [← List.drop_eq_getElem_cons hlt, List.take_append_drop]
  have hleading : tree.text.toList = (ls.take i).flatMap Lexeme.chars ++
      ((Trivia.join ls[i].leading).toList ++ (ls[i].text.toList ++
        ((Trivia.join ls[i].trailing).toList ++ (ls.drop (i + 1)).flatMap Lexeme.chars))) := by
    rw [htext, String.toList_join, List.flatMap_map]
    conv_lhs => rw [hsplit, List.flatMap_append, List.flatMap_cons]
    show _ ++ (ls[i].chars ++ _) = _
    rw [Lexeme.chars_eq]
    simp only [List.append_assoc]
    rfl
  have hoffset : Place.start.offset + bytesOf (ls.take i) =
      Text.byteLength ((ls.take i).flatMap Lexeme.chars) := by
    rw [byteLength_flatMap_chars, Place.start, Nat.zero_add]
  have htoken := hleading
  rw [← List.append_assoc] at htoken
  have htrailing := htoken
  rw [← List.append_assoc] at htrailing
  have hslice := slice_eq htoken
  rw [Text.byteLength_append, ← hoffset, ← Text.utf8ByteSize_eq, ← Text.utf8ByteSize_eq,
    String.ofList_toList] at hslice
  have hpieces := slice_placeTrivia htrailing
  rw [Text.byteLength_append, Text.byteLength_append, ← hoffset, ← Text.utf8ByteSize_eq,
    ← Text.utf8ByteSize_eq] at hpieces
  have hfirst := slice_placeTrivia hleading
  rw [← hoffset] at hfirst
  exact ⟨hfirst, hslice, hpieces⟩

end Tree

/-! ## Finished trees -/

namespace TreeBuilder

variable {b : TreeBuilder} {ls : List Lexeme} {tree : Tree}

theorem finish_eq_ok_iff : b.finish = .ok tree ↔ b.opened = [] ∧ b.offset ≤ Span.maxOffset ∧
    ∃ root, b.pending.toList = [.node root] ∧ tree = ⟨b.text, b.tokens, b.nodeCount, root⟩ := by
  rw [finish]
  split
  · rename_i hopened
    exact ⟨nofun, fun h => absurd h.1 hopened⟩
  rename_i hopened
  rw [not_not] at hopened
  split
  · rename_i hlarge
    exact ⟨nofun, fun h => absurd h.2.1 (Nat.not_le.2 hlarge)⟩
  rename_i hsize
  rw [Nat.not_lt] at hsize
  split
  · rename_i root hpending
    rw [hpending]
    constructor
    · intro h
      exact ⟨hopened, hsize, root, rfl, (Except.ok.inj h).symm⟩
    · rintro ⟨-, -, root', hroot, rfl⟩
      cases hroot
      rfl
  · rename_i hslots
    refine ⟨nofun, ?_⟩
    rintro ⟨-, -, root, hroot, -⟩
    exact absurd hroot (hslots root)

/-- What holds of the pending slots holds of the finished tree. -/
theorem Holds.finish (h : b.Holds ls) (hfinish : b.finish = .ok tree) :
    tree.text = String.join (ls.map Lexeme.source) ∧ tree.tokens.toList = tokensFrom .start ls ∧
      tree.root.tokens = tree.tokens.toList ∧
      (tree.root.preorder.map Node.id).Perm (List.range tree.nodeCount) ∧
      ∀ n ∈ tree.root.preorder, n.Sound := by
  obtain ⟨-, -, root, hroot, rfl⟩ := finish_eq_ok_iff.1 hfinish
  have hpending := h.pending
  have hids := h.ids
  have hnodes := h.nodes
  rw [hroot] at hpending hids hnodes
  rw [Node.tokensOf_node, Node.tokensOf_nil, List.append_nil] at hpending
  rw [Node.preorderOf, Node.preorderOf, List.append_nil] at hids hnodes
  exact ⟨h.text, h.tokens, hpending, hids, hnodes⟩

end TreeBuilder

theorem map_id_tokensFrom (p : Place) (ls : List Lexeme) :
    (tokensFrom p ls).map Token.id = List.range' p.token ls.length := by
  induction ls generalizing p with
  | nil => rfl
  | cons l ls ih => rw [tokensFrom, List.map_cons, ih, List.length_cons, List.range'_succ]; rfl

/-- **A builder loses nothing, doubles nothing and changes no order,** whatever it is told and with
whatever checkpoints; an instruction that fails leaves it as it was. -/
theorem BuildRun.finish_keeps_all (steps : List BuildStep) {tree : Tree}
    (h : (empty.run steps).2.builder.finish = .ok tree) :
    tree.text = String.join ((steps.filterMap BuildStep.lexeme?).map Lexeme.source) ∧
    tree.tokens.toList.map Token.lexeme = steps.filterMap BuildStep.lexeme? ∧
    tree.tokens.toList.map Token.id = List.range tree.tokenCount ∧
    (tree.slots.filterMap Slot.token?).Perm tree.tokens.toList ∧
    ((tree.slots.filterMap Slot.node?).map Node.id).Perm (List.range tree.root.id) ∧
    tree.nodeCount = tree.root.id + 1 ∧
    (∀ n ∈ tree.root.preorder, ∀ c ∈ n.children, c.id < n.id) ∧
    (tree.walk fun _ => false).filterMap WalkEvent.tokenId? = List.range tree.tokenCount ∧
    (∀ n ∈ tree.root.preorder, EndsFit n.ends n.tokens) ∧
    (∀ t ∈ tree.tokens.toList, tree.Spells t) ∧
    tree.collectText = tree.text := by
  have hholds := holds_run (r := empty) TreeBuilder.Holds.empty steps
  rw [List.nil_append] at hholds
  generalize steps.filterMap BuildStep.lexeme? = ls at hholds ⊢
  obtain ⟨htext, htokens, hroot, hids, hsound⟩ := hholds.finish h
  have hcount : tree.tokenCount = ls.length := by
    rw [Tree.tokenCount, ← Array.length_toList, htokens, length_tokensFrom]
  have hnumbers : tree.tokens.toList.map Token.id = List.range tree.tokenCount := by
    rw [htokens, map_id_tokensFrom, hcount, List.range_eq_range']
    rfl
  have hlexemes : tree.tokens.toList.map Token.lexeme = ls := by rw [htokens, map_lexeme_tokensFrom]
  have hcollect : tree.collectText = tree.text := by
    rw [htext, ← hlexemes, List.map_map, Tree.collectText, hroot]
    rfl
  have hperm := (tree.root.nodeSlots_perm.map Node.id).trans hids
  -- The root has the highest number, so the others are all smaller ones.
  have hlast : tree.nodeCount = tree.root.id + 1 := by
    have hlt : tree.root.id < tree.nodeCount :=
      List.mem_range.1 (hids.mem_iff.1 (List.mem_map_of_mem tree.root.self_mem_preorder))
    have hmax : tree.nodeCount - 1 ∈ List.range tree.nodeCount :=
      List.mem_range.2 (Nat.sub_lt (Nat.zero_lt_of_lt hlt) Nat.one_pos)
    obtain ⟨n, hn, hid⟩ := List.mem_map.1 (hids.mem_iff.2 hmax)
    have hle := Node.id_le_of_sound hsound hn
    rw [hid] at hle
    exact Nat.le_antisymm (Nat.le_add_of_sub_le hle) hlt
  rw [hlast, List.range_succ, List.map_cons] at hperm
  refine ⟨htext, hlexemes, hnumbers, hroot ▸ tree.root.tokenSlots_perm, ?_, hlast,
    fun n hn => (hsound n hn).children, ?_, fun n hn => (hsound n hn).ends, ?_, hcollect⟩
  · exact (hperm.trans (List.perm_append_singleton _ _)).cons_inv
  · rw [Tree.walk, Node.walk_tokens, hroot, hnumbers]
  · exact fun t ht => Tree.spells_of_mem htext (htokens ▸ ht)

/-- Instructions that open a node at a checkpoint inside a node that is finished by then, and take
slots from the node that is open. -/
def overtakingSteps : List BuildStep :=
  [.start .modulePart, .start .blockStatement, .mark, .token ⟨.identifier, "a", [], []⟩, .finish,
    .start .blockStatement, .token ⟨.identifier, "b", [], [⟨.whitespace, " "⟩]⟩, .startAt 0 .invalid, .finish,
    .finish, .token ⟨.endOfFile, "", [], []⟩, .finish]

theorem BuildRun.finish_keeps_all_overtaking : ∃ tree,
    (empty.run overtakingSteps).2.builder.finish = .ok tree ∧ tree.text = "ab " ∧
    tree.tokens.toList.map Token.text = ["a", "b", ""] ∧ tree.collectText = tree.text ∧
    tree.nodeCount = 4 := by
  obtain ⟨tree, htree⟩ : ∃ tree, (empty.run overtakingSteps).2.builder.finish = .ok tree := ⟨_, rfl⟩
  obtain ⟨htext, htokens, -, -, -, -, -, -, -, -, hcollect⟩ := finish_keeps_all overtakingSteps htree
  refine ⟨tree, htree, htext.trans rfl, ?_, hcollect, ?_⟩
  · have htexts := congrArg (List.map Lexeme.text) htokens
    rw [List.map_map] at htexts
    exact htexts
  · cases htree
    rfl

end Xref
