import Xref.Proofs.Syntax.Bounds
import Xref.Proofs.Syntax.Instructions

/-!
# Parsing is lossless

However little a text looks like a module, nothing on the way to its tree fails or ends early, and the
tree holds what scanning finds, in order and each thing once (`parse_lossless`).
-/

namespace Xref

variable {source : String}

/-- The end of the file as a token. -/
def Token.ending (source : String) : Token :=
  ⟨(scan source).1.length, bytesOf (scan source).1, (scan source).2⟩

theorem sourceTokens_eq : sourceTokens source =
    tokensFrom .start (scan source).1 ++ [Token.ending source] := by
  rw [sourceTokens, lex, tokensFrom_append, Place.start, Nat.zero_add, Nat.zero_add]
  rfl

/-- No token but the last is the end of the file. -/
theorem kind_eq_endOfFile_iff {t : Token} (ht : t ∈ sourceTokens source) :
    t.kind = .endOfFile ↔ t = Token.ending source := by
  refine ⟨fun hend => ?_, fun h => h ▸ rfl⟩
  rw [sourceTokens_eq, List.mem_append, List.mem_singleton] at ht
  refine ht.resolve_left fun hbefore => ?_
  have hmem := List.mem_map_of_mem (f := Token.lexeme) hbefore
  rw [map_lexeme_tokensFrom] at hmem
  exact (kind_ne_of_mem_lexemes hmem).2 hend

/-- The end of the file lies in the last slot of the root. -/
theorem Tree.slots_root (source : String) : ∃ init, (Tree.ofSource source).root.slots =
    init ++ [.token (Token.ending source)] := by
  have hlexemes := Phrase.lexemes_ofSource source
  have hitems : Phrase.lexemesOf (Grammar.items (scan source).1.length (scan source).1).1 =
      (scan source).1 := by
    change Phrase.lexemesOf (_ ++ [.token (scan source).2]) = _ ++ [(scan source).2] at hlexemes
    rw [Phrase.lexemesOf_append] at hlexemes
    exact List.append_cancel_right hlexemes
  have hplace := place_placedParts (Grammar.items (scan source).1.length (scan source).1).1 .start
  rw [hitems, Place.start, Nat.zero_add, Nat.zero_add] at hplace
  have hslots : (Tree.ofSource source).root.slots = (placedParts
      ((Grammar.items (scan source).1.length (scan source).1).1 ++ [.token (scan source).2])
      .start).1 := rfl
  rw [placedParts_append] at hslots
  refine ⟨_, hslots.trans (congrArg (_ ++ ·) ?_)⟩
  simp only [placedParts, Token.ending, Place.start, hplace]

/-- What a tree keeps of a source text. -/
structure Tree.Lossless (source : String) (tree : Tree) : Prop where
  text : tree.text = source
  collected : tree.collectText = source
  /-- The tokens are the lexemes of the text, in order. -/
  lexemes : tree.tokens.toList.map Token.lexeme = lex source
  ids : tree.tokens.toList.map Token.id = List.range tree.tokenCount
  spelled : ∀ t ∈ tree.tokens.toList, tree.Spells t
  /-- Each token is in one slot. -/
  placed : (tree.slots.filterMap Slot.token?).Perm tree.tokens.toList
  root : tree.root.kind = .modulePart
  /-- The last slot of the root has the end of the file, and no other slot has one. -/
  ending : ∃ init last, tree.root.slots = init ++ [.token last] ∧
    ∀ t ∈ tree.tokens.toList, t.kind = .endOfFile ↔ t = last

theorem Tree.lossless_ofSource (source : String) : (Tree.ofSource source).Lossless source := by
  have hlexemes : (sourceTokens source).map Token.lexeme = lex source := map_lexeme_tokensFrom
  constructor
  · rfl
  · have hroot : (Tree.ofSource source).root.tokens = sourceTokens source := Tree.tokens_root
    rw [Tree.collectText, hroot]
    refine Eq.trans ?_ (join_lex source)
    rw [← hlexemes, List.map_map]
    rfl
  · exact hlexemes
  · have hcount : (Tree.ofSource source).tokenCount = (lex source).length := length_tokensFrom
    rw [hcount]
    show (sourceTokens source).map Token.id = _
    rw [sourceTokens, map_id_tokensFrom, List.range_eq_range']
    rfl
  · exact fun t ht => Tree.spells_of_mem (join_lex source).symm ht
  · show ((Tree.ofSource source).slots.filterMap Slot.token?).Perm (sourceTokens source)
    rw [← Tree.tokens_root]
    exact Node.tokenSlots_perm _
  · exact Tree.kind_root
  · obtain ⟨init, hslots⟩ := Tree.slots_root source
    exact ⟨init, _, hslots, fun t ht => kind_eq_endOfFile_iff ht⟩

/-- **Parsing is lossless.** Neither an instruction to the builder fails nor a bound of the grammar is
reached, and if offsets can count the bytes of the text there is a tree that keeps all of it. -/
theorem parse_lossless (hsize : source.utf8ByteSize ≤ Span.maxOffset) :
    ∃ tree, parse source = .ok tree ∧ tree.Lossless source ∧
      (∀ e, .failed e ∉ (BuildRun.empty.run (Phrase.ofSource source).instructions).1) ∧
      (BuildRun.empty.run (Phrase.ofSource source).instructions).2.builder.finish = .ok tree ∧
      ∀ n, (scan source).1.length ≤ n → Phrase.ofSource source =
        ⟨.modulePart, (Grammar.items n (scan source).1).1 ++ [.token (scan source).2]⟩ := by
  obtain ⟨-, hsucceeds, hfinish⟩ := (Phrase.ofSource source).instructions_build
  refine ⟨_, parse_eq_ok hsize, Tree.lossless_ofSource source, hsucceeds,
    hfinish.trans (parse_eq_ok hsize), fun n hn => ?_⟩
  rw [Grammar.items_eq hn]
  rfl

end Xref
