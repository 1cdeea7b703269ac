import Xref.Proofs.Syntax.Placement
import Xref.Proofs.Syntax.Tiling

/-!
# The token at an offset

The tree of a source text is tiled (`Tree.tiled_ofSource`), so the descent finds exactly the token
that holds the byte at the offset, with the nodes above it (`Tree.locate_eq_ok_iff`).
-/

namespace Xref

mutual

/-- Every node of a placed phrase is tiled. -/
theorem tiled_placed : ∀ (q : Phrase) (p : Place), ∀ n ∈ (q.placed p).1.preorder, n.Tiled
  | ⟨kind, slots⟩, p => by
    obtain ⟨hslots, hbelow⟩ := tiles_placedParts slots p
    exact List.forall_mem_cons.2 ⟨hslots, hbelow⟩

theorem tiles_placedParts : ∀ (qs : List Part) (p : Place),
    Tiles p.offset (placedParts qs p).1 (placedParts qs p).2.offset ∧
      ∀ n ∈ Node.preorderOf (placedParts qs p).1, n.Tiled
  | [], _ => ⟨rfl, fun _ hn => nomatch hn⟩
  | .node q :: rest, p => by
    obtain ⟨hrest, hbelow⟩ := tiles_placedParts rest (q.placed p).2
    have hfull : (q.placed p).1.fullSpan = ⟨p.offset, (q.placed p).2.offset⟩ := by
      rw [fullSpan_placed, (place_placed q p).2]
    exact ⟨⟨_, hfull, hrest⟩, List.forall_mem_append.2 ⟨tiled_placed q p, hbelow⟩⟩
  | .token l :: rest, p => by
    obtain ⟨hrest, hbelow⟩ := tiles_placedParts rest (p.behindToken l)
    exact ⟨⟨_, rfl, hrest⟩, hbelow⟩
  | .missing :: rest, p => by
    obtain ⟨hrest, hbelow⟩ := tiles_placedParts rest p
    exact ⟨⟨_, rfl, hrest⟩, hbelow⟩

end

namespace Tree

variable {source : String}

theorem tiled_ofSource : (ofSource source).Tiled where
  root := by
    show (Phrase.rootOf source).1.fullSpan = _
    rw [Phrase.rootOf, fullSpan_placed, Phrase.lexemes_ofSource, ← utf8ByteSize_join_source,
      join_lex, Place.start, Nat.zero_add]
    rfl
  nodes := tiled_placed _ _

/-- A token is found at an offset of a source text exactly if it holds the byte there, and with it
the nodes above it. -/
theorem locate_eq_ok_iff {offset : Nat} {path : TokenPath} :
    (ofSource source).locate offset = .ok path ↔
      (ofSource source).root.Leads path.ancestors path.token ∧ path.token.Covers offset :=
  tiled_ofSource.locate_eq_ok_iff

end Tree

end Xref
