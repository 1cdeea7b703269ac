import Xref.Proofs.Syntax.Likeness
import Xref.Proofs.Syntax.Spans

/-!
# Texts in another format

Two texts of the same words may have other blanks, newlines and comments between the words. Parsing
does not look at these, so their trees are alike (`Reformat.alike`), and tokens with one number have
the same kind and the same text. Offsets are different, but a token still starts where no other token
does (`Reformat.Starts.unique`).
-/

namespace Xref

/-- The kind and the text of a lexeme, without the trivia around it. -/
def Lexeme.word (l : Lexeme) : TokenKind × String := (l.kind, l.text)

/-- Whether tokens have the same number, kind and text. -/
structure Token.SameWord (t t' : Token) : Prop where
  id : t'.id = t.id
  kind : t'.kind = t.kind
  text : t'.text = t.text

/-- Two source texts of the same words. -/
structure Reformat where
  before : String
  after : String
  words : (lex after).map Lexeme.word = (lex before).map Lexeme.word

namespace Reformat

variable {ρ : Reformat} {t t' k k' : Token} {o o' o'' : Nat}

/-- Whether tokens of the two texts have one number, and so the same kind and text. -/
structure SameToken (ρ : Reformat) (t t' : Token) : Prop extends t.SameWord t' where
  mem : t ∈ sourceTokens ρ.before
  mem' : t' ∈ sourceTokens ρ.after

/-- Whether tokens with one number start at these offsets. -/
def Starts (ρ : Reformat) (o o' : Nat) : Prop :=
  ∃ t t', ρ.SameToken t t' ∧ t.span.start = o ∧ t'.span.start = o'

/-- The texts the other way round. -/
def flip (ρ : Reformat) : Reformat := ⟨ρ.after, ρ.before, ρ.words.symm⟩

theorem SameToken.flip (h : ρ.SameToken t t') : ρ.flip.SameToken t' t :=
  ⟨⟨h.id.symm, h.kind.symm, h.text.symm⟩, h.mem', h.mem⟩

theorem Starts.flip (h : ρ.Starts o o') : ρ.flip.Starts o' o := by
  obtain ⟨t, t', hsame, ho, ho'⟩ := h
  exact ⟨t', t, hsame.flip, ho', ho⟩

/-- What starts at an offset starts at one offset in the other text. -/
theorem Starts.unique (h : ρ.Starts o o') (h' : ρ.Starts o o'') : o' = o'' := by
  obtain ⟨t, t', hsame, rfl, rfl⟩ := h
  obtain ⟨k, k', hsame', hstart, rfl⟩ := h'
  obtain rfl := eq_of_start_eq hsame'.mem hsame.mem hstart
  rw [eq_of_id_eq hsame.mem' hsame'.mem' (hsame.id.trans hsame'.id.symm)]

/-! ## Trees -/

theorem forall₂_scan (ρ : Reformat) :
    List.Forall₂ (fun l l' => l'.word = l.word) (scan ρ.before).1 (scan ρ.after).1 := by
  have hwords := ρ.words
  rw [lex, lex, List.map_append, List.map_append] at hwords
  have hinit := List.append_inj_left' hwords rfl
  have hrel := List.forall₂_eq_eq_eq ▸ hinit
  rw [List.forall₂_map_left_iff, List.forall₂_map_right_iff] at hrel
  exact hrel.flip

/-- **Texts of the same words have trees that are alike,** in which tokens with one number have the
same kind and text. -/
theorem alike (ρ : Reformat) :
    (Tree.ofSource ρ.before).root.Alike ρ.SameToken (Tree.ofSource ρ.after).root := by
  have hdiscerning : Discerning fun l l' => l'.word = l.word := fun l l' h =>
    ⟨congrArg Prod.fst h, fun _ => congrArg Prod.snd h⟩
  have hphrase := Phrase.alike_ofSource hdiscerning ρ.forall₂_scan rfl
  have halike : (Tree.ofSource ρ.before).root.Alike
      (fun t t' => t'.id = t.id ∧ t'.lexeme.word = t.lexeme.word) (Tree.ofSource ρ.after).root :=
    (alike_placed _ _ .start .start hphrase rfl rfl).1
  refine halike.imp fun t ht t' ht' h => ?_
  rw [Tree.tokens_root] at ht ht'
  exact ⟨⟨h.1, congrArg Prod.fst h.2, congrArg Prod.snd h.2⟩, ht, ht'⟩

end Reformat

end Xref
