import Xref.Proofs.Syntax.Likeness
import Xref.Proofs.Text.Splices

/-!
# Respelling identifiers

To put other names in the place of identifiers of a source text, each one a name of its own, is to
do so in its lexemes, and in its tree (`respell_commutes`). The new text is made by a splice of the
old one, with no regard to lexemes: that it falls into the same lexemes again is what `Agree` is for.
-/

namespace Xref

variable {ρ : Token → Option String} {source : String}

/-- A source text in which the texts that `ρ` has for tokens stand in the place of these tokens. -/
def respell (ρ : Token → Option String) (source : String) : String :=
  splice (respellings ρ (sourceTokens source)) source

theorem toList_respell (ρ : Token → Option String) (source : String) : (respell ρ source).toList =
    ((sourceTokens source).map (Token.respelled ρ)).flatMap Lexeme.chars := by
  have hall := (replaces_respellings ρ (lex source) .start).eq_spliced
  rw [flatMap_chars_lex] at hall
  rw [respell, splice, String.toList_ofList]
  exact hall.symm

/-- **Respelling commutes with scanning and parsing.** The lexemes of the new text are those of the
old one with the new texts in them: kinds, trivia and all other texts are as they were. If offsets can
count the bytes of both texts, the tree of the new one has nodes of the same numbers and kinds, with
the same slots, and tokens of the same numbers. -/
theorem respell_commutes (hρ : ∀ t ∈ sourceTokens source, ∀ new ∈ ρ t,
      t.kind = .identifier ∧ isWord new ∧ new ∉ keywords ∧ new ∉ literalWords) :
    lex (respell ρ source) = (sourceTokens source).map (Token.respelled ρ) ∧
      (source.utf8ByteSize ≤ Span.maxOffset → (respell ρ source).utf8ByteSize ≤ Span.maxOffset →
        ∃ t t', parse source = .ok t ∧ parse (respell ρ source) = .ok t' ∧
          t.root.Alike (fun a b => b.id = a.id ∧ b.lexeme = a.respelled ρ) t'.root) := by
  have hnames : Respells ρ source := fun t ht new hnew =>
    let ⟨hkind, hword, hkeyword, hliteral⟩ := hρ t ht new hnew
    ⟨hkind, hword, wordKind_eq_identifier hkeyword hliteral⟩
  have htext := toList_respell ρ source
  exact ⟨lex_respelled hnames htext, fun hsize hsize' =>
    ⟨_, _, parse_eq_ok hsize, parse_eq_ok hsize', Tree.alike_respelled hnames htext⟩⟩

/-- New texts for two of the identifiers of a source text, one of which stands right behind a
digit. -/
def twoSpellings (t : Token) : Option String :=
  if t.text = "f" then some "g1" else if t.text = "a" then some "_" else none

theorem respell_commutes_twoSpellings :
    (∀ t ∈ sourceTokens "fn f(){1a/b;}", ∀ new ∈ twoSpellings t,
      t.kind = .identifier ∧ isWord new ∧ new ∉ keywords ∧ new ∉ literalWords) ∧
      lex (respell twoSpellings "fn f(){1a/b;}") =
        (sourceTokens "fn f(){1a/b;}").map (Token.respelled twoSpellings) ∧
      ∃ t t', parse "fn f(){1a/b;}" = .ok t ∧
        parse (respell twoSpellings "fn f(){1a/b;}") = .ok t' ∧
        t.root.Alike (fun a b => b.id = a.id ∧ b.lexeme = a.respelled twoSpellings) t'.root :=
  have hρ : ∀ t ∈ sourceTokens "fn f(){1a/b;}", ∀ new ∈ twoSpellings t,
      t.kind = .identifier ∧ isWord new ∧ new ∉ keywords ∧ new ∉ literalWords := by decide +kernel
  have ⟨hlex, hparse⟩ := respell_commutes hρ
  ⟨hρ, hlex, hparse (by decide +kernel) (by decide +kernel)⟩

example : respell twoSpellings "fn f(){1a/b;}" = "fn g1(){1_/b;}" := by decide +kernel

end Xref
