import Xref.Syntax.Phrase

/-!
# Productions

A production takes lexemes from the front of a list, fills slots with them and leaves the rest.
Productions never fail: where the lexemes ahead do not fit, they fill a slot with nothing and take
none, or wrap the next lexeme as invalid. The combinators here are all that the grammar is made
of, so a law about productions is proved once per combinator.

The end of the file is not among the lexemes; it has been reached when the list is empty.
-/

namespace Xref

/-- From the lexemes ahead to filled slots and the lexemes left. -/
abbrev Production := List Lexeme → List Part × List Lexeme

/-- A test of the lexemes ahead. -/
abbrev Lookahead := List Lexeme → Bool

/-! ## Tests -/

/-- Whether the next lexeme satisfies `p`. -/
def next (p : Lexeme → Bool) : Lookahead := fun ls => ls.head?.any p

/-- Whether the next lexeme is the given punctuation. -/
def atPunctuation (text : String) : Lookahead := next (·.isPunctuation text)

/-- Whether the next lexeme is the given keyword. -/
def atKeyword (text : String) : Lookahead := next (·.isKeyword text)

/-- Whether the next lexeme is a name. -/
def atIdentifier : Lookahead := next (·.isIdentifier)

/-- Whether the test holds after the next `n` lexemes. -/
def after (n : Nat) (test : Lookahead) : Lookahead := fun ls => test (ls.drop n)

/-- Whether both tests hold. -/
def both (s t : Lookahead) : Lookahead := fun ls => s ls && t ls

/-- Whether one of the tests holds. -/
def either (s t : Lookahead) : Lookahead := fun ls => s ls || t ls

/-! ## Combinators -/

namespace Production

/-- Fills no slot. -/
def nothing : Production := fun ls => ([], ls)

/-- Leaves one slot empty. -/
def absent : Production := fun ls => ([.missing], ls)

/-- Takes the next lexeme, whatever it is. -/
def take : Production
  | [] => ([], [])
  | l :: ls => ([.token l], ls)

/-- One production after the other. -/
def sequence : List Production → Production
  | [] => nothing
  | p :: ps => fun ls =>
    let first := p ls
    let others := sequence ps first.2
    (first.1 ++ others.1, others.2)

/-- A node whose slots are `left` and then what the productions fill. -/
def extend (left : List Part) (kind : NodeKind) (ps : List Production) : Production := fun ls =>
  let found := sequence ps ls
  ([.node ⟨kind, left ++ found.1⟩], found.2)

/-- A node with the slots that the productions fill. -/
def node (kind : NodeKind) (ps : List Production) : Production := extend [] kind ps

/-- `p` where the test holds, else `q`. -/
def choose (test : Lookahead) (p q : Production) : Production := fun ls =>
  if test ls then p ls else q ls

/-- `p` where the test holds, else no slot. -/
def optional (test : Lookahead) (p : Production) : Production := choose test p nothing

/-- `p` where the test holds, else an empty slot. -/
def expect (test : Lookahead) (p : Production) : Production := choose test p absent

/-- The given punctuation, or an empty slot. -/
def punctuation (text : String) : Production := expect (atPunctuation text) take

/-- A name, or an empty slot. -/
def identifier : Production := expect atIdentifier take

/-- The next lexeme wrapped as invalid. -/
def invalid : Production := node .invalid [take]

/-- `p` again and again while the test holds, at most `n` times. -/
def repeated (test : Lookahead) (p : Production) : Nat → Production
  | 0 => nothing
  | n + 1 => optional test (sequence [p, repeated test p n])

/-- `p` while the test holds, with a comma between one and the next, at most `n` times. A comma
after the last is taken as well. -/
def separated (test : Lookahead) (p : Production) : Nat → Production
  | 0 => nothing
  | n + 1 =>
    optional test <| sequence
      [p, optional (atPunctuation ",") (sequence [take, separated test p n])]

/-- Goes on from what has been built: `step` makes something larger of it while the test holds, at
most `n` times. -/
def growing (test : Lookahead) (step : List Part → Production) : Nat → List Part → Production
  | 0, left => fun ls => (left, ls)
  | n + 1, left => fun ls =>
    if test ls then
      let grown := step left ls
      growing test step n grown.1 grown.2
    else (left, ls)

/-- `p`, and then `q` on what `p` has built. -/
def andThen (p : Production) (q : List Part → Production) : Production := fun ls =>
  let found := p ls
  q found.1 found.2

end Production

end Xref
