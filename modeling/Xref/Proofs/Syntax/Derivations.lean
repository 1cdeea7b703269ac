import Mathlib.Data.List.Basic
import Xref.Syntax.Lexeme

/-!
# The grammar

    module    = item* EOF
    item      = "import" IDENT ";"
              | "fn" IDENT params ("->" type)? block
              | "type" IDENT "=" type ";"
              | let
    let       = "let" IDENT (":" type)? ("=" expr)? ";"
    params    = "(" (param ("," param)* ","?)? ")"
    param     = IDENT ":" type
    type      = record | IDENT (":" IDENT)?
    record    = "record" "{" field* "}"
    field     = IDENT ":" type ";"
    stmt      = let | "return" expr? ";" | if | "while" expr block | block
              | expr ("=" expr)? ";"
    if        = "if" expr block ("else" (if | block))?
    block     = "{" stmt* "}"
    expr      = unary (operator unary)*
    operator  = "||" | "&&" | "==" | "!=" | "<" | ">" | "<=" | ">=" | "+" | "-" | "*" | "/"
    unary     = ("-" | "!") unary | chain
    chain     = (name arguments? | LITERAL | "(" expr ")") suffix*
    name      = IDENT (":" IDENT)?
    suffix    = "." IDENT arguments?
    arguments = "(" (expr ("," expr)* ","?)? ")"

The grammar is a table of rules (`Nonterminal.rule`), and a derivation says which terminals a rule
stands for (`Derives`). Which terminals can come first is computed from the rules (`Rule.first`),
with a table for the nonterminals that is checked against them (`Derives.first`).
-/

namespace Xref

/-! ## Rules -/

/-- What a grammar sees of a lexeme: trivia are ignored. -/
structure Terminal where
  kind : TokenKind
  text : String
  deriving DecidableEq, Repr

/-- The terminal that a lexeme is. -/
def Lexeme.terminal (l : Lexeme) : Terminal := ⟨l.kind, l.text⟩

/-- What a rule can ask of one terminal. -/
inductive Pattern where
  | exactly (kind : TokenKind) (text : String)
  /-- Any text of the given kind. -/
  | ofKind (kind : TokenKind)
  deriving DecidableEq, Repr

namespace Pattern

/-- Whether a terminal is as the pattern asks. -/
def fits : Pattern → Terminal → Bool
  | exactly kind text, t => t.kind == kind && t.text == text
  | ofKind kind, t => t.kind == kind

/-- Whether the patterns are such that no terminal fits both. -/
def apart : Pattern → Pattern → Bool
  | exactly kind text, exactly kind' text' => kind != kind' || text != text'
  | exactly kind _, ofKind kind' => kind != kind'
  | ofKind kind, exactly kind' _ => kind != kind'
  | ofKind kind, ofKind kind' => kind != kind'

theorem not_fits_of_apart {p q : Pattern} {t : Terminal} (h : p.apart q) (hp : p.fits t) :
    ¬ q.fits t := by
  cases p <;> cases q <;> simp_all [apart, fits]
  rintro rfl
  simpa using h

end Pattern

/-- The names of a grammar. -/
inductive Nonterminal where
  | module | item | letDeclaration | params | param | type | record | field
  | stmt | ifStmt | block
  | expr | operator | unary | chain | name | suffix | arguments
  deriving DecidableEq, Repr

/-- What may stand on the right of a rule. -/
inductive Rule where
  | token (p : Pattern)
  | the (n : Nonterminal)
  /-- Nothing at all. -/
  | empty
  /-- No terminals whatever. -/
  | never
  | seq (a b : Rule)
  | alt (a b : Rule)
  | star (a : Rule)
  deriving DecidableEq, Repr

namespace Rule

def keyword (text : String) : Rule := token (.exactly .keyword text)

def punctuation (text : String) : Rule := token (.exactly .punctuation text)

def identifier : Rule := token (.ofKind .identifier)

def literal : Rule := token (.ofKind .literal)

/-- One after the other. -/
def row : List Rule → Rule
  | [] => empty
  | r :: rs => seq r (row rs)

/-- One of several. -/
def oneOf : List Rule → Rule
  | [] => never
  | r :: rs => alt r (oneOf rs)

/-- The rule or nothing. -/
def optional (r : Rule) : Rule := alt r empty

/-- The rule any number of times with commas between, and perhaps a comma after the last. -/
def commaList (r : Rule) : Rule :=
  optional (row [r, star (row [punctuation ",", r]), optional (punctuation ",")])

end Rule

open Rule in
/-- The rule of every name of the grammar. -/
def Nonterminal.rule : Nonterminal → Rule
  | module => row [star (the item), token (.ofKind .endOfFile)]
  | item => oneOf
    [row [keyword "import", identifier, punctuation ";"],
      row [keyword "fn", identifier, the params, optional (row [punctuation "->", the type]),
        the block],
      row [keyword "type", identifier, punctuation "=", the type, punctuation ";"],
      the letDeclaration]
  | letDeclaration => row
    [keyword "let", identifier, optional (row [punctuation ":", the type]),
      optional (row [punctuation "=", the expr]), punctuation ";"]
  | params => row [punctuation "(", commaList (the param), punctuation ")"]
  | param => row [identifier, punctuation ":", the type]
  | type => oneOf [the record, row [identifier, optional (row [punctuation ":", identifier])]]
  | record => row
    [keyword "record", punctuation openBrace, star (the field), punctuation closeBrace]
  | field => row [identifier, punctuation ":", the type, punctuation ";"]
  | stmt => oneOf
    [the letDeclaration,
      row [keyword "return", optional (the expr), punctuation ";"],
      the ifStmt,
      row [keyword "while", the expr, the block],
      the block,
      row [the expr, optional (row [punctuation "=", the expr]), punctuation ";"]]
  | ifStmt => row
    [keyword "if", the expr, the block,
      optional (row [keyword "else", oneOf [the ifStmt, the block]])]
  | block => row [punctuation openBrace, star (the stmt), punctuation closeBrace]
  | expr => row [the unary, star (row [the operator, the unary])]
  | operator => oneOf <| List.map punctuation
    ["||", "&&", "==", "!=", "<", ">", "<=", ">=", "+", "-", "*", "/"]
  | unary => oneOf [row [oneOf [punctuation "-", punctuation "!"], the unary], the chain]
  | chain => row
    [oneOf
      [row [the name, optional (the arguments)],
        literal,
        row [punctuation "(", the expr, punctuation ")"]],
      star (the suffix)]
  | name => row [identifier, optional (row [punctuation ":", identifier])]
  | suffix => row [punctuation ".", identifier, optional (the arguments)]
  | arguments => row [punctuation "(", commaList (the expr), punctuation ")"]

/-- Which terminals a rule stands for. -/
inductive Derives : Rule → List Terminal → Prop where
  | token {p : Pattern} {t : Terminal} (h : p.fits t) : Derives (.token p) [t]
  | the {n : Nonterminal} {ts : List Terminal} (h : Derives n.rule ts) : Derives (.the n) ts
  | empty : Derives .empty []
  | seq {a b : Rule} {ts us : List Terminal} (ha : Derives a ts) (hb : Derives b us) :
    Derives (.seq a b) (ts ++ us)
  | left {a b : Rule} {ts : List Terminal} (h : Derives a ts) : Derives (.alt a b) ts
  | right {a b : Rule} {ts : List Terminal} (h : Derives b ts) : Derives (.alt a b) ts
  | none {a : Rule} : Derives (.star a) []
  | more {a : Rule} {ts us : List Terminal} (ha : Derives a ts) (hs : Derives (.star a) us) :
    Derives (.star a) (ts ++ us)

/-! ## First terminals -/

/-- What the first terminal of a name can be. -/
def Nonterminal.first : Nonterminal → List Pattern
  | module => items ++ [.ofKind .endOfFile]
  | item => items
  | letDeclaration => [.exactly .keyword "let"]
  | params | arguments => [.exactly .punctuation "("]
  | param | field | name => [.ofKind .identifier]
  | type => [.exactly .keyword "record", .ofKind .identifier]
  | record => [.exactly .keyword "record"]
  | stmt =>
    ["let", "return", "if", "while"].map (.exactly .keyword) ++
      .exactly .punctuation openBrace :: expressions
  | ifStmt => [.exactly .keyword "if"]
  | block => [.exactly .punctuation openBrace]
  | expr | unary => expressions
  | operator =>
    ["||", "&&", "==", "!=", "<", ">", "<=", ">=", "+", "-", "*", "/"].map (.exactly .punctuation)
  | chain => operands
  | suffix => [.exactly .punctuation "."]
where
  items := ["import", "fn", "type", "let"].map (.exactly .keyword)
  operands := [.ofKind .identifier, .ofKind .literal, .exactly .punctuation "("]
  expressions := operands ++ ["-", "!"].map (.exactly .punctuation)

namespace Rule

/-- Whether a rule stands for no terminals at all, among others. No name does. -/
def nullable : Rule → Bool
  | token _ | the _ | never => false
  | empty | star _ => true
  | seq a b => a.nullable && b.nullable
  | alt a b => a.nullable || b.nullable

/-- What the first terminal of a rule can be. -/
def first : Rule → List Pattern
  | token p => [p]
  | the n => n.first
  | empty | never => []
  | seq a b => if a.nullable then a.first ++ b.first else a.first
  | alt a b => a.first ++ b.first
  | star a => a.first

end Rule

theorem Nonterminal.nullable_rule (n : Nonterminal) : n.rule.nullable = false := by
  cases n <;> rfl

/-- The table of first terminals is right. -/
theorem Nonterminal.first_rule (n : Nonterminal) : n.rule.first ⊆ n.first := by
  cases n <;> decide

/-- **What a rule stands for starts with what comes first,** or it is nothing. -/
theorem Derives.first {r : Rule} {ts : List Terminal} (h : Derives r ts) :
    ts = [] ∧ r.nullable ∨ ∃ t us, ts = t :: us ∧ ∃ p ∈ r.first, p.fits t := by
  induction h with
  | @token p t h => exact .inr ⟨t, [], rfl, p, List.mem_singleton_self p, h⟩
  | @the n ts _ ih =>
    obtain ⟨-, hnull⟩ | ⟨t, us, rfl, p, hp, ht⟩ := ih
    · rw [n.nullable_rule] at hnull
      cases hnull
    · exact .inr ⟨t, us, rfl, p, n.first_rule hp, ht⟩
  | empty => exact .inl ⟨rfl, rfl⟩
  | @seq a b ts us _ _ iha ihb =>
    obtain ⟨rfl, hnull⟩ | ⟨t, ts, rfl, p, hp, ht⟩ := iha
    · rw [List.nil_append, Rule.nullable, Rule.first, if_pos hnull, hnull, Bool.true_and]
      obtain hnil | ⟨t, us, rfl, p, hp, ht⟩ := ihb
      · exact .inl hnil
      · exact .inr ⟨t, us, rfl, p, List.mem_append_right _ hp, ht⟩
    · refine .inr ⟨t, ts ++ us, rfl, p, ?_, ht⟩
      rw [Rule.first]
      split
      · exact List.mem_append_left _ hp
      · exact hp
  | left _ ih =>
    obtain ⟨rfl, hnull⟩ | ⟨t, us, rfl, p, hp, ht⟩ := ih
    · exact .inl ⟨rfl, by rw [Rule.nullable, hnull, Bool.true_or]⟩
    · exact .inr ⟨t, us, rfl, p, List.mem_append_left _ hp, ht⟩
  | right _ ih =>
    obtain ⟨rfl, hnull⟩ | ⟨t, us, rfl, p, hp, ht⟩ := ih
    · exact .inl ⟨rfl, by rw [Rule.nullable, hnull, Bool.or_true]⟩
    · exact .inr ⟨t, us, rfl, p, List.mem_append_right _ hp, ht⟩
  | none => exact .inl ⟨rfl, rfl⟩
  | more _ _ iha ihs =>
    obtain ⟨rfl, -⟩ | ⟨t, ts, rfl, p, hp, ht⟩ := iha
    · exact ihs
    · exact .inr ⟨t, ts ++ _, rfl, p, hp, ht⟩

end Xref
