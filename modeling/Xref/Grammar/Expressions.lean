import Xref.Grammar.Production

/-!
# Expressions

    expr    = operators of increasing strength over unary
    unary   = ("-" | "!") unary | postfix
    postfix = (name arguments? | literal | "(" expr ")") ("." IDENT arguments?)*
    name    = IDENT (":" IDENT)?

Operators of one strength group to the left. An operator whose right side is absent still makes a
node, and the operator after it, however strong, takes that node as its left side.
-/

namespace Xref.Grammar

open Production

/-- The binary operators with their strength, from the weakest. -/
def operators : List (String × Nat) :=
  [("||", 1), ("&&", 2), ("==", 3), ("!=", 3), ("<", 4), (">", 4), ("<=", 4), (">=", 4),
    ("+", 5), ("-", 5), ("*", 6), ("/", 6)]

/-- The strength of a lexeme as a binary operator. -/
def strength? (l : Lexeme) : Option Nat :=
  if l.kind = .punctuation then operators.lookup l.text else none

/-- Whether the next lexeme is an operator at least as strong as `least`. -/
def atOperator (least : Nat) : Lookahead :=
  next fun l => (strength? l).any (least ≤ ·)

/-- Whether the next lexeme is a sign. -/
def atSign : Lookahead := either (atPunctuation "-") (atPunctuation "!")

/-- Whether the next lexeme is a literal. -/
def atLiteral : Lookahead := next fun l => l.kind == .literal

/-- Whether an expression starts here. -/
def atExpression : Lookahead :=
  either atIdentifier <| either atLiteral <| either (atPunctuation "(") atSign

/-- Arguments in brackets, each parsed by `inner`. -/
def argumentList (inner : Production) (n : Nat) : Production :=
  node .argumentList
    [take, separated atExpression (node .positionalArgument [inner]) n, punctuation ")"]

/-- A name, which a module name may qualify. -/
def nameReference : Production :=
  choose (both (after 1 (atPunctuation ":")) (after 2 atIdentifier))
    (node .qualifiedNameReference [take, take, take])
    (node .simpleNameReference [take])

/-- An operand without what follows it. Only a name can be called. -/
def operand (inner : Production) (n : Nat) : Production :=
  choose atIdentifier
    (nameReference.andThen fun name =>
      choose (atPunctuation "(") (extend name .functionCall [argumentList inner n])
        fun ls => (name, ls)) <|
  choose atLiteral (node .basicLiteral [take]) <|
  expect (atPunctuation "(") (node .bracedExpression [take, inner, punctuation ")"])

/-- Whether a member of the expression before it follows. -/
def atMember : Lookahead := both (atPunctuation ".") (after 1 atIdentifier)

/-- A field or a method of `left`. -/
def member (inner : Production) (n : Nat) (left : List Part) : Production :=
  choose (after 2 (atPunctuation "("))
    (extend left .methodCall [take, take, argumentList inner n])
    (extend left .fieldAccess [take, take])

/-- An operand with its members. -/
def memberChain (inner : Production) (n : Nat) : Production :=
  (operand inner n).andThen (growing atMember (member inner n) n)

/-- An operand with its members, after at most `n` signs. -/
def signed (inner : Production) (n : Nat) : Nat → Production
  | 0 => memberChain inner n
  | m + 1 =>
    choose atSign (node .unaryExpression [take, expect atExpression (signed inner n m)])
      (memberChain inner n)

/-- The strength of the next lexeme. -/
def nextStrength (ls : List Lexeme) : Nat := ((ls.head?.bind strength?).getD 0)

/-- An expression of operators at least as strong as `least`, nested less than `n` deep; an empty
slot where none starts. The right side of an operator holds only stronger ones. -/
def expressionAbove : Nat → Nat → Production
  | 0, _ => absent
  | n + 1, least =>
    expect atExpression <|
      (signed (expressionAbove n 0) n (n + 1)).andThen <|
        growing (atOperator least)
          (fun left ls =>
            extend left .binaryExpression [take, expressionAbove n (nextStrength ls + 1)] ls) n

/-- An expression nested less than `n` deep. -/
def expression (n : Nat) : Production := expressionAbove n 0

end Xref.Grammar
