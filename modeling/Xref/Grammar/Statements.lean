import Xref.Grammar.Expressions
import Xref.Grammar.Types

/-!
# Statements

    let  = "let" IDENT (":" type)? ("=" expr)? ";"
    stmt = let | "return" expr? ";" | "if" expr block ("else" (if | block))?
         | "while" expr block | block | expr ("=" expr)? ";"

A lexeme that starts no statement is wrapped as invalid, so every statement takes a lexeme.
-/

namespace Xref.Grammar

open Production

/-- A declaration of a variable, of either kind. -/
def variableDeclaration (kind : NodeKind) (n : Nat) : Production :=
  node kind
    [take, identifier,
      optional (atPunctuation ":") (sequence [take, typeDescriptor n]),
      optional (atPunctuation "=") (sequence [take, expression n]),
      punctuation ";"]

/-- Whether a block goes on: neither its end nor the end of the file has been reached. -/
def insideBlock : Lookahead := fun ls => !ls.isEmpty && !atPunctuation closeBrace ls

/-- Statements in braces. -/
def block (kind : NodeKind) (statement : Production) (n : Nat) : Production :=
  node kind [take, repeated insideBlock statement n, punctuation closeBrace]

/-- An assignment, or an expression that stands alone. -/
def expressionStatement (n : Nat) : Production :=
  (expression n).andThen fun left =>
    choose (atPunctuation "=")
      (extend left .assignmentStatement [take, expression n, punctuation ";"])
      (extend left .expressionStatement [punctuation ";"])

/-- A statement whose blocks are nested less than `n` deep. -/
def statement : Nat → Production
  | 0 => invalid
  | n + 1 =>
    let nested := block .blockStatement (statement n) n
    let body := expect (atPunctuation openBrace) nested
    choose (atKeyword "let") (variableDeclaration .variableDeclaration n) <|
    choose (atKeyword "return")
      (node .returnStatement [take, optional atExpression (expression n), punctuation ";"]) <|
    choose (atKeyword "if")
      (node .ifElseStatement
        [take, expression n, body,
          optional (atKeyword "else")
            (node .elseBlock [take, choose (atKeyword "if") (statement n) body])]) <|
    choose (atKeyword "while") (node .whileStatement [take, expression n, body]) <|
    choose (atPunctuation openBrace) nested <|
    choose atExpression (expressionStatement (n + 1)) invalid

end Xref.Grammar
