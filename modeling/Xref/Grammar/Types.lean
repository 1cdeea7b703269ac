import Xref.Grammar.Production

/-!
# Written types

    type   = record | IDENT (":" IDENT)?
    record = "record" "{" (IDENT ":" type ";")* "}"

Records nest, and every level takes a lexeme. So a bound on the nesting that is as large as the
number of lexemes is no restriction.
-/

namespace Xref.Grammar

open Production

/-- A type by its name, which a module name may qualify. The colon belongs to the type only if a
name follows it. -/
def typeReference : Production :=
  expect atIdentifier <| node .typeReference
    [take, optional (both (atPunctuation ":") (after 1 atIdentifier)) (sequence [take, take])]

/-- A written type whose records are nested less than `n` deep. -/
def typeDescriptor : Nat → Production
  | 0 => absent
  | n + 1 =>
    choose (atKeyword "record")
      (node .recordTypeDescriptor
        [take, punctuation openBrace,
          repeated atIdentifier
            (node .recordField [take, punctuation ":", typeDescriptor n, punctuation ";"]) n,
          punctuation closeBrace])
      typeReference

end Xref.Grammar
