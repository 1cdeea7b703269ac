import Xref.Grammar.Statements
import Xref.Syntax.Scan

/-!
# Modules

    module = item* EOF
    item   = "import" IDENT ";"
           | "fn" IDENT params ("->" type)? body
           | "type" IDENT "=" type ";"
           | let
    params = "(" (IDENT ":" type ("," IDENT ":" type)*)? ")"

Parsing a source text scans it, makes one phrase of all its lexemes and builds the tree of that
phrase.
-/

namespace Xref.Grammar

open Production

/-- The parameters of a function, or an empty slot. -/
def parameterList (n : Nat) : Production :=
  expect (atPunctuation "(") <| node .parameterList
    [take,
      separated atIdentifier
        (node .requiredParameter [take, punctuation ":", typeDescriptor n]) n,
      punctuation ")"]

/-- The definition of a function. -/
def functionDefinition (n : Nat) : Production :=
  node .functionDefinition
    [take, identifier, parameterList n,
      optional (atPunctuation "->") (node .returnTypeDescriptor [take, typeDescriptor n]),
      expect (atPunctuation openBrace) (block .functionBody (statement n) n)]

/-- The definition of a type. -/
def typeDefinition (n : Nat) : Production :=
  node .typeDefinition [take, identifier, punctuation "=", typeDescriptor n, punctuation ";"]

/-- One item of a module. -/
def item (n : Nat) : Production :=
  choose (atKeyword "import") (node .importDeclaration [take, identifier, punctuation ";"]) <|
  choose (atKeyword "fn") (functionDefinition n) <|
  choose (atKeyword "type") (typeDefinition n) <|
  choose (atKeyword "let") (variableDeclaration .moduleVariableDeclaration n) invalid

/-- The items of a module. -/
def items (n : Nat) : Production := repeated (fun ls => !ls.isEmpty) (item n) n

/-- The phrase of a whole module, from its lexemes and the end of the file. -/
def modulePhrase (ls : List Lexeme) (ending : Lexeme) : Phrase :=
  ⟨.modulePart, (items ls.length ls).1 ++ [.token ending]⟩

end Xref.Grammar

namespace Xref

/-- The phrase of a source text. -/
def Phrase.ofSource (source : String) : Phrase :=
  let scanned := scan source
  Grammar.modulePhrase scanned.1 scanned.2

/-- The tree of a source text. -/
def parse (source : String) : Except BuildError Tree := (Phrase.ofSource source).toTree

end Xref
