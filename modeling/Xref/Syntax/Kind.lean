/-!
# Kinds of tokens, trivia and nodes

Tokens carry a coarse class only: a rename touches identifiers and nothing else, and the end of the
file is a token of its own. A node kind has one list of words, from which its written forms are
made.
-/

namespace Xref

/-- The class of a token. -/
inductive TokenKind where
  | identifier
  | keyword
  | literal
  | punctuation
  /-- A character that starts no other token. -/
  | unknown
  /-- The empty token that ends a module; the last trivia lie before it. -/
  | endOfFile
  deriving DecidableEq, Repr, Inhabited

/-- The class of a piece of text between tokens. -/
inductive TriviaKind where
  | whitespace
  | newline
  | lineComment
  | blockComment
  deriving DecidableEq, Repr, Inhabited

namespace TokenKind

/-- Every token kind, in the order of listings. -/
def all : List TokenKind := [identifier, keyword, literal, punctuation, unknown, endOfFile]

/-- The written name of a token kind. -/
def name : TokenKind → String
  | identifier => "Identifier"
  | keyword => "Keyword"
  | literal => "Literal"
  | punctuation => "Punctuation"
  | unknown => "Unknown"
  | endOfFile => "EndOfFile"

/-- Whether tokens of this kind can be renamed. -/
def isIdentifier (k : TokenKind) : Bool := k == identifier

/-- Whether this is the kind that ends a module. -/
def isEnd (k : TokenKind) : Bool := k == endOfFile

end TokenKind

namespace TriviaKind

/-- Every trivia kind, in the order of listings. -/
def all : List TriviaKind := [whitespace, newline, lineComment, blockComment]

/-- The written name of a trivia kind. -/
def name : TriviaKind → String
  | whitespace => "Whitespace"
  | newline => "Newline"
  | lineComment => "LineComment"
  | blockComment => "BlockComment"

/-- Whether the piece is a comment of either form. -/
def isComment : TriviaKind → Bool
  | lineComment | blockComment => true
  | whitespace | newline => false

end TriviaKind

/-- The kind of a composite node. -/
inductive NodeKind where
  | modulePart
  | importDeclaration
  | functionDefinition
  | parameterList
  | requiredParameter
  | returnTypeDescriptor
  | functionBody
  | typeDefinition
  | recordTypeDescriptor
  | recordField
  | typeReference
  | moduleVariableDeclaration
  | blockStatement
  | variableDeclaration
  | assignmentStatement
  | expressionStatement
  | returnStatement
  | ifElseStatement
  | elseBlock
  | whileStatement
  | binaryExpression
  | unaryExpression
  | bracedExpression
  | functionCall
  | methodCall
  | fieldAccess
  | argumentList
  | positionalArgument
  | simpleNameReference
  | qualifiedNameReference
  | basicLiteral
  /-- A token that fits nowhere, wrapped so that the tree keeps it. -/
  | invalid
  deriving DecidableEq, Repr, Inhabited

namespace NodeKind

/-- Every node kind, in the order of listings. -/
def all : List NodeKind :=
  [modulePart, importDeclaration, functionDefinition, parameterList, requiredParameter,
    returnTypeDescriptor, functionBody, typeDefinition, recordTypeDescriptor, recordField,
    typeReference, moduleVariableDeclaration, blockStatement, variableDeclaration,
    assignmentStatement, expressionStatement, returnStatement, ifElseStatement, elseBlock,
    whileStatement, binaryExpression, unaryExpression, bracedExpression, functionCall, methodCall,
    fieldAccess, argumentList, positionalArgument, simpleNameReference, qualifiedNameReference,
    basicLiteral, invalid]

/-- The words that make up the name of a node kind. -/
def words : NodeKind → List String
  | modulePart => ["module", "part"]
  | importDeclaration => ["import", "declaration"]
  | functionDefinition => ["function", "definition"]
  | parameterList => ["parameter", "list"]
  | requiredParameter => ["required", "parameter"]
  | returnTypeDescriptor => ["return", "type", "descriptor"]
  | functionBody => ["function", "body"]
  | typeDefinition => ["type", "definition"]
  | recordTypeDescriptor => ["record", "type", "descriptor"]
  | recordField => ["record", "field"]
  | typeReference => ["type", "reference"]
  | moduleVariableDeclaration => ["module", "variable", "declaration"]
  | blockStatement => ["block", "statement"]
  | variableDeclaration => ["variable", "declaration"]
  | assignmentStatement => ["assignment", "statement"]
  | expressionStatement => ["expression", "statement"]
  | returnStatement => ["return", "statement"]
  | ifElseStatement => ["if", "else", "statement"]
  | elseBlock => ["else", "block"]
  | whileStatement => ["while", "statement"]
  | binaryExpression => ["binary", "expression"]
  | unaryExpression => ["unary", "expression"]
  | bracedExpression => ["braced", "expression"]
  | functionCall => ["function", "call"]
  | methodCall => ["method", "call"]
  | fieldAccess => ["field", "access"]
  | argumentList => ["argument", "list"]
  | positionalArgument => ["positional", "argument"]
  | simpleNameReference => ["simple", "name", "reference"]
  | qualifiedNameReference => ["qualified", "name", "reference"]
  | basicLiteral => ["basic", "literal"]
  | invalid => ["invalid"]

/-- The name of a kind in one word, each part capitalized. -/
def name (k : NodeKind) : String := String.join (k.words.map String.capitalize)

/-- The name of a kind in lower case, its parts joined by underscores. -/
def tag (k : NodeKind) : String := String.intercalate "_" k.words

/-- The name of a kind for people. -/
def label : NodeKind → String
  | ifElseStatement => "if/else statement"
  | invalid => "invalid syntax"
  | k => String.intercalate " " k.words

/-- Whether nodes of this kind are written types. -/
def isType : NodeKind → Bool
  | typeReference | recordTypeDescriptor => true
  | _ => false

end NodeKind

end Xref
