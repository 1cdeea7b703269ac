import Xref.Syntax.Lexeme
import Xref.Text.Span
import Xref.Text.Blank
import Xref.Text.Units

/-!
# Syntax trees

A tree keeps every character of its source. Its leaves are tokens, which carry their trivia, and
slots left empty where something was expected. Nodes are numbered in the order in which they were
completed, tokens in document order.
-/

namespace Xref

/-- The number of a node in its tree. -/
abbrev NodeId := Nat

/-- The number of a token in its tree. -/
abbrev TokenId := Nat

/-- One place among the children of a node; `ν` are the nodes and `τ` the tokens. -/
inductive Slot (ν τ : Type) where
  | node (n : ν)
  | token (t : τ)
  /-- Something was expected here and is not there. -/
  | missing
  deriving DecidableEq, Repr

namespace Slot

variable {ν τ : Type}

/-- The node in a slot. -/
def node? : Slot ν τ → Option ν
  | node n => some n
  | _ => none

/-- The token in a slot. -/
def token? : Slot ν τ → Option τ
  | token t => some t
  | _ => none

/-- Whether nothing is in the slot. -/
def isMissing : Slot ν τ → Bool
  | missing => true
  | _ => false

end Slot

/-! ## Tokens -/

/-- A lexeme at its place in a tree. -/
structure Token where
  id : TokenId
  /-- The byte offset at which its leading trivia start. -/
  offset : Nat
  lexeme : Lexeme
  deriving DecidableEq, Repr, Inhabited

namespace Token

def kind (t : Token) : TokenKind := t.lexeme.kind

def text (t : Token) : String := t.lexeme.text

/-- The text of the trivia before the token. -/
def leadingText (t : Token) : String := Trivia.join t.lexeme.leading

/-- The text of the trivia after the token. -/
def trailingText (t : Token) : String := Trivia.join t.lexeme.trailing

/-- The bytes of the token with its trivia. -/
def fullSpan (t : Token) : Span := ⟨t.offset, t.offset + t.lexeme.source.utf8ByteSize⟩

/-- The bytes of the token alone. -/
def span (t : Token) : Span :=
  let start := t.offset + t.leadingText.utf8ByteSize
  ⟨start, start + t.text.utf8ByteSize⟩

/-- The kinds and spans of consecutive pieces of trivia, the first of which starts at `offset`. -/
def placeTrivia : Nat → List Trivia → List (TriviaKind × Span)
  | _, [] => []
  | offset, p :: rest =>
    let stop := offset + p.text.utf8ByteSize
    (p.kind, ⟨offset, stop⟩) :: placeTrivia stop rest

/-- The trivia before the token, with their spans. -/
def leading (t : Token) : List (TriviaKind × Span) := placeTrivia t.offset t.lexeme.leading

/-- The trivia after the token, with their spans. -/
def trailing (t : Token) : List (TriviaKind × Span) := placeTrivia t.span.stop t.lexeme.trailing

/-- The source from the first of several tokens to the last, without the trivia at either end. -/
def sourceText : List Token → String
  | [] => ""
  | [t] => t.text
  | t :: u :: rest => t.text ++ t.trailingText ++ u.leadingText ++ sourceText (u :: rest)

end Token

/-! ## Nodes -/

/-- A completed node. -/
structure Node where
  id : NodeId
  kind : NodeKind
  /-- The bytes of the node, trivia included. -/
  fullSpan : Span
  /-- The first and the last token below the node, if there is any. -/
  ends : Option (Token × Token)
  slots : List (Slot Node Token)

/-- A slot of a completed node. -/
abbrev Child := Slot Node Token

namespace Child

/-- The number of bytes in a slot, trivia included. -/
def fullWidth : Child → Nat
  | .node n => n.fullSpan.length
  | .token t => t.fullSpan.length
  | .missing => 0

/-- The first and the last token in a slot. -/
def ends : Child → Option (Token × Token)
  | .node n => n.ends
  | .token t => some (t, t)
  | .missing => none

/-- The first and the last token in several slots. -/
def endsOf (slots : List Child) : Option (Token × Token) := do
  let first ← slots.findSome? ends
  let last ← slots.reverse.findSome? ends
  pure (first.1, last.2)

end Child

namespace Node

/-- The nodes right below `n`. -/
def children (n : Node) : List Node := n.slots.filterMap Slot.node?

/-- The tokens right below `n`. -/
def childTokens (n : Node) : List Token := n.slots.filterMap Slot.token?

/-- The bytes from the first token below `n` to the last, without the trivia at either end. A node
without tokens has the empty span at its start. -/
def span (n : Node) : Span :=
  match n.ends with
  | some (first, last) => ⟨first.span.start, last.span.stop⟩
  | none => .point n.fullSpan.start

/-- The identifier in slot `i` of `n`. -/
def identifierAt? (n : Node) (i : Nat) : Option Token :=
  (n.slots[i]?.bind Slot.token?).filter fun t => t.kind.isIdentifier

mutual

/-- Puts every token below a node before `later`, in document order. -/
def tokensBefore : Node → List Token → List Token
  | ⟨_, _, _, _, slots⟩, later => slotTokensBefore slots later

/-- Puts every token in several slots before `later`, in document order. -/
def slotTokensBefore : List Child → List Token → List Token
  | [], later => later
  | .node n :: rest, later => n.tokensBefore (slotTokensBefore rest later)
  | .token t :: rest, later => t :: slotTokensBefore rest later
  | .missing :: rest, later => slotTokensBefore rest later

end

/-- Every token below a node, in document order. -/
def tokens (n : Node) : List Token := n.tokensBefore []

/-- Every token in several slots, in document order. -/
def tokensOf (slots : List Child) : List Token := slotTokensBefore slots []

mutual

theorem tokensBefore_eq :
    ∀ (n : Node) (later : List Token), n.tokensBefore later = n.tokens ++ later
  | ⟨_, _, _, _, slots⟩, later => slotTokensBefore_eq slots later

theorem slotTokensBefore_eq :
    ∀ (slots : List Child) (later : List Token),
      slotTokensBefore slots later = tokensOf slots ++ later
  | [], later => rfl
  | .node n :: rest, later => by
    show n.tokensBefore (slotTokensBefore rest later) =
      n.tokensBefore (slotTokensBefore rest []) ++ later
    rw [slotTokensBefore_eq rest later, tokensBefore_eq n (tokensOf rest ++ later),
      tokensBefore_eq n (slotTokensBefore rest []), List.append_assoc]
    rfl
  | .token t :: rest, later => congrArg (t :: ·) (slotTokensBefore_eq rest later)
  | .missing :: rest, later => slotTokensBefore_eq rest later

end

@[simp] theorem tokens_mk (id : NodeId) (kind : NodeKind) (full : Span)
    (ends : Option (Token × Token)) (slots : List Child) :
    (Node.mk id kind full ends slots).tokens = tokensOf slots := rfl

@[simp] theorem tokensOf_nil : tokensOf [] = [] := rfl

@[simp] theorem tokensOf_node (n : Node) (rest : List Child) :
    tokensOf (.node n :: rest) = n.tokens ++ tokensOf rest :=
  tokensBefore_eq n _

@[simp] theorem tokensOf_token (t : Token) (rest : List Child) :
    tokensOf (.token t :: rest) = t :: tokensOf rest := rfl

@[simp] theorem tokensOf_missing (rest : List Child) :
    tokensOf (.missing :: rest) = tokensOf rest := rfl

mutual

/-- A node and every node below it, each before what lies below it. -/
def preorder : Node → List Node
  | ⟨id, kind, full, ends, slots⟩ => ⟨id, kind, full, ends, slots⟩ :: preorderOf slots

/-- Every node in several slots, each before what lies below it. -/
def preorderOf : List Child → List Node
  | [] => []
  | .node n :: rest => n.preorder ++ preorderOf rest
  | .token _ :: rest => preorderOf rest
  | .missing :: rest => preorderOf rest

end

mutual

/-- A node and every node below it, each after what lies below it. -/
def postorder : Node → List Node
  | ⟨id, kind, full, ends, slots⟩ => postorderOf slots ++ [⟨id, kind, full, ends, slots⟩]

/-- Every node in several slots, each after what lies below it. -/
def postorderOf : List Child → List Node
  | [] => []
  | .node n :: rest => n.postorder ++ postorderOf rest
  | .token _ :: rest => postorderOf rest
  | .missing :: rest => postorderOf rest

end

/-- The source text of a node, without the trivia at either end. -/
def text (n : Node) : String := Token.sourceText n.tokens

/-- The source text of the slots at the front of `n` that `take` accepts, with blanks collapsed. -/
def header (n : Node) (take : Child → Bool) : String :=
  Text.collapse (Token.sourceText (tokensOf (n.slots.takeWhile take)))

end Node

/-! ## Trees -/

/-- The syntax tree of one source text. -/
structure Tree where
  text : String
  tokens : Array Token
  nodeCount : Nat
  root : Node

namespace Tree

/-- The number of bytes of the text. -/
def length (t : Tree) : Nat := t.text.utf8ByteSize

/-- The number of tokens. -/
def tokenCount (t : Tree) : Nat := t.tokens.size

/-- The token with a given number. -/
def token? (t : Tree) (id : TokenId) : Option Token := t.tokens[id]?

/-- Every node. Nodes are completed after what lies below them, so this is the order of their
numbers. -/
def nodes (t : Tree) : List Node := t.root.postorder

/-- The text of a span; empty if the span leaves the text or an end lies inside a character. -/
def slice (t : Tree) (s : Span) : String :=
  match Text.slice? t.text.toList s.start s.stop with
  | some cs => String.ofList cs
  | none => ""

/-- The source put together again from the tokens below the root. -/
def collectText (t : Tree) : String := String.join (t.root.tokens.map fun token =>
  token.leadingText ++ token.text ++ token.trailingText)

end Tree

end Xref
