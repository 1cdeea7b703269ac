import Xref.Syntax.Tree
import Xref.Text.Quoted

/-!
# Printed forms of trees

Two forms: the nested form shows kinds and tokens as they lie in each other, the summaries show one
tree, node or token with its numbers.
-/

namespace Xref

/-- How the nested form shows a token. -/
def Token.shape (t : Token) : String := if t.kind.isEnd then "<eof>" else t.text

mutual

/-- Appends the nested form of a node: its kind and its slots in brackets. -/
def Node.printTo (out : String) : Node → String
  | ⟨_, kind, _, _, slots⟩ => Child.printAllTo (out ++ "(" ++ kind.name) slots ++ ")"

/-- Appends the nested forms of slots, each after a space. -/
def Child.printAllTo (out : String) : List Child → String
  | [] => out
  | .node n :: rest => Child.printAllTo (n.printTo (out ++ " ")) rest
  | .token t :: rest => Child.printAllTo (out ++ " " ++ t.shape) rest
  | .missing :: rest => Child.printAllTo (out ++ " ?") rest

end

/-- The nested form of a node. -/
def Node.shape (n : Node) : String := n.printTo ""

/-- One line about a node. -/
def Node.summary (n : Node) : String := s!"{n.kind.name}@{n.fullSpan.text} NodeId({n.id})"

/-- One line about a token. -/
def Token.summary (t : Token) : String := s!"{t.kind.name}@{t.span.text} {Text.quote t.text}"

/-- One line about a tree. -/
def Tree.summary (t : Tree) : String :=
  "SyntaxTree \x7b len: " ++ toString t.length ++ ", nodes: " ++ toString t.nodeCount ++
    ", tokens: " ++ toString t.tokenCount ++ " \x7d"

end Xref
