import Xref.Syntax.Builder

/-!
# Phrases

A phrase is what a grammar makes of lexemes: a node kind and slots, without numbers or offsets.
A builder turns it into a tree by opening a node, adding the slots and finishing the node.
-/

namespace Xref

/-- A node without its place in a tree. -/
structure Phrase where
  kind : NodeKind
  slots : List (Slot Phrase Lexeme)

/-- A slot of a phrase. -/
abbrev Part := Slot Phrase Lexeme

namespace Phrase

mutual

/-- The lexemes of a phrase, in order. -/
def lexemes : Phrase → List Lexeme
  | ⟨_, slots⟩ => lexemesOf slots

/-- The lexemes of several slots, in order. -/
def lexemesOf : List Part → List Lexeme
  | [] => []
  | .node p :: rest => p.lexemes ++ lexemesOf rest
  | .token l :: rest => l :: lexemesOf rest
  | .missing :: rest => lexemesOf rest

end

end Phrase

namespace TreeBuilder

mutual

/-- Adds a phrase as a finished node. -/
def addPhrase : Phrase → TreeBuilder → Except BuildError TreeBuilder
  | ⟨kind, slots⟩, b => (addParts slots (b.start kind)).bind finishNode

/-- Adds several slots. -/
def addParts : List Part → TreeBuilder → Except BuildError TreeBuilder
  | [], b => .ok b
  | .node p :: rest, b => (addPhrase p b).bind (addParts rest)
  | .token l :: rest, b => addParts rest (b.token l)
  | .missing :: rest, b => addParts rest b.missing

end

end TreeBuilder

/-- The tree of a phrase. -/
def Phrase.toTree (p : Phrase) : Except BuildError Tree :=
  (TreeBuilder.empty.addPhrase p).bind TreeBuilder.finish

end Xref
