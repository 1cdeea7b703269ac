import Std.Data.TreeMap
import Xref.Binding.Binder

/-!
# Bound units

A bound unit is the tree of a unit with the symbols that its nodes mention. A node mentions at most
one symbol.
-/

namespace Xref

open Binding (Mention)

/-- The tree of a unit, with what its nodes mention. -/
structure BoundUnit where
  module : ModuleId
  name : String
  tree : Tree
  mentions : Std.TreeMap NodeId Mention

namespace BoundUnit

/-- A unit with the given mentions. Of several for one node the last counts. -/
def ofList (module : ModuleId) (name : String) (tree : Tree)
    (mentions : List (NodeId × Mention)) : BoundUnit :=
  ⟨module, name, tree, mentions.foldl (fun found a => found.insert a.1 a.2) ∅⟩

/-- What a node mentions. -/
def mention? (u : BoundUnit) (node : NodeId) : Option Mention := u.mentions[node]?

/-- The number of nodes that mention a symbol. -/
def mentionCount (u : BoundUnit) : Nat := u.mentions.size

end BoundUnit

end Xref
