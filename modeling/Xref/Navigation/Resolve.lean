import Xref.Navigation.Occurrences
import Xref.Navigation.Request
import Xref.Syntax.Locate

/-!
# From a position to a symbol

A request with a position compiles the unit under the cursor, finds the token there and climbs to
the innermost node that mentions a symbol; this symbol is the one under the cursor. A strict request
fails where there is none. A quiet one takes the token before the end of the file for a position
behind it, and has no answer where there is none.
-/

namespace Xref

/-- How a request takes it that there is no symbol under the cursor. -/
inductive Manner where
  | strict
  | quiet
  deriving DecidableEq, Repr

/-- The symbol under the cursor and its occurrences in the unit. -/
structure Resolved where
  unit : UnitId
  /-- The token under the cursor. It need not be the one that names the symbol. -/
  token : Token
  cursor : Reference
  occurrences : Occurrences

namespace Resolved

/-- The symbol under the cursor. -/
def symbol (r : Resolved) : Symbol := r.cursor.symbol

end Resolved

/-- The token at an offset, in the given manner. -/
def Tree.locateIn (t : Tree) (manner : Manner) (offset : Nat) : Except LocateError TokenPath :=
  match manner with
  | .strict => t.locate offset
  | .quiet => t.locateOrBefore offset

/-- The innermost node of a path that mentions a symbol, with what it mentions. -/
def BoundUnit.innermost? (u : BoundUnit) (path : TokenPath) :
    Option (Node × Binding.Mention) :=
  path.innermostFirst.findSome? fun n => (u.mention? n.id).map fun a => (n, a)

/-- What is under the cursor in a bound unit. -/
def BoundUnit.resolve (u : BoundUnit) (unit : UnitId) (position : Position) (manner : Manner) :
    Except RequestError Resolved :=
  match (LineIndex.ofText u.tree.text).offset? position with
  | none => .error (.positionNotFound position)
  | some offset =>
    match u.tree.locateIn manner offset with
    | .error _ => .error (.positionNotFound position)
    | .ok path =>
      match u.innermost? path with
      | none => .error (.unresolvedSymbol path.token.text)
      | some (n, mention) =>
        let occurrences := Occurrences.empty.gather u mention.symbol (some n.id)
        match occurrences.cursor with
        | none => .error (.unresolvedSymbol path.token.text)
        | some cursor => .ok ⟨unit, path.token, cursor, occurrences⟩

namespace Analysis

/-- What is under the cursor. Only a quiet request can be without an answer. -/
def resolve (a : Analysis) (uri : Uri) (position : Position) (manner : Manner) :
    Request (Option Resolved) := do
  let (path, unit) ← Request.ofExcept (a.unitOfUri uri)
  a.withUnit path unit fun u =>
    match manner, u.resolve unit position manner with
    | _, .ok r => pure (some r)
    | .strict, .error e => Request.fail e
    | .quiet, .error _ => pure none

/-- What is under the cursor, or the error that there is nothing. -/
def resolveStrict (a : Analysis) (uri : Uri) (position : Position) : Request Resolved := do
  match ← a.resolve uri position .strict with
  | some r => pure r
  | none => Request.fail (.positionNotFound position)

/-- The units where a symbol can occur other than the one under the cursor, in the order in which
they are searched. -/
def unitsToSearch (a : Analysis) (owner : ModuleId) (cursor : UnitId) : List UnitId :=
  ((a.graph.searchScope owner).flatMap fun module =>
    (a.graph.unitsOf module).map fun unit => ⟨module, unit⟩).filter (· ≠ cursor)

/-- Adds the occurrences of the target in several units, one after the other. -/
def gatherUnits (a : Analysis) (target : Symbol) :
    List UnitId → Occurrences → Request Occurrences
  | [], o => pure o
  | unit :: rest, o => do
    let o ← a.withUnit (a.config.layout.pathOf unit) unit fun u => pure (o.gather u target none)
    gatherUnits a target rest o

/-- Every occurrence of the symbol under the cursor. -/
def allOccurrences (a : Analysis) (r : Resolved) : Request Occurrences := do
  let o ← a.gatherUnits r.symbol (a.unitsToSearch r.symbol.owner r.unit) r.occurrences
  pure o.prune

end Analysis

end Xref
