import Xref.Binding.BoundUnit
import Xref.Text.LineIndex

/-!
# Occurrences of a symbol

A search gathers the occurrence under the cursor, the definitions and the other usages. Definitions
and usages are kept in the order of their sites, one per site. A site is where an occurrence is,
whatever symbol it has.
-/

namespace Xref

/-- What an occurrence is to the search that found it. -/
inductive Role where
  | definition
  | usage
  | cursor
  deriving DecidableEq, Repr

/-- The written name of a role. -/
def Role.name : Role → String
  | definition => "Definition"
  | usage => "Usage"
  | cursor => "Cursor"

/-- The place of an occurrence: a span in a unit of a module. -/
structure Site where
  module : ModuleId
  unit : String
  span : Span
  deriving DecidableEq, Repr

namespace Site

/-- Order by module, then by unit, then by span. -/
def compare (a b : Site) : Ordering :=
  ((Ord.compare a.module.name b.module.name).then (Ord.compare a.unit b.unit)).then
    (a.span.compare b.span)

/-- The written form of a site. -/
def text (a : Site) : String := s!"{a.module.name}/{a.unit}@{a.span.text}"

end Site

/-- One occurrence of a symbol. -/
structure Reference where
  symbol : Symbol
  site : Site
  range : Range
  role : Role
  deriving DecidableEq, Repr

namespace Reference

/-- The same occurrence in another role. -/
def withRole (r : Reference) (role : Role) : Reference := { r with role }

/-- The written form of an occurrence. -/
def text (r : Reference) : String := s!"{r.site.text} {r.symbol.name} {r.role.name}"

/-- Puts an occurrence at its place among others, unless its site is taken. The answer says whether
it was put there. -/
def insertNew (r : Reference) : List Reference → Bool × List Reference
  | [] => (true, [r])
  | q :: rest =>
    match r.site.compare q.site with
    | .lt => (true, r :: q :: rest)
    | .eq => (false, q :: rest)
    | .gt => let inserted := insertNew r rest; (inserted.1, q :: inserted.2)

end Reference

/-- What a search has found. -/
structure Occurrences where
  cursor : Option Reference
  definitions : List Reference
  usages : List Reference
  deriving Repr

namespace Occurrences

/-- Nothing has been found. -/
def empty : Occurrences := ⟨none, [], []⟩

/-! ## Adding -/

/-- Sets the occurrence under the cursor, unless it is set. -/
def setCursor (o : Occurrences) (r : Reference) : Bool × Occurrences :=
  match o.cursor with
  | some _ => (false, o)
  | none => (true, { o with cursor := some (r.withRole .cursor) })

/-- Adds a definition, unless there is one at its site. -/
def addDefinition (o : Occurrences) (r : Reference) : Bool × Occurrences :=
  let added := (r.withRole .definition).insertNew o.definitions
  (added.1, { o with definitions := added.2 })

/-- Adds a usage, unless there is one at its site. -/
def addUsage (o : Occurrences) (r : Reference) : Bool × Occurrences :=
  let added := (r.withRole .usage).insertNew o.usages
  (added.1, { o with usages := added.2 })

/-- Keeps the definitions and usages that are equivalent to the symbol under the cursor; none
without a cursor. -/
def prune (o : Occurrences) : Occurrences :=
  match o.cursor with
  | none => { o with definitions := [], usages := [] }
  | some c =>
    let keep := List.filter fun (r : Reference) => r.symbol.isEquivalent c.symbol
    { o with definitions := keep o.definitions, usages := keep o.usages }

/-! ## Asking -/

/-- Whether there is a definition at the cursor. -/
def cursorIsDefinition (o : Occurrences) : Bool :=
  o.cursor.any fun c => o.definitions.any fun d => d.site == c.site

/-- The occurrences to report: the definitions if asked for, the usages, and the cursor unless it is
a definition. -/
def found (o : Occurrences) (withDefinitions : Bool) : List Reference :=
  (if withDefinitions then o.definitions else []) ++ o.usages ++
    (if o.cursorIsDefinition then [] else o.cursor.toList)

/-- The occurrences to replace, one per site and in the order of sites. At a site the cursor goes
before a definition and a definition before a usage. -/
def toRename (o : Occurrences) : List Reference :=
  (o.cursor.toList ++ o.definitions ++ o.usages).foldl (fun found r => (r.insertNew found).2) []

/-! ## Gathering from a unit -/

/-- The occurrence that a node of a unit is, if it mentions a symbol equivalent to the target. It
comes with whether it is the declaration. -/
def occurrence? (u : BoundUnit) (lines : LineIndex) (target : Symbol) (n : Node) :
    Option (Bool × Reference) :=
  (u.mention? n.id).bind fun a =>
    if a.symbol.isEquivalent target then
      (u.tree.token? a.name).map fun name =>
        (a.symbol.isDeclaredAt u.module u.name name.span,
          ⟨a.symbol, ⟨u.module, u.name, name.span⟩, lines.range name.span, .usage⟩)
    else none

/-- Records the occurrence that a node is, if it is one. The occurrence at the node `cursor` becomes
the one under the cursor, and also a definition if it is the declaration. -/
def record (u : BoundUnit) (lines : LineIndex) (target : Symbol) (cursor : Option NodeId)
    (o : Occurrences) (n : Node) : Occurrences :=
  match occurrence? u lines target n with
  | none => o
  | some (declared, r) =>
    if cursor = some n.id then
      ((if declared then (o.addDefinition r).2 else o).setCursor r).2
    else if declared then (o.addDefinition r).2
    else (o.addUsage r).2

/-- Records every occurrence in a unit. -/
def gather (o : Occurrences) (u : BoundUnit) (target : Symbol) (cursor : Option NodeId) :
    Occurrences :=
  u.tree.root.preorder.foldl (record u (.ofText u.tree.text) target cursor) o

end Occurrences

end Xref
