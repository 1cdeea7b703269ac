import Xref.Navigation.Resolve

/-!
# Renaming

A rename replaces every occurrence of a symbol. The occurrences are grouped by unit; in each group
the spans are sorted and must not overlap. The edits of units that lie at the same URI are put
together.
-/

namespace Xref

/-- Checks that a new name has the form of a name. -/
def checkNewName (name : String) : Except RequestError Unit :=
  if isWord name then .ok () else .error (.invalidRenameTarget (.invalidName name))

/-- Checks that the token under the cursor is an identifier and its symbol has a declaration. -/
def Resolved.checkRename (r : Resolved) : Except RequestError Unit :=
  if !r.token.kind.isIdentifier then
    .error (.invalidRenameTarget (.noIdentifier r.token.text))
  else if r.symbol.declaration.isNone then
    .error (.invalidRenameTarget (.undeclared r.symbol.name r.symbol.kind))
  else .ok ()

/-- The first two neighbours of a list of spans that overlap, as ranges. -/
def firstOverlap : List (Span × Range) → Option (Range × Range)
  | a :: b :: rest => if a.1.overlaps b.1 then some (a.2, b.2) else firstOverlap (b :: rest)
  | _ => none

/-- Keeps the first of neighbours with equal spans. -/
def dropEqualSpans : List (Span × Range) → List (Span × Range)
  | [] => []
  | a :: rest => a :: dropEqualSpans (rest.dropWhile fun b => b.1 == a.1)
termination_by sites => sites.length
decreasing_by
  exact Nat.lt_succ_of_le (List.IsSuffix.length_le (List.dropWhile_suffix _))

/-- The places of references in one file, sorted and without repetition. -/
def placesOf (refs : List Reference) : List (Span × Range) :=
  dropEqualSpans <| (refs.map fun r => (r.site.span, r.range)).mergeSort fun a b =>
    (a.1.compare b.1).isLE

/-- The edits that replace references in one file. -/
def editsOf (uri : Uri) (refs : List Reference) (newName : String) :
    Except RequestError (List TextEdit) :=
  let places := placesOf refs
  match firstOverlap places with
  | some (first, second) => .error (.editConflict uri first second)
  | none => .ok (places.map fun place => ⟨place.2, newName⟩)

/-- The unit that a reference is in. -/
def Reference.unit (r : Reference) : UnitId := ⟨r.site.module, r.site.unit⟩

/-- The units of several references, each once, in the order in which they come first. -/
def unitsOf (refs : List Reference) : List UnitId := (refs.map Reference.unit).eraseDups

/-- Puts edits after those that a URI has, or the URI at the end. -/
def addEdits (uri : Uri) (edits : List TextEdit) :
    List (Uri × List TextEdit) → List (Uri × List TextEdit)
  | [] => [(uri, edits)]
  | (u, es) :: rest =>
    if u = uri then (u, es ++ edits) :: rest else (u, es) :: addEdits uri edits rest

/-- Adds the edits of several units to those found so far. -/
def editsOfUnits (a : Analysis) (refs : List Reference) (newName : String) :
    List UnitId → List (Uri × List TextEdit) →
      Except RequestError (List (Uri × List TextEdit))
  | [], changes => .ok changes
  | unit :: rest, changes =>
    (a.uriOfUnit unit).bind fun uri =>
      (editsOf uri (refs.filter fun r => r.unit = unit) newName).bind fun edits =>
        editsOfUnits a refs newName rest (addEdits uri edits changes)

/-- The edit that gives all occurrences a new name. -/
def Occurrences.renameEdit (o : Occurrences) (a : Analysis) (newName : String) :
    Except RequestError WorkspaceEdit :=
  let refs := o.toRename
  (editsOfUnits a refs newName (unitsOf refs) []).map fun changes => ⟨some changes⟩

namespace Analysis

/-- What a rename starts from. That the cursor is on no symbol makes it no target. -/
def renameTarget (a : Analysis) (uri : Uri) (position : Position) : Request Resolved :=
  tryCatch (a.resolveStrict uri position) fun
    | .unresolvedSymbol token => Request.fail (.invalidRenameTarget (.noSymbol token))
    | e => Request.fail e

/-- The edit that renames the symbol under the cursor. The new name is checked before anything is
read, and the target before other units are. -/
def rename (a : Analysis) (uri : Uri) (position : Position) (newName : String) :
    Request WorkspaceEdit := do
  Request.ofExcept (checkNewName newName)
  let r ← a.renameTarget uri position
  Request.ofExcept r.checkRename
  let o ← a.allOccurrences r
  Request.ofExcept (o.renameEdit a newName)

end Analysis

end Xref
