import Xref.Navigation.Rename
import Xref.Text.Quoted

/-!
# Finding, describing and going to symbols

The requests besides renaming. References and definitions are reported as ranges in files, sorted by
URI and position.
-/

namespace Xref

/-- A range in a file. -/
structure Location where
  uri : Uri
  range : Range
  deriving DecidableEq, Repr

/-- Order by URI, then by start, then by end. -/
def Location.compare (l m : Location) : Ordering :=
  ((l.uri.compare m.uri).then (l.range.start.compare m.range.start)).then
    (l.range.stop.compare m.range.stop)

/-- The hover text of a symbol: the line that describes it, and where it is declared. -/
def Symbol.hoverText (s : Symbol) : String :=
  let line := s.detail.getD (s.kind.label ++ " " ++ s.name)
  let text := "```\n" ++ line ++ "\n```"
  if s.kind ≠ .builtin ∧ s.declaration.isSome then
    text ++ "\nDeclared in module `" ++ s.owner.name ++ "`"
  else text

/-- A hover text has a line in a fence, the detail of the symbol or else its kind and its name, and
then the module, exactly if the symbol is declared and is not part of the language. -/
theorem Symbol.hoverText_eq (s : Symbol) : ∃ line place,
    s.hoverText = "```\n" ++ line ++ "\n```" ++ place ∧
    (s.detail = some line ∨ s.detail = none ∧ line = s.kind.label ++ " " ++ s.name) ∧
    (place = "" ∨ place = "\nDeclared in module `" ++ s.owner.name ++ "`") ∧
    (place = "" ↔ s.kind = .builtin ∨ s.declaration = none) := by
  have hline : s.detail = some (s.detail.getD (s.kind.label ++ " " ++ s.name)) ∨
      s.detail = none ∧
        s.detail.getD (s.kind.label ++ " " ++ s.name) = s.kind.label ++ " " ++ s.name := by
    cases s.detail with
    | none => exact .inr ⟨rfl, rfl⟩
    | some detail => exact .inl rfl
  have hnone : ¬ (s.kind ≠ .builtin ∧ s.declaration.isSome) ↔
      s.kind = .builtin ∨ s.declaration = none := by
    cases s.declaration <;> simp
  by_cases hplace : s.kind ≠ .builtin ∧ s.declaration.isSome
  · have hne : "\nDeclared in module `" ++ s.owner.name ++ "`" ≠ "" := fun h => by
      simpa using congrArg String.toList h
    refine ⟨_, _, ?_, hline, .inr rfl, iff_of_false hne fun h => hnone.2 h hplace⟩
    rw [hoverText, if_pos hplace]
    simp only [String.append_assoc]
  · refine ⟨_, "", ?_, hline, .inl rfl, iff_of_true rfl (hnone.1 hplace)⟩
    rw [hoverText, if_neg hplace, String.append_empty]

namespace Analysis

/-- Where a reference is. -/
def locationOf (a : Analysis) (r : Reference) : Except RequestError Location :=
  (a.uriOfUnit r.unit).map fun uri => ⟨uri, r.range⟩

/-- Where several references are, sorted. -/
def locationsOf (a : Analysis) (refs : List Reference) : Except RequestError (List Location) :=
  (refs.mapM a.locationOf).map fun ls => ls.mergeSort fun l m => (l.compare m).isLE

/-- The occurrence under the cursor. -/
def reference (a : Analysis) (uri : Uri) (position : Position) : Request Reference := do
  let r ← a.resolveStrict uri position
  pure r.cursor

/-- The occurrences of the symbol under the cursor. -/
def references (a : Analysis) (uri : Uri) (position : Position) (withDefinitions : Bool) :
    Request (List Location) := do
  let r ← a.resolveStrict uri position
  let o ← a.allOccurrences r
  Request.ofExcept (a.locationsOf (o.found withDefinitions))

/-- The text that describes the symbol under the cursor, or the default. -/
def hover (a : Analysis) (uri : Uri) (position : Position) : Request String := do
  match ← a.resolve uri position .quiet with
  | some r => pure r.symbol.hoverText
  | none => pure a.config.hoverDefault

/-- The declaration of the symbol under the cursor, if it has one. -/
def definition (a : Analysis) (uri : Uri) (position : Position) : Request (List Location) := do
  let r ← a.resolveStrict uri position
  match r.symbol.declaration with
  | none => pure []
  | some declaration =>
    let unit : UnitId := ⟨r.symbol.owner, declaration.unit⟩
    let uri ← Request.ofExcept (a.uriOfUnit unit)
    let range ← a.withContent (a.config.layout.pathOf unit) fun text =>
      pure ((LineIndex.ofText text).range declaration.span)
    pure [⟨uri, range⟩]

end Analysis

/-! ## Summaries -/

/-- One line about a layout. -/
def Layout.summary (l : Layout) : String :=
  "ProjectLayout \x7b source_root: " ++ Text.quoteBytes l.root.bytes ++ ", modules_dir: " ++
    Text.quote l.modulesDir ++ " \x7d"

/-- One line about settings. -/
def Config.summary (c : Config) : String :=
  "IdeConfig \x7b layout: " ++ c.layout.summary ++ ", lock_timeout: " ++ c.lockTimeout.text ++
    ", hover_default_text: " ++ Text.quote c.hoverDefault ++ " \x7d"

/-- One line about an analysis. -/
def Analysis.summary (a : Analysis) : String :=
  "Analysis \x7b config: " ++ a.config.summary ++ ", modules: " ++ toString a.graph.size ++
    ", .. \x7d"

end Xref
