import Xref.Proofs.Navigation.Answers
import Xref.Workspace

/-!
# What requests answer

The answers to the requests about a project with the usual settings are those of plain functions of
its documents (`resolveStrict_answers`, `references_answers`, `rename_answers`).
-/

namespace Xref

open Workspace (usualLayout)
open Binding (boundUnit)

/-- The analysis of a project with the usual settings. -/
def Analysis.ofGraph (g : ModuleGraph) : Analysis :=
  ⟨.ofLayout usualLayout, g, Binding.compiler usualLayout⟩

/-- The analysis of a workspace. -/
def Workspace.analysis (w : Workspace) : Analysis := ⟨.ofLayout w.layout, w.graph, w.compiler⟩

namespace Analysis

open Request (Answers)

variable {α : Type} {d : Documents} {g : ModuleGraph} {held : List FilePath} {path : FilePath}

/-! ## Units -/

/-- The unit at a path as it compiles from the documents. -/
def unitIn (d : Documents) (g : ModuleGraph) (path : FilePath) (unit : UnitId) :
    Except RequestError BoundUnit :=
  ((d.content path).mapError .ofDocument).bind fun source =>
    (Binding.compile usualLayout d g unit source).mapError (.compilationFailed unit)

theorem unitIn_eq_ok_iff {unit : UnitId} {b : BoundUnit} : unitIn d g path unit = .ok b ↔
    ∃ source, d.get? path = some source ∧ Binding.compile usualLayout d g unit source = .ok b := by
  rw [unitIn, Except.bind_eq_ok]
  simp only [Except.mapError_eq_ok, Documents.content_eq_ok_iff]

/-- Without locks a unit is what it compiles to. -/
theorem unitFrom_eq (path : FilePath) (unit : UnitId) :
    (ofGraph g).unitFrom d [] path unit = unitIn d g path unit := rfl

theorem uriOfUnit_eq (g : ModuleGraph) (u : UnitId) : (ofGraph g).uriOfUnit u = .ok u.uri := by
  have huri : (ofGraph g).config.layout.uriOf? u = some u.uri := UnitId.uriOf?_eq u
  rw [uriOfUnit, huri]

theorem unitOfUri_eq_ok_iff {uri : Uri} {place : FilePath × UnitId} :
    (ofGraph g).unitOfUri uri = .ok place ↔
      uri.toFile? = some place.1 ∧ usualLayout.unitAt? place.1 = some place.2 :=
  unitOfUri_eq_ok

/-! ## The symbol under the cursor -/

/-- What is under the cursor as the documents have it. -/
def resolveIn (d : Documents) (g : ModuleGraph) (uri : Uri) (position : Position) :
    Except RequestError Resolved :=
  ((ofGraph g).unitOfUri uri).bind fun place =>
    (unitIn d g place.1 place.2).bind fun b => b.resolve place.2 position .strict

/-- What a search at a position of a file has gone through. -/
theorem resolveIn_eq_ok {uri : Uri} {position : Position} {r : Resolved} :
    resolveIn d g uri position = .ok r ↔ ∃ path u b, uri.toFile? = some path ∧
      usualLayout.unitAt? path = some u ∧ unitIn d g path u = .ok b ∧
        b.resolve u position .strict = .ok r := by
  simp only [resolveIn, Except.bind_eq_ok, unitOfUri_eq_ok_iff, Prod.exists, and_assoc,
    exists_and_left]

theorem resolveStrict_answers (uri : Uri) (position : Position) :
    Answers d [] ((ofGraph g).resolveStrict uri position) (resolveIn d g uri position) :=
  resolveStrict_answersFrom (Binding.compiler_readsTexts usualLayout) uri position

/-! ## Occurrences -/

/-- What several units add to what has been found, as the documents have them. -/
def gatherIn (d : Documents) (g : ModuleGraph) (target : Symbol) :
    List UnitId → Occurrences → Except RequestError Occurrences
  | [], o => .ok o
  | unit :: rest, o =>
    (unitIn d g (usualLayout.pathOf unit) unit).bind fun b =>
      gatherIn d g target rest (o.gather b target none)

theorem gatherFrom_eq (target : Symbol) (units : List UnitId) (o : Occurrences) :
    (ofGraph g).gatherFrom d [] target units o = gatherIn d g target units o := by
  induction units generalizing o with
  | nil => rfl
  | cons unit rest ih =>
    rw [gatherFrom, gatherIn, unitFrom_eq]
    exact congrArg _ (funext fun b => ih _)

/-- Every occurrence of a symbol as the documents have them. -/
def occurrencesIn (d : Documents) (g : ModuleGraph) (r : Resolved) :
    Except RequestError Occurrences :=
  (gatherIn d g r.symbol ((ofGraph g).unitsToSearch r.symbol.owner r.unit) r.occurrences).map
    Occurrences.prune

theorem occurrencesFrom_eq (r : Resolved) :
    (ofGraph g).occurrencesFrom d [] r = occurrencesIn d g r := by
  rw [occurrencesFrom, occurrencesIn, gatherFrom_eq]

/-! ## References and renames -/

theorem references_answers (uri : Uri) (position : Position) (withDefinitions : Bool) :
    Answers d [] ((ofGraph g).references uri position withDefinitions)
      ((resolveIn d g uri position).bind fun r => (occurrencesIn d g r).bind fun o =>
        (ofGraph g).locationsOf (o.found withDefinitions)) := by
  simp only [← occurrencesFrom_eq]
  exact references_answersFrom (Binding.compiler_readsTexts usualLayout) uri position withDefinitions

/-- What a rename starts from as the documents have it. -/
def renameTargetIn (d : Documents) (g : ModuleGraph) (uri : Uri) (position : Position) :
    Except RequestError Resolved :=
  tryCatch (resolveIn d g uri position) fun
    | .unresolvedSymbol token => .error (.invalidRenameTarget (.noSymbol token))
    | e => .error e

/-- The edit of a rename as the documents have it. -/
def renameIn (d : Documents) (g : ModuleGraph) (uri : Uri) (position : Position)
    (newName : String) : Except RequestError WorkspaceEdit :=
  (checkNewName newName).bind fun _ => (renameTargetIn d g uri position).bind fun r =>
    r.checkRename.bind fun _ => (occurrencesIn d g r).bind fun o =>
      o.renameEdit (ofGraph g) newName

theorem rename_answers (uri : Uri) (position : Position) (newName : String) :
    Answers d [] ((ofGraph g).rename uri position newName) (renameIn d g uri position newName) := by
  simp only [renameIn, ← occurrencesFrom_eq]
  exact rename_answersFrom (Binding.compiler_readsTexts usualLayout) uri position newName

end Analysis

/-! ## Serving -/

namespace Workspace

variable {α : Type} {w : Workspace}

section
variable {r : Request α} {x : Except RequestError α}
  (h : r.Answers w.session.documents [] x) (hunlocked : w.session.documents.locks.held = [])
include h hunlocked

/-- The answer to a request about a workspace without locks. -/
theorem serve_answers : (w.serve r).1 = x :=
  (h ⟨w.session.documents, w.log⟩ ⟨rfl, hunlocked⟩).1

/-- A request about a workspace without locks leaves its documents as they are, and no locks. -/
theorem serve_holds : (w.serve r).2.session.documents.files = w.session.documents.files ∧
    (w.serve r).2.session.documents.locks.held = [] :=
  have hstore := (h ⟨w.session.documents, w.log⟩ ⟨rfl, hunlocked⟩).2
  ⟨hstore.files, hstore.held⟩

end

/-- Whether a workspace has the usual layout and none of its documents is locked. -/
structure IsUsual (w : Workspace) : Prop where
  layout : w.layout = usualLayout
  unlocked : w.session.documents.locks.held = []

theorem isUsual_ofFiles (files : List SourceFile) : (ofFiles files).IsUsual :=
  ⟨rfl, held_ofFiles files⟩

namespace IsUsual

variable (h : w.IsUsual) {uri : Uri} {position : Position}
include h

theorem analysis_eq : w.analysis = .ofGraph w.graph := by
  rw [analysis, compiler, h.layout]
  rfl

theorem serve_resolveStrict : (w.serve (w.analysis.resolveStrict uri position)).1 =
    Analysis.resolveIn w.session.documents w.graph uri position := by
  rw [h.analysis_eq]
  exact serve_answers (Analysis.resolveStrict_answers uri position) h.unlocked

/-- References are where the search for the symbol under the cursor has found something. -/
theorem serve_references_eq_ok_iff {r : Resolved}
    (hr : Analysis.resolveIn w.session.documents w.graph uri position = .ok r)
    {withDefinitions : Bool} {ls : List Location} :
    (w.serve (w.analysis.references uri position withDefinitions)).1 = .ok ls ↔
      ∃ o, Analysis.occurrencesIn w.session.documents w.graph r = .ok o ∧
        (Analysis.ofGraph w.graph).locationsOf (o.found withDefinitions) = .ok ls := by
  rw [h.analysis_eq,
    serve_answers (Analysis.references_answers uri position withDefinitions) h.unlocked, hr]
  simp only [Except.bind_eq_ok, Except.ok.injEq, exists_eq_left']

theorem serve_rename {newName : String} :
    (w.serve (w.analysis.rename uri position newName)).1 =
      Analysis.renameIn w.session.documents w.graph uri position newName := by
  rw [h.analysis_eq]
  exact serve_answers (Analysis.rename_answers uri position newName) h.unlocked

variable (uri position) in
/-- Serving a rename only reads. -/
theorem rename_holds (newName : String) :
    (w.serve (w.analysis.rename uri position newName)).2.session.documents.files =
        w.session.documents.files ∧
      (w.serve (w.analysis.rename uri position newName)).2.session.documents.locks.held = [] := by
  rw [h.analysis_eq]
  exact serve_holds (Analysis.rename_answers uri position newName) h.unlocked

end IsUsual

end Workspace

end Xref
