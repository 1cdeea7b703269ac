import Xref.Proofs.Binding.Inputs
import Xref.Proofs.Project.Edits
import Xref.Navigation.Analysis

/-!
# Requests as functions of the documents

A request that only reads gives an answer that depends on the documents and their locks alone, and
gives back the locks that it takes (`Request.Answers`). So every request of an analysis whose compiler
looks at texts only (`Compiler.ReadsTexts`) answers with a plain function of the documents.
-/

namespace Xref

/-- Whether a store has the given documents, of which those at the paths `held` are locked. -/
structure Store.Holds (d : Documents) (held : List FilePath) (s : Store) : Prop where
  files : s.documents.files = d.files
  held : s.documents.locks.held = held

namespace Request

variable {α β : Type} {d : Documents} {held : List FilePath} {r : Request α}
  {x : Except RequestError α}

/-- Whether a request gives the answer `x` on the given documents and leaves them and their locks as
they are. -/
def Answers (d : Documents) (held : List FilePath) (r : Request α) (x : Except RequestError α) :
    Prop :=
  ∀ s : Store, s.Holds d held → (r.exec s).1 = x ∧ (r.exec s).2.Holds d held

namespace Answers

theorem pure (v : α) : Answers d held (Pure.pure v) (.ok v) := fun _ hs => ⟨rfl, hs⟩

theorem fail (e : RequestError) : Answers d held (Request.fail e : Request α) (.error e) :=
  fun _ hs => ⟨rfl, hs⟩

theorem ofExcept (x : Except RequestError α) : Answers d held (Request.ofExcept x) x := by
  cases x with
  | ok v => exact .pure v
  | error e => exact .fail e

theorem bind {f : α → Request β} {y : α → Except RequestError β} (hr : Answers d held r x)
    (hf : ∀ v, Answers d held (f v) (y v)) : Answers d held (r >>= f) (x.bind y) := by
  intro s hs
  obtain ⟨hanswer, hheld⟩ := hr s hs
  have hexec : (r >>= f).exec s = ExceptT.bindCont f (r.exec s).1 (r.exec s).2 := rfl
  rw [hexec, hanswer]
  cases x with
  | ok v => exact hf v _ hheld
  | error e => exact ⟨rfl, hheld⟩

theorem tryCatch {h : RequestError → Request α} {y : RequestError → Except RequestError α}
    (hr : Answers d held r x) (hh : ∀ e, Answers d held (h e) (y e)) :
    Answers d held (tryCatch r h) (tryCatch x y) := by
  intro s hs
  obtain ⟨hanswer, hheld⟩ := hr s hs
  have hexec : (MonadExcept.tryCatch r h).exec s = ExceptT.tryCatch r h s := rfl
  have hrun : r s = (x, (r.exec s).2) := Prod.ext hanswer rfl
  rw [hexec, ExceptT.tryCatch, ExceptT.mk]
  simp only [Bind.bind, StateT.bind, hrun]
  cases x with
  | ok v => exact ⟨rfl, hheld⟩
  | error e => exact hh e _ hheld

end Answers

end Request

/-! ## Compilers that look at texts -/

/-- Whether what units compile to depends on the texts of documents, not on locks. -/
def Compiler.ReadsTexts (c : Compiler) : Prop :=
  ∀ d d' : Documents, d.files = d'.files → c.compile d = c.compile d'

namespace Documents

/-- What a document holds does not depend on locks. -/
theorem content_congr {d d' : Documents} (h : d.files = d'.files) : d.content = d'.content := by
  funext path
  rw [content, content, get?_of_files h]

end Documents

theorem Binding.compiler_readsTexts (l : Layout) : (Binding.compiler l).ReadsTexts :=
  fun _ _ h => funext (compile_congr h l)

namespace Analysis

open Request (Answers)

variable {α : Type} {a : Analysis} {d : Documents} {held : List FilePath} {path : FilePath}

/-! ## Units -/

/-- The unit at a path as it compiles from the documents, if it is not locked. -/
def unitFrom (a : Analysis) (d : Documents) (held : List FilePath) (path : FilePath)
    (unit : UnitId) : Except RequestError BoundUnit :=
  if held.any (·.sameAs path) then .error (.lockUnavailable path a.config.lockTimeout)
  else ((d.content path).mapError .ofDocument).bind fun source =>
    (a.compiler.compile d a.graph unit source).mapError (.compilationFailed unit)

/-- A unit whose document is there and not locked is what the document compiles to. -/
theorem unitFrom_of_get? {path : FilePath} {unit : UnitId} {source : String}
    (hfree : ∀ p ∈ held, p.sameAs path = false) (hget : d.get? path = some source) :
    a.unitFrom d held path unit =
      (a.compiler.compile d a.graph unit source).mapError (.compilationFailed unit) := by
  have hlocked : held.any (·.sameAs path) = false := by simpa using hfree
  rw [unitFrom, hlocked, if_neg Bool.false_ne_true, Documents.content, hget]
  rfl

theorem unitOfUri_eq_ok {uri : Uri} {place : FilePath × UnitId} :
    a.unitOfUri uri = .ok place ↔
      uri.toFile? = some place.1 ∧ a.config.layout.unitAt? place.1 = some place.2 := by
  obtain ⟨path, unit⟩ := place
  rw [unitOfUri]
  cases uri.toFile? with
  | none => simp
  | some file =>
    simp only [Option.some.injEq]
    constructor
    · intro h
      split at h
      · cases h
      · rename_i hunit
        cases h
        exact ⟨rfl, hunit⟩
    · rintro ⟨rfl, hunit⟩
      rw [hunit]

/-- An action on an unlocked document finds it locked. -/
theorem withContent_answers {act : String → Request α}
    {f : String → Except RequestError α} (hpath : ∀ p ∈ held, p.sameAs path = false)
    (hact : ∀ text, Answers d (path :: held) (act text) (f text)) :
    Answers d held (a.withContent path act) (((d.content path).mapError .ofDocument).bind f) := by
  intro s hs
  have hlock := Documents.lock_eq (d := s.documents) a.config.lockTimeout fun p hp =>
    hpath p (hs.held ▸ hp)
  rw [hs.held] at hlock
  have hrelease := Documents.filter_held hpath
  have hcontent := Documents.content_congr hs.files
  have hexec : (a.withContent path act).exec s = a.withContent path act s := rfl
  rw [hexec, withContent, hlock]
  dsimp only
  rw [show ({ s.documents with locks :=
      { s.documents.locks.ask path with held := path :: held } } : Documents).content path =
      d.content path from congrFun hcontent path]
  cases d.content path with
  | error e => exact ⟨rfl, hs.files, hrelease⟩
  | ok text =>
    simp only [Except.mapError, Except.bind]
    obtain ⟨hanswer, hheld⟩ := hact text { s with documents := { s.documents with locks :=
      { s.documents.locks.ask path with held := path :: held } } } ⟨hs.files, rfl⟩
    refine ⟨hanswer, hheld.files, ?_⟩
    refine (congrArg (List.filter fun q => !q.sameAs path) hheld.held).trans hrelease

/-- A locked document is not read. -/
theorem withContent_answers_of_locked {act : String → Request α}
    (hpath : held.any (·.sameAs path)) :
    Answers d held (a.withContent path act)
      (.error (.lockUnavailable path a.config.lockTimeout)) := by
  intro s hs
  have hlocked : s.documents.locks.isLocked path := by rwa [Locks.isLocked, hs.held]
  have hexec : (a.withContent path act).exec s = a.withContent path act s := rfl
  rw [hexec, withContent, Documents.lock_eq_error a.config.lockTimeout hlocked]
  exact ⟨rfl, hs.files, (Documents.held_ask ..).trans hs.held⟩

section
variable (hreads : a.compiler.ReadsTexts)
include hreads

theorem compileUnit_answersFrom (unit : UnitId) (source : String) :
    Answers d held (a.compileUnit unit source)
      ((a.compiler.compile d a.graph unit source).mapError (.compilationFailed unit)) := by
  intro s hs
  have hexec : (a.compileUnit unit source).exec s =
      ((a.compiler.compile d a.graph unit source).mapError (.compilationFailed unit),
        { s with log := if a.compiler.isLogged then s.log ++ [unit] else s.log }) := by
    show a.compileUnit unit source s = _
    rw [compileUnit, hreads _ _ hs.files]
    cases a.compiler.compile d a.graph unit source <;> rfl
  rw [hexec]
  exact ⟨rfl, hs.files, hs.held⟩

theorem withUnit_answersFrom {unit : UnitId} {act : BoundUnit → Request α}
    {f : BoundUnit → Except RequestError α} (hact : ∀ b, Answers d (path :: held) (act b) (f b)) :
    Answers d held (a.withUnit path unit act) ((a.unitFrom d held path unit).bind f) := by
  rw [unitFrom]
  split_ifs with hlocked
  · exact withContent_answers_of_locked hlocked
  · have hfree : ∀ p ∈ held, p.sameAs path = false := by simpa using hlocked
    have hbind : (((d.content path).mapError RequestError.ofDocument).bind fun source =>
        (a.compiler.compile d a.graph unit source).mapError (.compilationFailed unit)).bind f =
        ((d.content path).mapError RequestError.ofDocument).bind fun source =>
          ((a.compiler.compile d a.graph unit source).mapError (.compilationFailed unit)).bind f := by
      cases d.content path <;> rfl
    rw [hbind]
    exact withContent_answers hfree fun source =>
      (compileUnit_answersFrom hreads unit source).bind hact

/-! ## The symbol under the cursor -/

omit hreads

/-- The answer that a manner makes of what is under the cursor. -/
def inManner : Manner → Except RequestError Resolved → Except RequestError (Option Resolved)
  | _, .ok r => .ok (some r)
  | .strict, .error e => .error e
  | .quiet, .error _ => .ok none

/-- What is under the cursor as the documents have it. -/
def resolveFrom (a : Analysis) (d : Documents) (held : List FilePath) (uri : Uri)
    (position : Position) (manner : Manner) : Except RequestError (Option Resolved) :=
  (a.unitOfUri uri).bind fun place => (a.unitFrom d held place.1 place.2).bind fun b =>
    inManner manner (b.resolve place.2 position manner)

/-- What a strict request finds under the cursor as the documents have it. -/
def strictFrom (a : Analysis) (d : Documents) (held : List FilePath) (uri : Uri)
    (position : Position) : Except RequestError Resolved :=
  (a.unitOfUri uri).bind fun place => (a.unitFrom d held place.1 place.2).bind fun b =>
    b.resolve place.2 position .strict

/-- The answer of a hover as the documents have it. -/
def hoverFrom (a : Analysis) (d : Documents) (held : List FilePath) (uri : Uri)
    (position : Position) : Except RequestError String :=
  (a.resolveFrom d held uri position .quiet).bind fun r =>
    .ok (r.elim a.config.hoverDefault fun r => r.symbol.hoverText)

include hreads

theorem resolve_answersFrom (uri : Uri) (position : Position) (manner : Manner) :
    Answers d held (a.resolve uri position manner)
      (a.resolveFrom d held uri position manner) := by
  refine .bind (.ofExcept _) fun place => withUnit_answersFrom hreads fun b => ?_
  cases hfound : b.resolve place.2 position manner with
  | ok r => cases manner <;> exact .pure _
  | error e =>
    cases manner with
    | strict => exact .fail e
    | quiet => exact .pure _

theorem resolveStrict_answersFrom (uri : Uri) (position : Position) :
    Answers d held (a.resolveStrict uri position) (a.strictFrom d held uri position) := by
  have hpure : a.strictFrom d held uri position = (a.resolveFrom d held uri position .strict).bind
      fun r => r.elim (.error (.positionNotFound position)) .ok := by
    rw [strictFrom, resolveFrom]
    cases a.unitOfUri uri with
    | error e => rfl
    | ok place =>
      simp only [Except.bind]
      cases a.unitFrom d held place.1 place.2 with
      | error e => rfl
      | ok b =>
        simp only
        cases b.resolve place.2 position .strict <;> rfl
  rw [hpure]
  refine (resolve_answersFrom hreads uri position .strict).bind fun r => ?_
  cases r with
  | some r => exact .pure r
  | none => exact .fail _

theorem reference_answersFrom (uri : Uri) (position : Position) :
    Answers d held (a.reference uri position)
      ((a.strictFrom d held uri position).bind fun r => .ok r.cursor) :=
  (resolveStrict_answersFrom hreads uri position).bind fun r => .pure r.cursor

theorem hover_answersFrom (uri : Uri) (position : Position) :
    Answers d held (a.hover uri position) (a.hoverFrom d held uri position) := by
  refine (resolve_answersFrom hreads uri position .quiet).bind fun r => ?_
  cases r with
  | some r => exact .pure _
  | none => exact .pure _

/-! ## Occurrences -/

omit hreads

/-- No unit is searched twice. -/
theorem nodup_unitsToSearch {owner : ModuleId} {cursor : UnitId} :
    (a.unitsToSearch owner cursor).Nodup := by
  refine List.Nodup.filter _ (List.nodup_flatMap.2 ⟨?_, ?_⟩)
  · intro m _
    exact (a.graph.nodup_unitsOf m).map fun _ _ heq => congrArg UnitId.unit heq
  · refine (a.graph.nodup_searchScope _).imp ?_
    intro m m' hne u hu hu'
    obtain ⟨_, -, rfl⟩ := List.mem_map.1 hu
    obtain ⟨_, -, heq⟩ := List.mem_map.1 hu'
    exact hne (congrArg UnitId.module heq).symm

/-- What several units add to what has been found, as the documents have them. -/
def gatherFrom (a : Analysis) (d : Documents) (held : List FilePath) (target : Symbol) :
    List UnitId → Occurrences → Except RequestError Occurrences
  | [], o => .ok o
  | unit :: rest, o =>
    (a.unitFrom d held (a.config.layout.pathOf unit) unit).bind fun b =>
      gatherFrom a d held target rest (o.gather b target none)

/-- Every occurrence of a symbol as the documents have them. -/
def occurrencesFrom (a : Analysis) (d : Documents) (held : List FilePath) (r : Resolved) :
    Except RequestError Occurrences :=
  (a.gatherFrom d held r.symbol (a.unitsToSearch r.symbol.owner r.unit) r.occurrences).map
    Occurrences.prune

include hreads

theorem gatherUnits_answersFrom (target : Symbol) (units : List UnitId) (o : Occurrences) :
    Answers d held (a.gatherUnits target units o) (a.gatherFrom d held target units o) := by
  induction units generalizing o with
  | nil => exact .pure o
  | cons unit rest ih =>
    have hfirst : Answers d held (a.withUnit (a.config.layout.pathOf unit) unit fun u =>
        pure (o.gather u target none))
        ((a.unitFrom d held (a.config.layout.pathOf unit) unit).bind fun b =>
          .ok (o.gather b target none)) :=
      withUnit_answersFrom hreads fun b => .pure _
    have hpure : a.gatherFrom d held target (unit :: rest) o =
        ((a.unitFrom d held (a.config.layout.pathOf unit) unit).bind fun b =>
          .ok (o.gather b target none)).bind (a.gatherFrom d held target rest) := by
      rw [gatherFrom]
      cases a.unitFrom d held (a.config.layout.pathOf unit) unit <;> rfl
    rw [hpure]
    exact hfirst.bind ih

theorem allOccurrences_answersFrom (r : Resolved) :
    Answers d held (a.allOccurrences r) (a.occurrencesFrom d held r) :=
  (gatherUnits_answersFrom hreads _ _ _).bind fun o => .pure o.prune

/-! ## References and renames -/

theorem references_answersFrom (uri : Uri) (position : Position) (withDefinitions : Bool) :
    Answers d held (a.references uri position withDefinitions)
      ((a.strictFrom d held uri position).bind fun r => (a.occurrencesFrom d held r).bind fun o =>
        a.locationsOf (o.found withDefinitions)) :=
  (resolveStrict_answersFrom hreads uri position).bind fun r =>
    (allOccurrences_answersFrom hreads r).bind fun _ => .ofExcept _

omit hreads

/-- What a rename starts from as the documents have it. -/
def renameTargetFrom (a : Analysis) (d : Documents) (held : List FilePath) (uri : Uri)
    (position : Position) : Except RequestError Resolved :=
  tryCatch (a.strictFrom d held uri position) fun
    | .unresolvedSymbol token => .error (.invalidRenameTarget (.noSymbol token))
    | e => .error e

include hreads

theorem renameTarget_answersFrom (uri : Uri) (position : Position) :
    Answers d held (a.renameTarget uri position) (a.renameTargetFrom d held uri position) := by
  refine (resolveStrict_answersFrom hreads uri position).tryCatch fun e => ?_
  cases e <;> exact .fail _

theorem rename_answersFrom (uri : Uri) (position : Position) (newName : String) :
    Answers d held (a.rename uri position newName)
      ((checkNewName newName).bind fun _ => (a.renameTargetFrom d held uri position).bind fun r =>
        r.checkRename.bind fun _ => (a.occurrencesFrom d held r).bind fun o =>
          o.renameEdit a newName) :=
  (Answers.ofExcept _).bind fun _ => (renameTarget_answersFrom hreads uri position).bind fun r =>
    (Answers.ofExcept _).bind fun _ => (allOccurrences_answersFrom hreads r).bind fun _ => .ofExcept _

end

end Analysis

end Xref
