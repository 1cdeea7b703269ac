import Xref.Proofs.Navigation.References
import Xref.Proofs.Project.Layouts

/-!
# The units that a search goes through

A search for references or for what to rename goes through the unit under the cursor and the units to
search, each once and in this order (`Analysis.walk`). It stops at the first unit that is locked, has
no document or does not compile, with the error of this unit (`Analysis.Searches`). The store tells
which locks were asked for and which units were compiled (`Analysis.after`); documents and locks stay
as they were, whatever is asked. All of this is `Analysis.search_walks`.
-/

namespace Xref

/-- The store with the same documents, none of them locked. -/
def Store.unlocked (s : Store) : Store :=
  { s with documents := { s.documents with locks := .empty } }

/-- The units that were compiled in vain if a request fails with an error. -/
def RequestError.compiled : RequestError → List UnitId
  | .compilationFailed unit _ => [unit]
  | _ => []

namespace Request

variable {α β : Type} {r : Request α} {s : Store}

/-! ## Runs -/

theorem exec_ofExcept (x : Except RequestError α) (s : Store) : (ofExcept x).exec s = (x, s) := by
  cases x <;> rfl

theorem exec_bind_of_ok {f : α → Request β} {v : α} {s' : Store} (h : r.exec s = (.ok v, s')) :
    (r >>= f).exec s = (f v).exec s' := by
  show ExceptT.bindCont f (r.exec s).1 (r.exec s).2 = _
  rw [h]
  rfl

theorem exec_bind_of_error {f : α → Request β} {e : RequestError} {s' : Store}
    (h : r.exec s = (.error e, s')) : (r >>= f).exec s = (.error e, s') := by
  show ExceptT.bindCont f (r.exec s).1 (r.exec s).2 = _
  rw [h]
  rfl

theorem exec_tryCatch_of_ok {h : RequestError → Request α} {v : α} {s' : Store}
    (hr : r.exec s = (.ok v, s')) : (tryCatch r h).exec s = (.ok v, s') := by
  have hrun : r s = (.ok v, s') := hr
  show ExceptT.tryCatch r h s = _
  rw [ExceptT.tryCatch, ExceptT.mk]
  simp only [Bind.bind, StateT.bind, hrun]
  rfl

theorem exec_tryCatch_of_error {h : RequestError → Request α} {e : RequestError} {s' : Store}
    (hr : r.exec s = (.error e, s')) : (tryCatch r h).exec s = (h e).exec s' := by
  have hrun : r s = (.error e, s') := hr
  show ExceptT.tryCatch r h s = _
  rw [ExceptT.tryCatch, ExceptT.mk]
  simp only [Bind.bind, StateT.bind, hrun]
  rfl

/-- Whether a request leaves the documents and the locks on them as they are. -/
def Keeps (r : Request α) (s : Store) : Prop :=
  (r.exec s).2.documents.files = s.documents.files ∧
    (r.exec s).2.documents.locks.held = s.documents.locks.held

theorem Answers.exists_bind {d : Documents} {held : List FilePath} {x : Except RequestError α}
    {f : α → Request β} (hr : Answers d held r x) (hf : ∀ v, ∃ y, Answers d held (f v) y) :
    ∃ z, Answers d held (r >>= f) z := by
  choose answer hanswer using hf
  exact ⟨_, hr.bind hanswer⟩

theorem Answers.keeps {x : Except RequestError α}
    (h : Answers s.documents s.documents.locks.held r x) : r.Keeps s :=
  ⟨(h s ⟨rfl, rfl⟩).2.files, (h s ⟨rfl, rfl⟩).2.held⟩

end Request

namespace Analysis

open Request (Answers)

variable {α : Type} {a : Analysis} {d d' : Documents} {s : Store} {place : FilePath × UnitId}
  {places : List (FilePath × UnitId)} {b : BoundUnit} {e : RequestError} {uri : Uri}
  {position : Position} {s' : Store}

/-! ## Units at places -/

/-- Whether the unit at a place is not locked, has a document and compiles. -/
structure UnitAt (a : Analysis) (d : Documents) (place : FilePath × UnitId) (b : BoundUnit) :
    Prop where
  unlocked : d.locks.isLocked place.1 = false
  compiles : ∃ source, d.get? place.1 = some source ∧
    a.compiler.compile d a.graph place.2 source = .ok b

/-- Why a search stops at a place. -/
inductive FailsAt (a : Analysis) (d : Documents) (place : FilePath × UnitId) : RequestError → Prop
  | locked (hlocked : d.locks.isLocked place.1) :
    FailsAt a d place (.lockUnavailable place.1 a.config.lockTimeout)
  | missing (hunlocked : d.locks.isLocked place.1 = false) (hget : d.get? place.1 = none) :
    FailsAt a d place (.documentNotFound (.path place.1))
  | refused {source : String} {e : CompileError} (hunlocked : d.locks.isLocked place.1 = false)
    (hget : d.get? place.1 = some source)
    (hcompile : a.compiler.compile d a.graph place.2 source = .error e) :
    FailsAt a d place (.compilationFailed place.2 e)

/-- Whether a search does not stop at a place. -/
def Ready (a : Analysis) (d : Documents) (place : FilePath × UnitId) : Prop :=
  ∃ b, a.UnitAt d place b

variable (a d place) in
theorem ready_or_failsAt : a.Ready d place ∨ ∃ e, a.FailsAt d place e := by
  cases hlocked : d.locks.isLocked place.1 with
  | true => exact .inr ⟨_, .locked hlocked⟩
  | false =>
    cases hget : d.get? place.1 with
    | none => exact .inr ⟨_, .missing hlocked hget⟩
    | some source =>
      cases hcompile : a.compiler.compile d a.graph place.2 source with
      | error e => exact .inr ⟨_, .refused hlocked hget hcompile⟩
      | ok b => exact .inl ⟨b, hlocked, source, hget, hcompile⟩

theorem FailsAt.not_ready (h : a.FailsAt d place e) : ¬ a.Ready d place := by
  rintro ⟨b, hunlocked, source, hget, hcompile⟩
  cases h with
  | locked hlocked => rw [hunlocked] at hlocked; cases hlocked
  | missing _ hnone => rw [hget] at hnone; cases hnone
  | refused _ hget' herror =>
    rw [hget] at hget'
    cases hget'
    rw [hcompile] at herror
    cases herror

theorem FailsAt.ne_unresolvedSymbol (h : a.FailsAt d place e) (token : String) :
    e ≠ .unresolvedSymbol token := by
  rintro rfl
  cases h

section
variable (hreads : a.compiler.ReadsTexts) (hfiles : d.files = d'.files)
  (hheld : d.locks.held = d'.locks.held)
include hreads hfiles hheld

/-- Whether a unit can be had depends on the texts and on what is locked. -/
theorem UnitAt.congr (h : a.UnitAt d place b) : a.UnitAt d' place b := by
  refine ⟨?_, ?_⟩
  · rw [Locks.isLocked, ← hheld]
    exact h.unlocked
  · rw [← Documents.get?_of_files hfiles, ← hreads _ _ hfiles]
    exact h.compiles

theorem Ready.congr (h : a.Ready d place) : a.Ready d' place :=
  h.imp fun _ => UnitAt.congr hreads hfiles hheld

theorem FailsAt.congr (h : a.FailsAt d place e) : a.FailsAt d' place e := by
  have hlocked : d.locks.isLocked place.1 = d'.locks.isLocked place.1 := by
    rw [Locks.isLocked, hheld]
    rfl
  have hget := Documents.get?_of_files hfiles
  cases h with
  | locked h => exact .locked (hlocked ▸ h)
  | missing h hnone => exact .missing (hlocked ▸ h) (hget ▸ hnone)
  | refused h hsome herror =>
    exact .refused (hlocked ▸ h) (hget ▸ hsome) (hreads _ _ hfiles ▸ herror)

end

/-! ## What is left behind -/

/-- The store after the locks on some paths were asked for and given back, and some units were
compiled. -/
def after (a : Analysis) (s : Store) (asked : List FilePath) (compiled : List UnitId) : Store where
  documents := { s.documents with locks := asked.foldl Locks.ask s.documents.locks }
  log := if a.compiler.isLogged then s.log ++ compiled else s.log

/-- Without units to compile only the locks know of it. -/
theorem after_nil (a : Analysis) (s : Store) (asked : List FilePath) :
    a.after s asked [] = { s with documents := { s.documents with
      locks := asked.foldl Locks.ask s.documents.locks } } := by
  rw [after, List.append_nil, ite_self]

theorem files_after (a : Analysis) (s : Store) (asked : List FilePath) (compiled : List UnitId) :
    (a.after s asked compiled).documents.files = s.documents.files := rfl

theorem held_after (a : Analysis) (s : Store) (asked : List FilePath) (compiled : List UnitId) :
    (a.after s asked compiled).documents.locks.held = s.documents.locks.held :=
  List.foldlRecOn asked Locks.ask (motive := fun l => l.held = s.documents.locks.held) rfl
    fun _ h path _ => (Documents.held_ask _ path).trans h

theorem after_after (asked asked' : List FilePath) (compiled compiled' : List UnitId) :
    a.after (a.after s asked compiled) asked' compiled' =
      a.after s (asked ++ asked') (compiled ++ compiled') := by
  rw [after, after, after, List.foldl_append]
  split <;> simp

/-- What becomes of the locks when one is asked for and given back. -/
theorem release_ask {l : Locks} {path : FilePath} (h : ∀ p ∈ l.held, p.sameAs path = false) :
    { l.ask path with held := (path :: l.held).filter fun q => !q.sameAs path } = l.ask path := by
  rw [Documents.filter_held h, ← Documents.held_ask l path]

/-- The store while a request has the lock on a path. -/
def lockedAt (s : Store) (path : FilePath) : Store := { s with documents := { s.documents with
  locks := { s.documents.locks.ask path with held := path :: s.documents.locks.held } } }

/-- Giving the lock back leaves that it was asked for, and what was compiled in the meantime. -/
theorem unlock_after_lockedAt {path : FilePath}
    (hunlocked : s.documents.locks.isLocked path = false) (compiled : List UnitId) :
    let s' := a.after (lockedAt s path) [] compiled
    { s' with documents := s'.documents.unlock path } = a.after s [path] compiled := by
  have hrelease := release_ask (Documents.isLocked_eq_false_iff.1 hunlocked)
  exact congrArg (fun l => Store.mk ⟨s.documents.files, l⟩ (a.after s [path] compiled).log) hrelease

/-- What a request does with a document that is not locked. -/
theorem exec_withContent {path : FilePath} (hunlocked : s.documents.locks.isLocked path = false)
    (act : String → Request α) :
    let done : Except RequestError α × Store := match s.documents.content path with
      | .error e => (.error (.ofDocument e), lockedAt s path)
      | .ok text => (act text).exec (lockedAt s path)
    (a.withContent path act).exec s =
      (done.1, { done.2 with documents := done.2.documents.unlock path }) := by
  show a.withContent path act s = _
  rw [withContent, Documents.lock_eq a.config.lockTimeout
    (Documents.isLocked_eq_false_iff.1 hunlocked)]
  rfl

section
variable (hreads : a.compiler.ReadsTexts)
include hreads

theorem exec_compileUnit (hfiles : s.documents.files = d.files) (unit : UnitId) (source : String) :
    (a.compileUnit unit source).exec s =
      ((a.compiler.compile d a.graph unit source).mapError (.compilationFailed unit),
        a.after s [] [unit]) := by
  show a.compileUnit unit source s = _
  rw [compileUnit, hreads _ _ hfiles]
  cases a.compiler.compile d a.graph unit source <;> rfl

variable {act : BoundUnit → Request α} {f : BoundUnit → Except RequestError α}

/-- A document that is there and not locked is compiled, and what it compiles to handed to an
action. -/
theorem exec_withUnit {source : String} {x : Except CompileError BoundUnit}
    (hunlocked : s.documents.locks.isLocked place.1 = false)
    (hget : s.documents.get? place.1 = some source)
    (hcompile : a.compiler.compile s.documents a.graph place.2 source = x)
    (hact : ∀ b, x = .ok b → ∀ s', (act b).exec s' = (f b, s')) :
    (a.withUnit place.1 place.2 act).exec s =
      ((x.mapError (.compilationFailed place.2)).bind f, a.after s [place.1] [place.2]) := by
  have hrun : (a.compileUnit place.2 source >>= act).exec (lockedAt s place.1) =
      ((x.mapError (.compilationFailed place.2)).bind f,
        a.after (lockedAt s place.1) [] [place.2]) := by
    have hcompiled := exec_compileUnit hreads (s := lockedAt s place.1) (d := s.documents) rfl
      place.2 source
    rw [hcompile] at hcompiled
    cases x with
    | error e => exact Request.exec_bind_of_error hcompiled
    | ok b => exact (Request.exec_bind_of_ok hcompiled).trans (hact b rfl _)
  rw [withUnit, exec_withContent hunlocked, Documents.content_eq_ok_iff.2 hget]
  dsimp only
  rw [hrun]
  exact Prod.ext rfl (unlock_after_lockedAt hunlocked _)

theorem UnitAt.exec_withUnit (h : a.UnitAt s.documents place b)
    (hact : ∀ s', (act b).exec s' = (f b, s')) :
    (a.withUnit place.1 place.2 act).exec s = (f b, a.after s [place.1] [place.2]) := by
  obtain ⟨source, hget, hcompile⟩ := h.compiles
  exact Analysis.exec_withUnit hreads h.unlocked hget hcompile fun _ heq =>
    Except.ok.inj heq ▸ hact

/-- A unit that cannot be had is not handed to an action. -/
theorem FailsAt.exec_withUnit (h : a.FailsAt s.documents place e) :
    (a.withUnit place.1 place.2 act).exec s =
      (.error e, a.after s [place.1] e.compiled) := by
  cases h with
  | locked hlocked =>
    show a.withContent place.1 _ s = _
    rw [withContent, Documents.lock_eq_error a.config.lockTimeout hlocked]
    exact Prod.ext rfl (a.after_nil s [place.1]).symm
  | missing hunlocked hnone =>
    have hcontent : s.documents.content place.1 = .error (.notFound place.1) := by
      rw [Documents.content, hnone]
    rw [withUnit, exec_withContent hunlocked, hcontent]
    have hunlock := unlock_after_lockedAt (a := a) hunlocked []
    rw [after_nil] at hunlock
    exact Prod.ext rfl hunlock
  | @refused _ cause hunlocked hget hcompile =>
    exact Analysis.exec_withUnit hreads (f := fun _ => .error (.compilationFailed place.2 cause))
      hunlocked hget hcompile fun _ heq => by cases heq

end

/-! ## Searches -/

/-- What comes of going through places: none of them stops the search, or the first that does gives
its error, and those after it are left alone. -/
inductive Searches (a : Analysis) (s : Store) (places : List (FilePath × UnitId)) :
    Except RequestError α × Store → Prop
  | complete {v : α} (hready : ∀ place ∈ places, a.Ready s.documents place) :
    Searches a s places (.ok v, a.after s (places.map Prod.fst) (places.map Prod.snd))
  | stops {before rest : List (FilePath × UnitId)} {place : FilePath × UnitId} {e : RequestError}
    (hplaces : places = before ++ place :: rest)
    (hready : ∀ place ∈ before, a.Ready s.documents place)
    (hfails : a.FailsAt s.documents place e) :
    Searches a s places (.error e, a.after s (before.map Prod.fst ++ [place.1])
      (before.map Prod.snd ++ e.compiled))

variable {done : Except RequestError α × Store}

/-- A search succeeds if nothing stops it. -/
theorem Searches.ok_iff (h : a.Searches s places done) :
    (∃ v, done.1 = .ok v) ↔ ∀ place ∈ places, a.Ready s.documents place := by
  cases h with
  | complete hready => exact iff_of_true ⟨_, rfl⟩ hready
  | @stops before rest place e hplaces hready hfails =>
    refine iff_of_false (fun ⟨v, hv⟩ => nomatch hv) fun hall => hfails.not_ready (hall place ?_)
    rw [hplaces]
    exact List.mem_append_right _ List.mem_cons_self

/-- A search that stops at the first place asks for no other. -/
theorem FailsAt.searches (h : a.FailsAt s.documents place e) :
    a.Searches s (place :: places) ((.error e, a.after s [place.1] e.compiled) :
      Except RequestError α × Store) :=
  @Searches.stops _ a s _ [] places place e rfl (fun _ h => nomatch h) h

/-- A search goes on after a place that does not stop it. -/
theorem Searches.cons (hreads : a.compiler.ReadsTexts) (hready : a.Ready s.documents place)
    (h : a.Searches (a.after s [place.1] [place.2]) places done) :
    a.Searches s (place :: places) done := by
  have hfiles := a.files_after s [place.1] [place.2]
  have hheld := a.held_after s [place.1] [place.2]
  cases h with
  | complete hrest =>
    rw [after_after]
    refine .complete (List.forall_mem_cons.2 ⟨hready, fun p hp => ?_⟩)
    exact (hrest p hp).congr hreads hfiles hheld
  | @stops before rest failing e hplaces hrest hfails =>
    rw [after_after]
    refine @Searches.stops _ a s _ (place :: before) rest failing e (congrArg _ hplaces)
      (List.forall_mem_cons.2 ⟨hready, fun p hp => ?_⟩) (hfails.congr hreads hfiles hheld)
    exact (hrest p hp).congr hreads hfiles hheld

theorem gatherUnits_searches (hreads : a.compiler.ReadsTexts) (target : Symbol)
    (units : List UnitId) (o : Occurrences) (s : Store) :
    a.Searches s (units.map fun u => (a.config.layout.pathOf u, u))
      ((a.gatherUnits target units o).exec s) := by
  induction units generalizing o s with
  | nil =>
    have hcomplete : a.Searches s [] ((.ok o, a.after s [] []) :
        Except RequestError Occurrences × Store) := .complete fun _ h => nomatch h
    rwa [after_nil] at hcomplete
  | cons unit rest ih =>
    rw [gatherUnits, List.map_cons]
    rcases a.ready_or_failsAt s.documents (a.config.layout.pathOf unit, unit) with hready | ⟨e, he⟩
    · obtain ⟨b, hb⟩ := hready
      rw [Request.exec_bind_of_ok (hb.exec_withUnit hreads (f := fun b => .ok (o.gather b target none))
        fun _ => rfl)]
      exact (ih _ _).cons hreads ⟨b, hb⟩
    · rw [Request.exec_bind_of_error (he.exec_withUnit hreads)]
      exact he.searches

theorem Searches.bind_pure {β : Type} {r : Request α} {s' : Store}
    (h : a.Searches s places (r.exec s')) (f : α → β) :
    a.Searches s places ((r >>= fun v => pure (f v)).exec s') := by
  generalize hdone : r.exec s' = done at h
  cases h with
  | complete hready =>
    rw [Request.exec_bind_of_ok hdone]
    exact .complete hready
  | stops hplaces hready hfails =>
    rw [Request.exec_bind_of_error hdone]
    exact .stops hplaces hready hfails

theorem allOccurrences_searches (hreads : a.compiler.ReadsTexts) (r : Resolved) (s : Store) :
    a.Searches s ((a.unitsToSearch r.symbol.owner r.unit).map fun u =>
      (a.config.layout.pathOf u, u)) ((a.allOccurrences r).exec s) :=
  (gatherUnits_searches hreads ..).bind_pure Occurrences.prune

/-! ## From a cursor -/

section
variable {r : Resolved} {path : FilePath}

/-- What a cursor is on that resolves if nothing is locked: the unit of its URI has a document and
compiles, and the symbol is found there. -/
structure OnCursor (a : Analysis) (d : Documents) (uri : Uri) (position : Position) (path : FilePath)
    (r : Resolved) (b : BoundUnit) : Prop where
  place : a.unitOfUri uri = .ok (path, r.unit)
  compiles : ∃ source, d.get? path = some source ∧
    a.compiler.compile d a.graph r.unit source = .ok b
  resolves : b.resolve r.unit position .strict = .ok r

variable (hreads : a.compiler.ReadsTexts)
include hreads

theorem exists_onCursor (hr : ((a.resolveStrict uri position).exec s.unlocked).1 = .ok r) :
    ∃ path b, a.OnCursor s.documents uri position path r b := by
  have hholds : s.unlocked.Holds s.documents [] := ⟨rfl, rfl⟩
  rw [(resolveStrict_answersFrom hreads uri position _ hholds).1, strictFrom,
    Except.bind_eq_ok] at hr
  obtain ⟨⟨path, unit⟩, hplace, hr⟩ := hr
  obtain ⟨b, hunit, hresolve⟩ := Except.bind_eq_ok.1 hr
  obtain ⟨-, -, -, -, -, -, -, rfl, -⟩ := BoundUnit.resolve_eq_ok hresolve
  have hfree : ([] : List FilePath).any (·.sameAs path) = false := rfl
  rw [unitFrom, hfree, if_neg Bool.false_ne_true, Except.bind_eq_ok] at hunit
  obtain ⟨source, hcontent, hcompile⟩ := hunit
  exact ⟨path, b, hplace, ⟨source, Documents.content_eq_ok_iff.1 (Except.mapError_eq_ok.1 hcontent),
    Except.mapError_eq_ok.1 hcompile⟩, hresolve⟩

omit hreads in
/-- The unit under the cursor can only be missed because it is locked. -/
theorem OnCursor.unitAt_or_failsAt (h : a.OnCursor d uri position path r b) :
    a.UnitAt d (path, r.unit) b ∨ ∃ e, a.FailsAt d (path, r.unit) e := by
  cases hlocked : d.locks.isLocked path with
  | true => exact .inr ⟨_, .locked hlocked⟩
  | false => exact .inl ⟨hlocked, h.compiles⟩

theorem OnCursor.exec_resolveStrict (h : a.OnCursor s.documents uri position path r b)
    (hunit : a.UnitAt s.documents (path, r.unit) b) :
    (a.resolveStrict uri position).exec s = (.ok r, a.after s [path] [r.unit]) := by
  have hrun : (a.resolve uri position .strict).exec s =
      (.ok (some r), a.after s [path] [r.unit]) := by
    rw [resolve, h.place]
    refine (Request.exec_bind_of_ok (Request.exec_ofExcept ..)).trans ?_
    refine hunit.exec_withUnit hreads (f := fun _ => .ok (some r)) fun s' => ?_
    rw [h.resolves]
    rfl
  rw [resolveStrict, Request.exec_bind_of_ok hrun]
  rfl

theorem OnCursor.exec_resolveStrict_of_failsAt (h : a.OnCursor s.documents uri position path r b)
    (hfails : a.FailsAt s.documents (path, r.unit) e) :
    (a.resolveStrict uri position).exec s = (.error e, a.after s [path] e.compiled) := by
  have hrun : (a.resolve uri position .strict).exec s =
      (.error e, a.after s [path] e.compiled) := by
    rw [resolve, h.place]
    refine (Request.exec_bind_of_ok (Request.exec_ofExcept ..)).trans ?_
    exact hfails.exec_withUnit hreads
  rw [resolveStrict, Request.exec_bind_of_error hrun]

/-- The places that a search from a cursor goes through. -/
def walk (a : Analysis) (path : FilePath) (r : Resolved) : List (FilePath × UnitId) :=
  (path, r.unit) :: (a.unitsToSearch r.symbol.owner r.unit).map fun u =>
    (a.config.layout.pathOf u, u)

omit hreads in
/-- The search starts with the unit under the cursor and comes to no unit twice. -/
theorem nodup_walk (path : FilePath) (r : Resolved) :
    ((a.walk path r).map Prod.snd).Nodup := by
  rw [walk, List.map_cons, List.map_map, show Prod.snd ∘ (fun u => (a.config.layout.pathOf u, u)) =
    id from rfl, List.map_id, List.nodup_cons]
  refine ⟨fun hmem => ?_, nodup_unitsToSearch⟩
  exact of_decide_eq_true (List.mem_filter.1 hmem).2 rfl

/-- What a search from a cursor goes through, and what it finds. -/
theorem OnCursor.searches (h : a.OnCursor s.documents uri position path r b) :
    a.Searches s (a.walk path r)
      ((a.resolveStrict uri position >>= a.allOccurrences).exec s) := by
  rcases h.unitAt_or_failsAt with hunit | ⟨e, hfails⟩
  · rw [Request.exec_bind_of_ok (h.exec_resolveStrict hreads hunit)]
    exact (allOccurrences_searches hreads r _).cons hreads ⟨b, hunit⟩
  · rw [Request.exec_bind_of_error (h.exec_resolveStrict_of_failsAt hreads hfails)]
    exact hfails.searches

/-! ## References and renames -/

omit hreads in
/-- Below an absolute root every reference has a location. -/
theorem exists_locationsOf (hroot : a.config.layout.root.isAbsolute) (refs : List Reference) :
    ∃ ls, a.locationsOf refs = .ok ls := by
  rw [locationsOf]
  rcases mapM_cases a.locationOf refs with ⟨ls, hls, -⟩ | ⟨-, ref, -, e, -, -, he, -⟩
  · exact ⟨_, by rw [hls]; rfl⟩
  · obtain ⟨uri, huri⟩ := Option.isSome_iff_exists.1 ((Layout.uriOf?_isSome_iff _ ref.unit).2
      (Layout.isAbsolute_pathOf hroot _))
    rw [locationOf, uriOfUnit, huri] at he
    cases he

omit hreads in
/-- References report what the search finds. -/
theorem references_eq (a : Analysis) (uri : Uri) (position : Position) (withDefinitions : Bool) :
    a.references uri position withDefinitions =
      (a.resolveStrict uri position >>= a.allOccurrences) >>= fun o =>
        Request.ofExcept (a.locationsOf (o.found withDefinitions)) :=
  (bind_assoc _ _ _).symm

omit hreads in
theorem Searches.references (hroot : a.config.layout.root.isAbsolute) (withDefinitions : Bool)
    (h : a.Searches s places ((a.resolveStrict uri position >>= a.allOccurrences).exec s)) :
    a.Searches s places ((a.references uri position withDefinitions).exec s) := by
  rw [references_eq]
  generalize hdone : (a.resolveStrict uri position >>= a.allOccurrences).exec s = done at h
  cases h with
  | @complete o hready =>
    obtain ⟨ls, hls⟩ := exists_locationsOf hroot (o.found withDefinitions)
    rw [Request.exec_bind_of_ok hdone, Request.exec_ofExcept, hls]
    exact .complete hready
  | stops hplaces hready hfails =>
    rw [Request.exec_bind_of_error hdone]
    exact .stops hplaces hready hfails

omit hreads in
/-- A request that fails like this was not made for want of a symbol. -/
theorem exec_renameTarget_of_error (hr : (a.resolveStrict uri position).exec s = (.error e, s'))
    (he : ∀ token, e ≠ .unresolvedSymbol token) :
    (a.renameTarget uri position).exec s = (.error e, s') := by
  rw [renameTarget, Request.exec_tryCatch_of_error hr]
  cases e with
  | unresolvedSymbol token => exact absurd rfl (he token)
  | _ => rfl

section
variable {newName : String}

omit hreads in
/-- A name that is no name is refused before anything is read. -/
theorem exec_rename_of_error (hname : checkNewName newName = .error e) :
    (a.rename uri position newName).exec s = (.error e, s) := by
  have hchecked : (Request.ofExcept (checkNewName newName)).exec s = (.error e, s) := by
    rw [Request.exec_ofExcept, hname]
  rw [rename, Request.exec_bind_of_error hchecked]

variable (hname : checkNewName newName = .ok ())
include hname

omit hreads in
theorem exec_rename_of_renameTarget
    (hr : (a.renameTarget uri position).exec s = (.error e, s')) :
    (a.rename uri position newName).exec s = (.error e, s') := by
  have hchecked : (Request.ofExcept (checkNewName newName)).exec s = (.ok (), s) := by
    rw [Request.exec_ofExcept, hname]
  rw [rename, Request.exec_bind_of_ok hchecked, Request.exec_bind_of_error hr]

omit hreads in
theorem exec_rename_of_resolveStrict
    (hr : (a.resolveStrict uri position).exec s = (.ok r, s')) :
    (a.rename uri position newName).exec s = (Request.ofExcept r.checkRename >>= fun _ =>
      a.allOccurrences r >>= fun o => Request.ofExcept (o.renameEdit a newName)).exec s' := by
  have hchecked : (Request.ofExcept (checkNewName newName)).exec s = (.ok (), s) := by
    rw [Request.exec_ofExcept, hname]
  have hfound : (a.renameTarget uri position).exec s = (.ok r, s') :=
    Request.exec_tryCatch_of_ok hr
  rw [rename, Request.exec_bind_of_ok hchecked, Request.exec_bind_of_ok hfound]

/-- A symbol that cannot be renamed is refused once its unit is compiled. -/
theorem OnCursor.exec_rename_of_error (h : a.OnCursor s.documents uri position path r b)
    (htarget : r.checkRename = .error e) (hready : a.Ready s.documents (path, r.unit)) :
    (a.rename uri position newName).exec s = (.error e, a.after s [path] [r.unit]) := by
  rcases h.unitAt_or_failsAt with hunit | ⟨e, hfails⟩
  · rw [exec_rename_of_resolveStrict hname (h.exec_resolveStrict hreads hunit),
      Request.exec_bind_of_error (by rw [Request.exec_ofExcept, htarget])]
  · exact absurd hready hfails.not_ready

theorem OnCursor.exec_rename_of_failsAt (h : a.OnCursor s.documents uri position path r b)
    (hfails : a.FailsAt s.documents (path, r.unit) e) :
    (a.rename uri position newName).exec s = (.error e, a.after s [path] e.compiled) :=
  exec_rename_of_renameTarget hname (exec_renameTarget_of_error
    (h.exec_resolveStrict_of_failsAt hreads hfails) hfails.ne_unresolvedSymbol)

/-- A rename goes through what the search does. -/
theorem OnCursor.exec_rename (h : a.OnCursor s.documents uri position path r b)
    (htarget : r.checkRename = .ok ()) :
    (a.rename uri position newName).exec s =
      ((a.resolveStrict uri position >>= a.allOccurrences) >>= fun o =>
        Request.ofExcept (o.renameEdit a newName)).exec s := by
  rcases h.unitAt_or_failsAt with hunit | ⟨e, hfails⟩
  · have hr := h.exec_resolveStrict hreads hunit
    rw [exec_rename_of_resolveStrict hname hr, bind_assoc, Request.exec_bind_of_ok hr,
      Request.exec_bind_of_ok (by rw [Request.exec_ofExcept, htarget])]
  · have hr := h.exec_resolveStrict_of_failsAt hreads hfails
    rw [h.exec_rename_of_failsAt hreads hname hfails, bind_assoc, Request.exec_bind_of_error hr]

end

end

/-! ## What requests leave as it is -/

/-- Whether all requests from a cursor leave the documents and the locks on them as they are. -/
structure RequestsKeep (a : Analysis) (s : Store) (uri : Uri) (position : Position) : Prop where
  reference : (a.reference uri position).Keeps s
  references : ∀ withDefinitions, (a.references uri position withDefinitions).Keeps s
  hover : (a.hover uri position).Keeps s
  definition : (a.definition uri position).Keeps s
  rename : ∀ newName, (a.rename uri position newName).Keeps s

/-- A definition has an answer that the documents decide. -/
theorem exists_definition_answers (hreads : a.compiler.ReadsTexts) (d : Documents)
    (held : List FilePath) (uri : Uri) (position : Position) :
    ∃ x, Answers d held (a.definition uri position) x := by
  refine Answers.exists_bind (resolveStrict_answersFrom hreads uri position) fun r => ?_
  cases r.symbol.declaration with
  | none => exact ⟨_, .pure _⟩
  | some declaration =>
    cases hlocked : held.any (·.sameAs (a.config.layout.pathOf
      ⟨r.symbol.owner, declaration.unit⟩)) with
    | true =>
      exact ⟨_, .bind (.ofExcept _) fun uri =>
        (withContent_answers_of_locked hlocked).bind fun range => .pure _⟩
    | false =>
      exact ⟨_, .bind (.ofExcept _) fun uri => (withContent_answers (by simpa using hlocked)
        fun text => .pure _).bind fun range => .pure _⟩

theorem requestsKeep (hreads : a.compiler.ReadsTexts) (s : Store) (uri : Uri)
    (position : Position) : a.RequestsKeep s uri position where
  reference := (reference_answersFrom hreads uri position).keeps
  references _ := (references_answersFrom hreads uri position _).keeps
  hover := (hover_answersFrom hreads uri position).keeps
  definition := (exists_definition_answers hreads _ _ uri position).choose_spec.keeps
  rename _ := (rename_answersFrom hreads uri position _).keeps

/-! ## All units in scope -/

/-- What requests from a cursor go through, the unit under it being read at `path`. -/
structure WalksFrom (a : Analysis) (s : Store) (uri : Uri) (position : Position) (path : FilePath)
    (r : Resolved) : Prop where
  place : a.unitOfUri uri = .ok (path, r.unit)
  nodup : ((a.walk path r).map Prod.snd).Nodup
  references : ∀ withDefinitions,
    a.Searches s (a.walk path r) ((a.references uri position withDefinitions).exec s)
  references_ok_iff : ∀ withDefinitions,
    (∃ ls, ((a.references uri position withDefinitions).exec s).1 = .ok ls) ↔
      ∀ place ∈ a.walk path r, a.Ready s.documents place
  /-- A rename of a symbol that can be renamed goes through what references do. -/
  rename : ∀ newName, checkNewName newName = .ok () → r.checkRename = .ok () →
    ∀ withDefinitions, ((a.rename uri position newName).exec s).2 =
        ((a.references uri position withDefinitions).exec s).2 ∧
      ∀ e, ((a.references uri position withDefinitions).exec s).1 = .error e →
        ((a.rename uri position newName).exec s).1 = .error e
  /-- A symbol that cannot be renamed is refused after the unit under the cursor. -/
  rename_refused : ∀ newName e, checkNewName newName = .ok () → r.checkRename = .error e →
    (a.Ready s.documents (path, r.unit) →
      (a.rename uri position newName).exec s = (.error e, a.after s [path] [r.unit])) ∧
    ∀ e', a.FailsAt s.documents (path, r.unit) e' →
      (a.rename uri position newName).exec s = (.error e', a.after s [path] e'.compiled)
  rename_misnamed : ∀ newName e, checkNewName newName = .error e →
    (a.rename uri position newName).exec s = (.error e, s)

/-- **Every unit in scope is compiled once, in a fixed order, and the first that cannot be had
decides.** The cursor resolves if nothing is locked; what is locked in the store is arbitrary. -/
theorem search_walks {r : Resolved} (hroot : a.config.layout.root.isAbsolute)
    (hreads : a.compiler.ReadsTexts)
    (hr : ((a.resolveStrict uri position).exec s.unlocked).1 = .ok r) :
    (∃ path, a.WalksFrom s uri position path r) ∧
      ∀ uri' position', a.RequestsKeep s uri' position' := by
  obtain ⟨path, b, hcursor⟩ := exists_onCursor hreads hr
  have hreferences := fun withDefinitions =>
    (hcursor.searches hreads).references hroot withDefinitions
  refine ⟨⟨path, hcursor.place, nodup_walk path r, hreferences,
    fun withDefinitions => (hreferences withDefinitions).ok_iff, ?_, ?_, ?_⟩,
    fun uri' position' => requestsKeep hreads s uri' position'⟩
  · intro newName hname htarget withDefinitions
    rw [hcursor.exec_rename hreads hname htarget, references_eq]
    -- Both go on from what the search finds, without the store.
    rcases hfound : (a.resolveStrict uri position >>= a.allOccurrences).exec s with ⟨e | o, s'⟩
    · rw [Request.exec_bind_of_error hfound, Request.exec_bind_of_error hfound]
      exact ⟨rfl, fun _ he => congrArg Except.error (Except.error.inj he)⟩
    · rw [Request.exec_bind_of_ok hfound, Request.exec_bind_of_ok hfound, Request.exec_ofExcept,
        Request.exec_ofExcept]
      obtain ⟨ls, hls⟩ := exists_locationsOf hroot (o.found withDefinitions)
      rw [hls]
      exact ⟨rfl, fun e he => nomatch he⟩
  · intro newName e hname htarget
    exact ⟨hcursor.exec_rename_of_error hreads hname htarget,
      fun e' hfails => hcursor.exec_rename_of_failsAt hreads hname hfails⟩
  · intro newName e hname
    exact exec_rename_of_error hname

open Workspace (usualLayout ofFiles callFiles)

/-- A search from a call of a function whose own file is locked. -/
theorem search_walks_callFiles :
    let a := (ofFiles callFiles).analysis
    let uri : Uri := ⟨"file:///workspace/main.nav"⟩
    let s : Store := ⟨((ofFiles callFiles).session.documents.lock
      (usualLayout.pathOf ⟨⟨"lib"⟩, "lib.nav"⟩) ⟨0⟩).2, []⟩
    ∃ r, (a.config.layout.root.isAbsolute ∧ a.compiler.ReadsTexts ∧
      ((a.resolveStrict uri ⟨1, 17⟩).exec s.unlocked).1 = .ok r) ∧
    (∃ path, a.WalksFrom s uri ⟨1, 17⟩ path r) ∧
      ∀ uri' position', a.RequestsKeep s uri' position' := by
  intro a uri s
  have hresolve : ((a.resolveStrict uri ⟨1, 17⟩).exec s.unlocked).1.toOption.any
      fun _ => true := by decide +kernel
  obtain ⟨r, hr, -⟩ := exists_ok_of_any hresolve
  have hroot : a.config.layout.root.isAbsolute := by decide
  have hreads : a.compiler.ReadsTexts := Binding.compiler_readsTexts _
  exact ⟨r, ⟨hroot, hreads, hr⟩, search_walks hroot hreads hr⟩

end Analysis

end Xref
