import Xref.Project.Session
import Xref.Proofs.Project.Edits

/-!
# Locks and texts over a session

In a session the locked files are those of the locks that are kept, one lock for each
(`Session.LocksKept`). One operation keeps it so (`Session.LocksKept.step`): what locks a file on the
way gives the lock back, whatever came of it. A text is the one last written to its file, if the file
was not closed since (`Documents.Follows`, `Session.follows_step`). What holds at every point of a
session that began with nothing is `Session.run_disciplined`.
-/

namespace Xref

/-! ## What is written -/

/-- A text that was written to a file, or that the file was closed. -/
structure FileEvent where
  path : FilePath
  text : Option String
  deriving DecidableEq, Repr

/-- The last event of a file. -/
def FileEvent.latest (events : List FileEvent) (path : FilePath) : Option FileEvent :=
  (events.filter fun e => e.path.sameAs path).getLast?

theorem FileEvent.latest_append (as bs : List FileEvent) (path : FilePath) :
    latest (as ++ bs) path = (latest bs path).or (latest as path) := by
  rw [latest, List.filter_append, List.getLast?_append]
  rfl

namespace Documents

open FileEvent (latest)

variable {d d₁ d₂ : Documents} {timeout : Duration}

/-- The texts after some events are those that the events wrote last, and the others are kept. -/
def Follows (d : Documents) (events : List FileEvent) (after : Documents) : Prop :=
  ∀ q, after.get? q = (latest events q).elim (d.get? q) (·.text)

theorem Follows.of_files (h : d₁.files = d.files) : d.Follows [] d₁ := by
  intro q
  rw [get?_of_files h]
  rfl

theorem Follows.append {as bs : List FileEvent} (h : d.Follows as d₁) (h' : d₁.Follows bs d₂) :
    d.Follows (as ++ bs) d₂ := by
  intro q
  rw [h' q, h q, FileEvent.latest_append]
  cases latest bs q <;> rfl

theorem Follows.of_get? {path : FilePath} {text : Option String}
    (h : ∀ q, d₁.get? q = if path.sameAs q then text else d.get? q) :
    d.Follows [⟨path, text⟩] d₁ := by
  intro q
  rw [h, latest, List.filter_singleton]
  cases path.sameAs q <;> rfl

theorem get?_erase (d : Documents) (path q : FilePath) :
    (d.erase path).get? q = if path.sameAs q then none else d.get? q := by
  rw [get?, erase, List.find?_filter]
  cases hsame : path.sameAs q with
  | true =>
    -- A file that is kept is not at `path`, hence not at `q`.
    rw [if_pos rfl, Option.map_eq_none_iff, List.find?_eq_none]
    intro file _ h
    rw [Bool.decide_and, Bool.and_eq_true, decide_eq_true_eq, decide_eq_true_eq] at h
    have hq := FilePath.sameAs_iff.1 h.2
    have : file.1.sameAs path := FilePath.sameAs_iff.2 (hq.trans (FilePath.sameAs_iff.1 hsame).symm)
    simp [this] at h
  | false =>
    rw [if_neg Bool.false_ne_true, get?]
    congr 2
    funext file
    cases hfile : file.1.sameAs q with
    | false => simp
    | true =>
      have : file.1.sameAs path = false := by
        rw [Bool.eq_false_iff]
        intro h
        rw [FilePath.sameAs_iff] at h hfile
        rw [FilePath.sameAs_iff.2 (h.symm.trans hfile)] at hsame
        cases hsame
      simp [this]

/-- What an entry of an edit writes. -/
def written? (d : Documents) (uri : Uri) (edits : List TextEdit) : Option FileEvent :=
  uri.toFile?.bind fun path => (d.get? path).bind fun text =>
    (edited path text edits).toOption.map fun new => ⟨path, some new⟩

/-- What the entries of an edit write that are carried out. -/
def editEvents (d : Documents) (timeout : Duration) : List (Uri × List TextEdit) → List FileEvent
  | [] => []
  | (uri, edits) :: rest =>
    match d.editFile timeout uri edits with
    | (.error _, _) => []
    | (.ok (), after) => (d.written? uri edits).toList ++ after.editEvents timeout rest

theorem Changes.written? {uri : Uri} {edits : List TextEdit} {path : FilePath} {new : String}
    (h : d.Changes (uri, edits) path new) : d.written? uri edits = some ⟨path, some new⟩ := by
  obtain ⟨hfile, -, text, htext, hnew⟩ := h
  rw [Documents.written?, hfile, Option.bind_some, htext, Option.bind_some, hnew]
  rfl

variable (d timeout) in
/-- **An edit writes what its entries write, and locks nothing,** however far it gets. -/
theorem follows_editFiles (entries : List (Uri × List TextEdit)) :
    d.Follows (d.editEvents timeout entries) (d.editFiles timeout entries).2 ∧
      (d.editFiles timeout entries).2.locks.held = d.locks.held := by
  induction entries generalizing d with
  | nil => exact ⟨.of_files rfl, rfl⟩
  | cons entry rest ih =>
    obtain ⟨uri, edits⟩ := entry
    rw [editEvents, editFiles]
    rcases d.editFile_cases timeout uri edits with
      ⟨path, new, d₁, hok, hchanges, hheld, hget⟩ | ⟨e, d₁, herror, -, hheld, hget⟩
    · obtain ⟨hfollows, hheld'⟩ := ih d₁
      rw [hok, hchanges.written?]
      exact ⟨(Follows.of_get? hget).append hfollows, hheld'.trans hheld⟩
    · rw [herror]
      exact ⟨hget, hheld⟩

theorem edit_snd (edit : WorkspaceEdit) :
    (d.edit edit timeout).2 = (d.editFiles timeout (inOrder (edit.changes.getD []))).2 := by
  obtain ⟨_ | changes⟩ := edit
  · rw [inOrder, Option.getD_none, List.mergeSort_nil]
    rfl
  · rfl

/-- What an update writes, and that it gives its lock back. -/
theorem update_eq {path : FilePath} (h : d.locks.isLocked path = false) (text : String) :
    d.update path text timeout =
      (.ok (), { d.put path text with locks := { d.locks.ask path with held := d.locks.held } }) := by
  have hfree := isLocked_eq_false_iff.1 h
  rw [update, underLock, lock_eq timeout hfree]
  simp only [unlock, Locks.release, put, filter_held hfree]

theorem update_eq_error {path : FilePath} (h : d.locks.isLocked path) (text : String) :
    d.update path text timeout =
      (.error (.lockTimeout path timeout), { d with locks := d.locks.ask path }) := by
  rw [update, underLock, lock_eq_error timeout h]
  rfl

end Documents

/-! ## Locks that are kept -/

namespace Session

variable {s : Session} {path : FilePath} {name : String}

/-- Whether a lock on a file is kept. -/
def Guards (s : Session) (path : FilePath) : Prop := ∃ kept ∈ s.guards, kept.2.sameAs path

/-- The locked files are those of the locks that are kept. Names and files of these are different. -/
structure LocksKept (s : Session) : Prop where
  names : s.guards.Pairwise fun a b => a.1 ≠ b.1
  files : s.guards.Pairwise fun a b => a.2.sameAs b.2 = false
  held : s.documents.locks.held = s.guards.map (·.2)

theorem locksKept_empty : empty.LocksKept := ⟨.nil, .nil, rfl⟩

theorem LocksKept.isLocked_iff (h : s.LocksKept) (path : FilePath) :
    s.documents.locks.isLocked path ↔ s.Guards path := by
  rw [Locks.isLocked, h.held, List.any_map, List.any_eq_true]
  rfl

theorem LocksKept.isLocked_eq_false (h : s.LocksKept) (hfree : ¬ s.Guards path) :
    s.documents.locks.isLocked path = false :=
  Bool.eq_false_iff.2 fun hlocked => hfree ((h.isLocked_iff path).1 hlocked)

/-- The kept locks without the one of a name. -/
def guardsWithout (s : Session) (name : String) : List (String × FilePath) :=
  s.guards.filter fun kept => kept.1 != name

theorem guardsWithout_eq_self (h : s.guards.lookup name = none) :
    s.guardsWithout name = s.guards := by
  refine List.filter_eq_self.2 fun kept hkept => ?_
  rw [bne_comm]
  exact List.lookup_eq_none_iff.1 h kept hkept

/-- The lock of a name is the only one on its file. -/
theorem filter_guards (names : s.guards.Pairwise fun a b => a.1 ≠ b.1)
    (files : s.guards.Pairwise fun a b => a.2.sameAs b.2 = false)
    (hmem : (name, path) ∈ s.guards) :
    (s.guards.map (·.2)).filter (fun p => !p.sameAs path) = (s.guardsWithout name).map (·.2) := by
  rw [List.filter_map, guardsWithout]
  congr 1
  refine List.filter_congr fun kept hkept => ?_
  have : Std.Symm fun a b : String × FilePath => a.1 ≠ b.1 := ⟨fun _ _ => Ne.symm⟩
  have : Std.Symm fun a b : String × FilePath => a.2.sameAs b.2 = false :=
    ⟨fun a b h => (FilePath.sameAs_comm b.2 a.2).trans h⟩
  by_cases heq : kept = (name, path)
  · subst heq
    simp [FilePath.sameAs_refl]
  · simp [files.forall hkept hmem heq, names.forall hkept hmem heq]

/-- Giving back the lock of a name leaves the locks of other names, and others on other files. -/
theorem dropGuard_held (others : List FilePath) (names : s.guards.Pairwise fun a b => a.1 ≠ b.1)
    (files : s.guards.Pairwise fun a b => a.2.sameAs b.2 = false)
    (held : s.documents.locks.held = others ++ s.guards.map (·.2))
    (hothers : ∀ p ∈ others, ∀ kept ∈ s.guards, p.sameAs kept.2 = false) (name : String) :
    (s.dropGuard name).documents.locks.held = others ++ (s.guardsWithout name).map (·.2) := by
  rw [dropGuard]
  cases hfind : s.guards.lookup name with
  | none =>
    rw [guardsWithout_eq_self hfind]
    exact held
  | some path =>
    obtain ⟨before, after, hguards, -⟩ := List.lookup_eq_some_iff.1 hfind
    have hmem : (name, path) ∈ s.guards := by simp [hguards]
    have hkept : others.filter (fun p => !p.sameAs path) = others :=
      List.filter_eq_self.2 fun p hp => by rw [hothers p hp _ hmem]; rfl
    simp only [Documents.unlock, Locks.release]
    rw [held, List.filter_append, hkept, filter_guards names files hmem]

theorem dropGuard_guards (s : Session) (name : String) :
    (s.dropGuard name).guards = s.guardsWithout name := by
  rw [dropGuard]
  cases hfind : s.guards.lookup name with
  | none => exact (guardsWithout_eq_self hfind).symm
  | some path => rfl

theorem dropGuard_files (s : Session) (name : String) :
    (s.dropGuard name).documents.files = s.documents.files := by
  rw [dropGuard]
  split <;> rfl

theorem LocksKept.dropGuard (h : s.LocksKept) (name : String) : (s.dropGuard name).LocksKept where
  names := dropGuard_guards s name ▸ h.names.filter _
  files := dropGuard_guards s name ▸ h.files.filter _
  held := by
    rw [dropGuard_guards]
    exact dropGuard_held [] h.names h.files h.held (fun _ hp => nomatch hp) name

/-! ## What operations answer -/

/-- A lock is granted if none is kept on the file. It takes the name of the lock that it is kept
under from an earlier one. -/
theorem LocksKept.step_lock (h : s.LocksKept) (hfree : ¬ s.Guards path) (name : String)
    (timeout : Duration) :
    ∃ s', s.step (.lock path name timeout) = (.locked path, s') ∧
      s'.guards = (name, path) :: s.guardsWithout name ∧ s'.LocksKept ∧
      s'.documents.files = s.documents.files := by
  have hunlocked := Documents.isLocked_eq_false_iff.1 (h.isLocked_eq_false hfree)
  have hapart : ∀ kept ∈ s.guards, path.sameAs kept.2 = false := fun kept hkept => by
    rw [FilePath.sameAs_comm, hunlocked]
    rw [h.held]
    exact List.mem_map_of_mem hkept
  -- The documents with the new lock, before the earlier lock of this name is given back.
  obtain ⟨locked, hguards, hfiles, hheld, hstep⟩ : ∃ locked : Session,
      locked.guards = s.guards ∧ locked.documents.files = s.documents.files ∧
      locked.documents.locks.held = [path] ++ s.guards.map (·.2) ∧
      s.step (.lock path name timeout) = (.locked path, { locked.dropGuard name with
        guards := (name, path) :: (locked.dropGuard name).guards }) := by
    rw [step, Documents.lock_eq timeout hunlocked, h.held]
    exact ⟨⟨⟨s.documents.files, { s.documents.locks.ask path with
      held := path :: s.guards.map (·.2) }⟩, s.guards⟩, rfl, rfl, rfl, rfl⟩
  rw [← hguards] at hheld hapart
  rw [hstep, dropGuard_guards, guardsWithout, hguards]
  refine ⟨_, rfl, rfl, ⟨?_, ?_, ?_⟩, (dropGuard_files ..).trans hfiles⟩
  · refine List.pairwise_cons.2 ⟨fun kept hkept => ?_, h.names.filter _⟩
    exact Ne.symm (by simpa using (List.mem_filter.1 hkept).2)
  · exact List.pairwise_cons.2 ⟨fun kept hkept => hapart kept
      (hguards ▸ (List.mem_filter.1 hkept).1), h.files.filter _⟩
  · have := dropGuard_held _ (hguards ▸ h.names) (hguards ▸ h.files) hheld
      (List.forall_mem_singleton.2 hapart) name
    rwa [guardsWithout, hguards] at this

theorem LocksKept.step_lock_guarded (h : s.LocksKept) (hkept : s.Guards path) (name : String)
    (timeout : Duration) :
    ∃ s', s.step (.lock path name timeout) = (.failed (.lockTimeout path timeout), s') ∧
      s'.guards = s.guards ∧ s'.documents.locks.held = s.documents.locks.held ∧
      s'.documents.files = s.documents.files := by
  rw [step, Documents.lock_eq_error timeout ((h.isLocked_iff path).2 hkept)]
  exact ⟨_, rfl, rfl, Documents.held_ask .., rfl⟩

theorem LocksKept.step_update (h : s.LocksKept) (hfree : ¬ s.Guards path) (text : String)
    (timeout : Duration) :
    ∃ s', s.step (.update path text timeout) = (.updated, s') ∧ s'.guards = s.guards ∧
      s'.documents.locks.held = s.documents.locks.held ∧
      s'.documents.files = (s.documents.put path text).files := by
  rw [step, Documents.update_eq (h.isLocked_eq_false hfree)]
  exact ⟨_, rfl, rfl, rfl, rfl⟩

theorem LocksKept.step_update_guarded (h : s.LocksKept) (hkept : s.Guards path) (text : String)
    (timeout : Duration) :
    ∃ s', s.step (.update path text timeout) = (.failed (.lockTimeout path timeout), s') ∧
      s'.guards = s.guards ∧ s'.documents.locks.held = s.documents.locks.held ∧
      s'.documents.files = s.documents.files := by
  rw [step, Documents.update_eq_error ((h.isLocked_iff path).2 hkept)]
  exact ⟨_, rfl, rfl, Documents.held_ask .., rfl⟩

theorem step_edit_snd (s : Session) (edit : WorkspaceEdit) (timeout : Duration) :
    (s.step (.edit edit timeout)).2 = { s with documents := (s.documents.edit edit timeout).2 } := by
  rw [step]
  obtain ⟨_ | n, d⟩ := s.documents.edit edit timeout <;> rfl

end Session

/-! ## One operation -/

/-- Whether an operation asks for a lock that is kept, or gives one back. -/
def SessionStep.IsLocking : SessionStep → Prop
  | .lock .. | .unlock .. => True
  | .put .. | .erase .. | .update .. | .edit .. => False

namespace Session

variable {s : Session} {path : FilePath} {name : String}

/-- What an operation writes. -/
def events (s : Session) : SessionStep → List FileEvent
  | .put path text => [⟨path, some text⟩]
  | .erase path => [⟨path, none⟩]
  | .update path text timeout =>
    if (s.step (.update path text timeout)).1 = .updated then [⟨path, some text⟩] else []
  | .edit edit timeout =>
    s.documents.editEvents timeout (Documents.inOrder (edit.changes.getD []))
  | .lock .. | .unlock .. => []

/-- What several operations write. -/
def history (s : Session) : List SessionStep → List FileEvent
  | [] => []
  | step_ :: steps => s.events step_ ++ (s.step step_).2.history steps

/-- **Only the operations that are about locks change which are kept and which files are locked,**
whatever comes of an operation. -/
theorem LocksKept.step_held (h : s.LocksKept) {step_ : SessionStep} (hstep : ¬ step_.IsLocking) :
    (s.step step_).2.guards = s.guards ∧
      (s.step step_).2.documents.locks.held = s.documents.locks.held := by
  cases step_ with
  | put path text => exact ⟨rfl, rfl⟩
  | erase path => exact ⟨rfl, rfl⟩
  | update path text timeout =>
    by_cases hkept : s.Guards path
    · obtain ⟨s', hs', hguards, hheld, -⟩ := h.step_update_guarded hkept text timeout
      rw [hs']
      exact ⟨hguards, hheld⟩
    · obtain ⟨s', hs', hguards, hheld, -⟩ := h.step_update hkept text timeout
      rw [hs']
      exact ⟨hguards, hheld⟩
  | lock path name timeout => exact absurd trivial hstep
  | unlock name => exact absurd trivial hstep
  | edit edit timeout =>
    rw [step_edit_snd, Documents.edit_snd]
    exact ⟨rfl, (s.documents.follows_editFiles timeout _).2⟩

theorem LocksKept.step (h : s.LocksKept) (step_ : SessionStep) : (s.step step_).2.LocksKept := by
  by_cases hstep : step_.IsLocking
  · cases step_ with
    | lock path name timeout =>
      by_cases hkept : s.Guards path
      · obtain ⟨s', hs', hguards, hheld, -⟩ := h.step_lock_guarded hkept name timeout
        rw [hs']
        exact ⟨hguards ▸ h.names, hguards ▸ h.files, hheld.trans (hguards ▸ h.held)⟩
      · obtain ⟨s', hs', -, h', -⟩ := h.step_lock hkept name timeout
        rw [hs']
        exact h'
    | unlock name => exact h.dropGuard name
    | put | erase | update | edit => exact hstep.elim
  · obtain ⟨hguards, hheld⟩ := h.step_held hstep
    exact ⟨hguards ▸ h.names, hguards ▸ h.files, hheld.trans (hguards ▸ h.held)⟩

/-- **The texts after an operation are those that it wrote, and the others are kept.** -/
theorem LocksKept.follows_step (h : s.LocksKept) (step_ : SessionStep) :
    s.documents.Follows (s.events step_) (s.step step_).2.documents := by
  cases step_ with
  | put path text => exact .of_get? fun q => Documents.get?_put ..
  | erase path => exact .of_get? fun q => Documents.get?_erase ..
  | update path text timeout =>
    rw [events]
    by_cases hkept : s.Guards path
    · obtain ⟨s', hs', -, -, hfiles⟩ := h.step_update_guarded hkept text timeout
      rw [hs', if_neg (fun h => nomatch h)]
      exact .of_files hfiles
    · obtain ⟨s', hs', -, -, hfiles⟩ := h.step_update hkept text timeout
      rw [hs', if_pos rfl]
      exact .of_get? fun q => by rw [Documents.get?_of_files hfiles, Documents.get?_put]
  | lock path name timeout =>
    by_cases hkept : s.Guards path
    · obtain ⟨s', hs', -, -, hfiles⟩ := h.step_lock_guarded hkept name timeout
      rw [hs']
      exact .of_files hfiles
    · obtain ⟨s', hs', -, -, hfiles⟩ := h.step_lock hkept name timeout
      rw [hs']
      exact .of_files hfiles
  | unlock name => exact .of_files (dropGuard_files s name)
  | edit edit timeout =>
    rw [step_edit_snd, Documents.edit_snd]
    exact (s.documents.follows_editFiles timeout _).1

/-! ## Whole sessions -/

theorem LocksKept.run (h : s.LocksKept) (steps : List SessionStep) :
    (s.run steps).LocksKept ∧ s.documents.Follows (s.history steps) (s.run steps).documents := by
  induction steps generalizing s with
  | nil => exact ⟨h, .of_files rfl⟩
  | cons step_ steps ih =>
    obtain ⟨hkept, hfollows⟩ := ih (h.step step_)
    exact ⟨hkept, (h.follows_step step_).append hfollows⟩

/-- What holds at a point of a session, and of the next operation whatever it is. -/
structure Disciplined (s : Session) : Prop where
  /-- No two of the kept locks are on one file. -/
  files : s.guards.Pairwise fun a b => a.2.sameAs b.2 = false
  isLocked_iff : ∀ path, s.documents.locks.isLocked path ↔ s.Guards path
  /-- As many files are locked as locks are kept. -/
  length_held : s.documents.locks.held.length = s.guards.length
  lock_iff : ∀ path name timeout,
    (s.step (.lock path name timeout)).1 = .locked path ↔ ¬ s.Guards path
  /-- A lock that is granted is kept. -/
  lock : ∀ path name timeout, ¬ s.Guards path →
    (s.step (.lock path name timeout)).2.guards = (name, path) :: s.guardsWithout name
  /-- A lock that is not granted changes nothing that is kept. -/
  lock_guarded : ∀ path name timeout, s.Guards path →
    (s.step (.lock path name timeout)).1 = .failed (.lockTimeout path timeout) ∧
      (s.step (.lock path name timeout)).2.guards = s.guards
  unlock : ∀ name, (s.step (.unlock name)).2.guards = s.guardsWithout name
  update_guarded : ∀ path text timeout, s.Guards path →
    (s.step (.update path text timeout)).1 = .failed (.lockTimeout path timeout) ∧
      (s.step (.update path text timeout)).2.documents.files = s.documents.files
  /-- Other operations change neither the kept locks nor the locked files. -/
  others : ∀ step_ : SessionStep, ¬ step_.IsLocking →
    (s.step step_).2.guards = s.guards ∧
      ∀ path, (s.step step_).2.documents.locks.isLocked path = s.documents.locks.isLocked path
  put : ∀ path text, (∃ n, (s.step (.put path text)).1 = .size n) ∧
    (s.step (.put path text)).2.documents.get? path = some text
  erase : ∀ path, (s.step (.erase path)).1 = .removed (s.documents.get? path) ∧
    (s.step (.erase path)).2.documents.get? path = none

theorem LocksKept.disciplined (h : s.LocksKept) : s.Disciplined where
  files := h.files
  isLocked_iff := h.isLocked_iff
  length_held := by rw [h.held, List.length_map]
  lock_iff path name timeout := by
    by_cases hkept : s.Guards path
    · obtain ⟨s', hs', -⟩ := h.step_lock_guarded hkept name timeout
      rw [hs']
      exact iff_of_false (fun h => nomatch h) (not_not_intro hkept)
    · obtain ⟨s', hs', -⟩ := h.step_lock hkept name timeout
      rw [hs']
      exact iff_of_true rfl hkept
  lock path name timeout hfree := by
    obtain ⟨s', hs', hguards, -⟩ := h.step_lock hfree name timeout
    rw [hs', hguards]
  lock_guarded path name timeout hkept := by
    obtain ⟨s', hs', hguards, -⟩ := h.step_lock_guarded hkept name timeout
    rw [hs']
    exact ⟨rfl, hguards⟩
  unlock name := dropGuard_guards s name
  update_guarded path text timeout hkept := by
    obtain ⟨s', hs', -, -, hfiles⟩ := h.step_update_guarded hkept text timeout
    rw [hs']
    exact ⟨rfl, hfiles⟩
  others step_ hstep := by
    obtain ⟨hguards, hheld⟩ := h.step_held hstep
    exact ⟨hguards, fun path => by rw [Locks.isLocked, hheld]; rfl⟩
  put path text := by
    refine ⟨⟨_, rfl⟩, (Documents.get?_put ..).trans ?_⟩
    rw [FilePath.sameAs_refl, if_pos rfl]
  erase path := by
    refine ⟨rfl, (Documents.get?_erase ..).trans ?_⟩
    rw [FilePath.sameAs_refl, if_pos rfl]

/-- **Locks and texts at every point of a session:** locks are kept, granted and refused as
`Disciplined` says, and the text of a file is the last that an operation wrote to it, unless the file
was closed since. -/
theorem run_disciplined (steps : List SessionStep) :
    (empty.run steps).Disciplined ∧ ∀ path, (empty.run steps).documents.get? path =
      (FileEvent.latest (empty.history steps) path).bind (·.text) := by
  obtain ⟨hkept, hfollows⟩ := locksKept_empty.run steps
  refine ⟨hkept.disciplined, fun path => ?_⟩
  rw [hfollows path]
  cases FileEvent.latest (empty.history steps) path <;> rfl

end Session

end Xref
