import Xref.Proofs.Project.Projects

/-!
# Changing documents

An edit of a file changes its document (`Documents.Changes`) or fails for a reason that the file, its
lock or its text gives (`Documents.Fails`), and then changes nothing (`editFile_cases`). An edit of
several files changes one after the other up to the first that fails (`editFiles_outcome`); what
happens to one file does not depend on the others as long as they are different files. In the end
the same files are locked as before.
-/

namespace Xref

namespace Documents

variable {d d₁ : Documents} {path : FilePath} {entry : Uri × List TextEdit} {timeout : Duration}

/-! ## Locks -/

theorem held_ask (l : Locks) (path : FilePath) : (l.ask path).held = l.held := by
  unfold Locks.ask
  split <;> rfl

theorem isLocked_ask (l : Locks) (path q : FilePath) :
    (l.ask path).isLocked q = l.isLocked q := by
  rw [Locks.isLocked, held_ask]
  rfl

theorem isLocked_eq_false_iff {l : Locks} :
    l.isLocked path = false ↔ ∀ p ∈ l.held, p.sameAs path = false := by
  simp [Locks.isLocked]

variable (timeout) in
theorem lock_eq (h : ∀ p ∈ d.locks.held, p.sameAs path = false) :
    d.lock path timeout = (.ok (), { d with
      locks := { d.locks.ask path with held := path :: d.locks.held } }) := by
  rw [lock, Locks.acquire, isLocked_ask, isLocked_eq_false_iff.2 h, held_ask]
  rfl

variable (timeout) in
theorem lock_eq_error (h : d.locks.isLocked path) :
    d.lock path timeout = (.error (.lockTimeout path timeout), { d with
      locks := d.locks.ask path }) := by
  rw [lock, Locks.acquire, isLocked_ask, h]
  rfl

/-- Giving back the lock that was asked for last leaves the other locks. -/
theorem filter_held {held : List FilePath} (h : ∀ p ∈ held, p.sameAs path = false) :
    (path :: held).filter (fun q => !q.sameAs path) = held := by
  rw [List.filter_cons, FilePath.sameAs_refl]
  refine List.filter_eq_self.2 fun p hp => ?_
  rw [h p hp]
  rfl

/-! ## One file -/

/-- What an entry of an edit does to the documents: the text at its path becomes a new one. -/
structure Changes (d : Documents) (entry : Uri × List TextEdit) (path : FilePath) (new : String) :
    Prop where
  file : entry.1.toFile? = some path
  unlocked : d.locks.isLocked path = false
  text : ∃ text, d.get? path = some text ∧ edited path text entry.2 = .ok new

/-- Why an entry of an edit cannot be carried out. -/
inductive Fails (d : Documents) (timeout : Duration) (entry : Uri × List TextEdit) :
    DocumentError → Prop
  | invalidUri : entry.1.toFile? = none → Fails d timeout entry (.invalidUri entry.1)
  | lockTimeout {path : FilePath} : entry.1.toFile? = some path → d.locks.isLocked path →
      Fails d timeout entry (.lockTimeout path timeout)
  | notFound {path : FilePath} : entry.1.toFile? = some path → d.locks.isLocked path = false →
      d.get? path = none → Fails d timeout entry (.notFound path)
  | refused {path : FilePath} {text : String} {e : DocumentError} :
      entry.1.toFile? = some path → d.locks.isLocked path = false → d.get? path = some text →
      edited path text entry.2 = .error e → Fails d timeout entry e

/-- An entry that changes its document does not fail. -/
theorem Changes.not_fails {new : String} {e : DocumentError} (h : d.Changes entry path new) :
    ¬ d.Fails timeout entry e := by
  obtain ⟨hfile, hunlocked, text, htext, hnew⟩ := h
  intro hfails
  cases hfails with
  | invalidUri hnone => rw [hfile] at hnone; cases hnone
  | lockTimeout hfile' hlocked =>
    rw [hfile] at hfile'
    cases hfile'
    rw [hunlocked] at hlocked
    cases hlocked
  | notFound hfile' _ hnone =>
    rw [hfile] at hfile'
    cases hfile'
    rw [htext] at hnone
    cases hnone
  | refused hfile' _ htext' he =>
    rw [hfile] at hfile'
    cases hfile'
    rw [htext] at htext'
    cases htext'
    rw [hnew] at he
    cases he

/-- The path of an entry and what becomes of its document are determined. -/
theorem Changes.unique {path' : FilePath} {new new' : String} (h : d.Changes entry path new)
    (h' : d.Changes entry path' new') : path = path' ∧ new = new' := by
  obtain ⟨hfile, -, text, htext, hnew⟩ := h
  obtain ⟨hfile', -, text', htext', hnew'⟩ := h'
  rw [hfile] at hfile'
  cases hfile'
  rw [htext] at htext'
  cases htext'
  rw [hnew] at hnew'
  cases hnew'
  exact ⟨rfl, rfl⟩

section
variable (hheld : d₁.locks.held = d.locks.held)
  (hget : ∀ path, entry.1.toFile? = some path → d₁.get? path = d.get? path)

include hheld hget

/-- What an entry does depends on its document and on what is locked. -/
theorem Changes.congr {new : String} (h : d₁.Changes entry path new) :
    d.Changes entry path new := by
  obtain ⟨hfile, hunlocked, text, htext, hnew⟩ := h
  rw [Locks.isLocked, hheld] at hunlocked
  exact ⟨hfile, hunlocked, text, hget path hfile ▸ htext, hnew⟩

theorem Fails.congr {e : DocumentError} (h : d₁.Fails timeout entry e) :
    d.Fails timeout entry e := by
  have hlocked : ∀ q, d₁.locks.isLocked q = d.locks.isLocked q := fun q => by
    rw [Locks.isLocked, hheld]
    rfl
  cases h with
  | invalidUri hnone => exact .invalidUri hnone
  | lockTimeout hfile h => exact .lockTimeout hfile (hlocked _ ▸ h)
  | notFound hfile h hnone => exact .notFound hfile (hlocked _ ▸ h) (hget _ hfile ▸ hnone)
  | refused hfile h htext he => exact .refused hfile (hlocked _ ▸ h) (hget _ hfile ▸ htext) he

end

variable (d timeout) in
/-- **A file is changed completely or not at all,** and its lock is given back. -/
theorem editFile_cases (uri : Uri) (edits : List TextEdit) :
    (∃ path new d', d.editFile timeout uri edits = (.ok (), d') ∧
      d.Changes (uri, edits) path new ∧ d'.locks.held = d.locks.held ∧
      ∀ q, d'.get? q = if path.sameAs q then some new else d.get? q) ∨
    ∃ e d', d.editFile timeout uri edits = (.error e, d') ∧ d.Fails timeout (uri, edits) e ∧
      d'.locks.held = d.locks.held ∧ ∀ q, d'.get? q = d.get? q := by
  rw [editFile]
  cases hfile : uri.toFile? with
  | none => exact .inr ⟨_, d, rfl, .invalidUri hfile, rfl, fun _ => rfl⟩
  | some path =>
    dsimp only
    rw [underLock]
    cases hlocked : d.locks.isLocked path with
    | true =>
      rw [lock_eq_error timeout hlocked]
      exact .inr ⟨_, _, rfl, .lockTimeout hfile hlocked, held_ask .., fun _ => rfl⟩
    | false =>
      have hfree := isLocked_eq_false_iff.1 hlocked
      rw [lock_eq timeout hfree]
      dsimp only
      -- The lock does not change what is read.
      have hread : (⟨d.files, { d.locks.ask path with held := path :: d.locks.held }⟩ :
          Documents).content path = d.content path := rfl
      rw [hread, content]
      cases htext : d.get? path with
      | none =>
        exact .inr ⟨_, _, rfl, .notFound hfile hlocked htext, filter_held hfree, fun _ => rfl⟩
      | some text =>
        simp only [Except.bind]
        cases hnew : edited path text edits with
        | error e =>
          exact .inr ⟨e, _, rfl, .refused hfile hlocked htext hnew, filter_held hfree,
            fun _ => rfl⟩
        | ok new =>
          exact .inl ⟨path, new, _, rfl, ⟨hfile, hlocked, text, htext, hnew⟩, filter_held hfree,
            fun q => get?_put _ path q new⟩

/-! ## Several files -/

/-- Whether the entries of an edit that have files have different ones. -/
def FilesDiffer (entries : List (Uri × List TextEdit)) : Prop :=
  entries.Pairwise fun a b => ∀ p ∈ a.1.toFile?, ∀ q ∈ b.1.toFile?, p.sameAs q = false

instance (entries : List (Uri × List TextEdit)) : Decidable (FilesDiffer entries) :=
  inferInstanceAs (Decidable (entries.Pairwise _))

theorem FilesDiffer.perm {as bs : List (Uri × List TextEdit)} (h : FilesDiffer as)
    (hperm : as.Perm bs) : FilesDiffer bs := by
  refine (hperm.pairwise_iff fun {a b} hab p hp q hq => ?_).1 h
  rw [Bool.eq_false_iff]
  intro hsame
  have := hab q hq p hp
  rw [FilePath.sameAs_iff.2 (FilePath.sameAs_iff.1 hsame).symm] at this
  cases this

/-- How far an edit gets: the entries in `before` change their documents, no other document changes,
and the first entry of `rest` is the first that fails. -/
structure Outcome (d : Documents) (timeout : Duration) (before rest : List (Uri × List TextEdit))
    (result : Except DocumentError Unit × Documents) : Prop where
  changed : ∀ entry ∈ before, ∃ path new, d.Changes entry path new ∧
    ∀ q, path.sameAs q → result.2.get? q = some new
  kept : ∀ q, (∀ entry ∈ before, ∀ path ∈ entry.1.toFile?, path.sameAs q = false) →
    result.2.get? q = d.get? q
  held : result.2.locks.held = d.locks.held
  answer : rest = [] ∧ result.1 = .ok () ∨
    ∃ entry after e, rest = entry :: after ∧ d.Fails timeout entry e ∧ result.1 = .error e

variable (timeout) in
theorem editFiles_outcome {entries : List (Uri × List TextEdit)} (hdiffer : FilesDiffer entries) :
    ∃ before rest, entries = before ++ rest ∧
      d.Outcome timeout before rest (d.editFiles timeout entries) := by
  induction entries generalizing d with
  | nil =>
    exact ⟨[], [], rfl, ⟨(fun _ h => nomatch h), fun _ _ => rfl, rfl, .inl ⟨rfl, rfl⟩⟩⟩
  | cons entry rest ih =>
    obtain ⟨uri, edits⟩ := entry
    obtain ⟨hfirst, hrest⟩ := List.pairwise_cons.1 hdiffer
    rw [editFiles]
    rcases d.editFile_cases timeout uri edits with
      ⟨path, new, d₁, hok, hchanges, hheld, hget⟩ | ⟨e, d₁, herror, hfails, hheld, hget⟩
    · rw [hok]
      dsimp only
      obtain ⟨before, rest', rfl, hout⟩ := ih (d := d₁) hrest
      -- The documents of the other entries are as they were.
      have hsame : ∀ entry ∈ before ++ rest', ∀ q, entry.1.toFile? = some q →
          d₁.get? q = d.get? q := by
        intro entry hmem q hq
        rw [hget, hfirst entry hmem path hchanges.file q hq, if_neg Bool.false_ne_true]
      refine ⟨(uri, edits) :: before, rest', rfl, ⟨?_, ?_, hout.held.trans hheld, ?_⟩⟩
      · intro entry hmem
        rcases List.mem_cons.1 hmem with rfl | hmem
        · refine ⟨path, new, hchanges, fun q hq => ?_⟩
          rw [hout.kept q, hget, if_pos hq]
          intro entry hmem p hp
          rw [Bool.eq_false_iff]
          intro hpq
          have := hfirst entry (List.mem_append_left _ hmem) path hchanges.file p hp
          rw [FilePath.sameAs_iff] at hq hpq
          rw [FilePath.sameAs_iff.2 (hq.trans hpq.symm)] at this
          cases this
        · obtain ⟨p, text, hchanges', htext⟩ := hout.changed entry hmem
          exact ⟨p, text, hchanges'.congr hheld (hsame entry (List.mem_append_left _ hmem)), htext⟩
      · intro q hq
        rw [List.forall_mem_cons] at hq
        rw [hout.kept q hq.2, hget, hq.1 path hchanges.file, if_neg Bool.false_ne_true]
      · refine hout.answer.imp_right ?_
        rintro ⟨entry, after, e, rfl, hfails, herror⟩
        exact ⟨entry, after, e, rfl, hfails.congr hheld (hsame entry (by simp)), herror⟩
    · rw [herror]
      exact ⟨[], _, rfl, ⟨(fun _ h => nomatch h), fun q _ => hget q, hheld,
        .inr ⟨_, _, e, rfl, hfails, rfl⟩⟩⟩

/-- The entries of an edit in the order of their URIs. -/
def inOrder (entries : List (Uri × List TextEdit)) : List (Uri × List TextEdit) :=
  entries.mergeSort fun a b => (a.1.compare b.1).isLE

theorem inOrder_perm (entries : List (Uri × List TextEdit)) : (inOrder entries).Perm entries :=
  List.mergeSort_perm ..

theorem edit_some (d : Documents) (entries : List (Uri × List TextEdit)) (timeout : Duration) :
    d.edit ⟨some entries⟩ timeout =
      (((d.editFiles timeout (inOrder entries)).1.map fun _ => entries.length),
        (d.editFiles timeout (inOrder entries)).2) := rfl

/-- **An edit changes its files and no other document.** -/
theorem edit_eq {α : Type} {entry : α → Uri × List TextEdit} {pathOf : α → FilePath}
    {new : α → String} {vs : List α} (timeout : Duration)
    (hvs : ∀ v ∈ vs, d.Changes (entry v) (pathOf v) (new v))
    (hne : vs.Pairwise fun v w => (pathOf v).sameAs (pathOf w) = false) :
    ∃ d', d.edit ⟨some (vs.map entry)⟩ timeout = (.ok vs.length, d') ∧
      d'.locks.held = d.locks.held ∧
      (∀ v ∈ vs, ∀ q, (pathOf v).sameAs q → d'.get? q = some (new v)) ∧
      ∀ q, (∀ v ∈ vs, (pathOf v).sameAs q = false) → d'.get? q = d.get? q := by
  have hdiffer : FilesDiffer (vs.map entry) := by
    refine List.pairwise_map.2 (hne.imp_of_mem fun {v w} hv hw h p hp q hq => ?_)
    rw [(hvs v hv).file] at hp
    rw [(hvs w hw).file] at hq
    cases hp
    cases hq
    exact h
  have hperm := inOrder_perm (vs.map entry)
  obtain ⟨before, rest, happ, hout⟩ :=
    editFiles_outcome (d := d) timeout (hdiffer.perm hperm.symm)
  have hmem : ∀ {a}, a ∈ before ++ rest ↔ ∃ v ∈ vs, entry v = a := by
    intro a
    rw [← happ, hperm.mem_iff, List.mem_map]
  -- No entry fails, so all of them are carried out.
  obtain ⟨rfl, hok⟩ : rest = [] ∧ (d.editFiles timeout (inOrder (vs.map entry))).1 = .ok () := by
    refine hout.answer.resolve_right ?_
    rintro ⟨a, after, e, rfl, hfails, -⟩
    obtain ⟨v, hv, rfl⟩ := hmem.1 (List.mem_append_right before List.mem_cons_self)
    exact (hvs v hv).not_fails hfails
  rw [List.append_nil] at hmem
  refine ⟨_, ?_, hout.held, ?_, ?_⟩
  · rw [edit_some, hok, List.length_map]
    rfl
  · intro v hv q hq
    obtain ⟨path, text, hchanges, htext⟩ := hout.changed (entry v) (hmem.2 ⟨v, hv, rfl⟩)
    obtain ⟨rfl, rfl⟩ := (hvs v hv).unique hchanges
    exact htext q hq
  · intro q hq
    refine hout.kept q fun a ha path hpath => ?_
    obtain ⟨v, hv, rfl⟩ := hmem.1 ha
    rw [(hvs v hv).file] at hpath
    cases hpath
    exact hq v hv

end Documents

end Xref
