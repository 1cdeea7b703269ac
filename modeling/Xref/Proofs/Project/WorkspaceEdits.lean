import Xref.Proofs.Project.Edits
import Xref.Proofs.Text.Replacements

/-!
# What a workspace edit does to the texts

The ends of a range that a line index finds are boundaries of its text (`offset?_isBoundary`), so
splicing splits no character. The edit of a text puts all new texts in the place of their ranges at
once, or fails because a range is not in the text or because two ranges overlap (`edited_cases`). A
workspace edit carries out its entries in the order of their URIs until one fails (`edit_atomic`).
Only in a text that is too long for the offsets of its bytes can cutting out a line split a character
(`edit_single_of_wide`).
-/

namespace Xref

open Text

namespace Documents

/-! ## The edit of a text -/

/-- Whether a range of a text means a span. -/
structure Means (text : String) (range : Range) (span : Span) : Prop where
  start : (LineIndex.ofText text).offset? range.start = some span.start
  stop : (LineIndex.ofText text).offset? range.stop = some span.stop
  forward : span.start ≤ span.stop

/-- A text cannot be cut at the line of one of the ends of a range. -/
def IsUncut (text : String) (range : Range) : Prop :=
  (LineIndex.ofText text).offset range.start = .error .notCut ∨
    (LineIndex.ofText text).offset range.stop = .error .notCut

/-- A range is not in a text: one of its lines does not exist, or the offset of its start is after
that of its end. -/
def IsOutside (text : String) (range : Range) : Prop :=
  ¬ IsUncut text range ∧ ((LineIndex.ofText text).lineCount ≤ range.start.line ∨
    (LineIndex.ofText text).lineCount ≤ range.stop.line ∨
    ∃ start stop, (LineIndex.ofText text).offset? range.start = some start ∧
      (LineIndex.ofText text).offset? range.stop = some stop ∧ stop < start)

/-- Why a range of a text means no span. -/
inductive Rejects (path : FilePath) (text : String) (range : Range) : DocumentError → Prop
  | outside : IsOutside text range → Rejects path text range (.invalidRange path range)
  | uncut : IsUncut text range → Rejects path text range (.splitsCharacter path)

/-- Several replacements mean edits of the spans of their ranges. -/
def MeansAll (text : String) (edits : List TextEdit) (es : List Edit) : Prop :=
  List.Forall₂ (fun edit e => Means text edit.range e.span ∧ e.newText = edit.newText) edits es

/-- A text after replacements in it: no two ranges overlap, and all of them are replaced at once. -/
def Rewrites (text : String) (edits : List TextEdit) (new : String) : Prop :=
  ∃ es, MeansAll text edits es ∧ es.Pairwise Edit.Apart ∧
    Replaces 0 (ChangeSet.mk es).placed text.toList new.toList

/-- Why replacements in a text cannot be carried out: one is the first whose range means no span, or
all mean spans and two of these overlap. -/
inductive Refuses (path : FilePath) (text : String) (edits : List TextEdit) : DocumentError → Prop
  | range {before after : List TextEdit} {edit : TextEdit} {e : DocumentError} :
      edits = before ++ edit :: after → (∀ other ∈ before, ∃ span, Means text other.range span) →
      Rejects path text edit.range e → Refuses path text edits e
  | conflict {es : List Edit} {c : EditConflict} : MeansAll text edits es →
      (ChangeSet.mk es).Conflict c → Refuses path text edits (.conflict path c)

section
variable {path : FilePath} {text : String} {range : Range}

theorem Means.not_rejects {span : Span} {e : DocumentError} (h : Means text range span) :
    ¬ Rejects path text range e := by
  have hstart := LineIndex.offset?_eq_some_iff.1 h.start
  have hstop := LineIndex.offset?_eq_some_iff.1 h.stop
  intro hrejects
  cases hrejects with
  | uncut huncut =>
    rcases huncut with huncut | huncut
    · cases huncut.symm.trans hstart
    · cases huncut.symm.trans hstop
  | outside houtside =>
    rcases houtside.2 with hline | hline | ⟨start, stop, hstart', hstop', hlt⟩
    · cases (LineIndex.offset_eq_noLine_iff.2 hline).symm.trans hstart
    · cases (LineIndex.offset_eq_noLine_iff.2 hline).symm.trans hstop
    · cases hstart'.symm.trans h.start
      cases hstop'.symm.trans h.stop
      exact Nat.not_le.2 hlt h.forward

variable (path text range) in
theorem spanOf?_cases :
    (∃ span, spanOf? (LineIndex.ofText text) range = some span ∧ Means text range span) ∨
    spanOf? (LineIndex.ofText text) range = none ∧
      Rejects path text range (spanError path (LineIndex.ofText text) range) := by
  by_cases huncut : IsUncut text range
  · have herror : spanError path (LineIndex.ofText text) range = .splitsCharacter path := by
      rw [spanError]
      rcases huncut with h | h
      · rw [h]
      · rw [h]
        rcases (LineIndex.ofText text).offset range.start with (_ | _) | _ <;> rfl
    refine .inr ⟨?_, herror ▸ .uncut huncut⟩
    rw [spanOf?, LineIndex.offset?, LineIndex.offset?]
    rcases huncut with h | h
    · rw [h]
      rfl
    · rw [h]
      cases (LineIndex.ofText text).offset range.start <;> rfl
  · have hcut : ∀ {p}, p = range.start ∨ p = range.stop →
        (LineIndex.ofText text).offset p = .error .noLine ∨
          ∃ offset, (LineIndex.ofText text).offset p = .ok offset := by
      intro p hp
      rcases hoffset : (LineIndex.ofText text).offset p with (_ | _) | offset
      · exact .inl rfl
      · exact absurd (hp.imp (fun h => h ▸ hoffset) (fun h => h ▸ hoffset)) huncut
      · exact .inr ⟨offset, rfl⟩
    rw [spanOf?, spanError, LineIndex.offset?, LineIndex.offset?]
    rcases hcut (.inl rfl) with hstart | ⟨start, hstart⟩
    · have hline := LineIndex.offset_eq_noLine_iff.1 hstart
      rcases hcut (.inr rfl) with hstop | ⟨stop, hstop⟩ <;> rw [hstart, hstop] <;>
        exact .inr ⟨rfl, .outside ⟨huncut, .inl hline⟩⟩
    · rcases hcut (.inr rfl) with hstop | ⟨stop, hstop⟩
      · rw [hstart, hstop]
        exact .inr ⟨rfl, .outside ⟨huncut, .inr (.inl (LineIndex.offset_eq_noLine_iff.1 hstop))⟩⟩
      · have hstart' := LineIndex.offset?_eq_some_iff.2 hstart
        have hstop' := LineIndex.offset?_eq_some_iff.2 hstop
        rw [hstart, hstop]
        by_cases hle : start ≤ stop
        · exact .inl ⟨⟨start, stop⟩, if_pos hle, hstart', hstop', hle⟩
        · exact .inr ⟨if_neg hle,
            .outside ⟨huncut, .inr (.inr ⟨start, stop, hstart', hstop', Nat.not_le.1 hle⟩)⟩⟩

variable (path text) in
/-- The edit that a replacement in a text means, or why it means none. -/
def readEdit (edit : TextEdit) : Except DocumentError Edit :=
  match spanOf? (LineIndex.ofText text) edit.range with
  | some span => .ok ⟨span, edit.newText⟩
  | none => .error (spanError path (LineIndex.ofText text) edit.range)

theorem editsIn_eq (edits : List TextEdit) :
    editsIn path text edits = (edits.mapM (readEdit path text)).map ChangeSet.mk := rfl

variable (path text) in
theorem readEdit_cases (edit : TextEdit) :
    (∃ e, readEdit path text edit = .ok e ∧ Means text edit.range e.span ∧
      e.newText = edit.newText) ∨
    ∃ e, readEdit path text edit = .error e ∧ Rejects path text edit.range e := by
  rw [readEdit]
  rcases spanOf?_cases path text edit.range with ⟨span, hspan, hmeans⟩ | ⟨hspan, hrejects⟩
  · exact .inl ⟨⟨span, edit.newText⟩, by rw [hspan], hmeans, rfl⟩
  · exact .inr ⟨_, by rw [hspan], hrejects⟩

theorem means_of_readEdit {edit : TextEdit} {e : Edit} (h : readEdit path text edit = .ok e) :
    Means text edit.range e.span ∧ e.newText = edit.newText := by
  rcases readEdit_cases path text edit with ⟨e', he', hmeans⟩ | ⟨e', he', -⟩
  · cases he'.symm.trans h
    exact hmeans
  · cases he'.symm.trans h

variable (path text) in
/-- The replacements all mean edits, or one is the first whose range means no span. -/
theorem editsIn_cases (edits : List TextEdit) :
    (∃ es, editsIn path text edits = .ok ⟨es⟩ ∧ MeansAll text edits es) ∨
    ∃ e, editsIn path text edits = .error e ∧ Refuses path text edits e := by
  rw [editsIn_eq]
  rcases mapM_cases (readEdit path text) edits with
    ⟨es, hes, hall⟩ | ⟨before, x, after, e, happ, hbefore, hx, he⟩
  · exact .inl ⟨es, by rw [hes]; rfl, hall.imp fun _ _ => means_of_readEdit⟩
  · refine .inr ⟨e, by rw [he]; rfl, .range happ (fun other hother => ?_) ?_⟩
    · obtain ⟨e', he'⟩ := hbefore other hother
      exact ⟨_, (means_of_readEdit he').1⟩
    · rcases readEdit_cases path text x with ⟨e', he', -⟩ | ⟨e', he', hrejects⟩
      · cases he'.symm.trans hx
      · cases he'.symm.trans hx
        exact hrejects

theorem Means.unique {s t : Span} (hs : Means text range s) (ht : Means text range t) : s = t := by
  obtain ⟨start, stop⟩ := s
  obtain ⟨start', stop'⟩ := t
  cases hs.start.symm.trans ht.start
  cases hs.stop.symm.trans ht.stop
  rfl

/-- Replacements mean at most one list of edits. -/
theorem MeansAll.unique {edits : List TextEdit} {es fs : List Edit} (hes : MeansAll text edits es)
    (hfs : MeansAll text edits fs) : es = fs := by
  induction hes generalizing fs with
  | nil => cases hfs; rfl
  | @cons edit e edits es he _ ih =>
    cases hfs with
    | @cons _ f _ fs hf hfs =>
      rw [ih hfs]
      obtain ⟨span, new⟩ := e
      obtain ⟨span', new'⟩ := f
      cases he.1.unique hf.1
      cases he.2.trans hf.2.symm
      rfl

theorem MeansAll.exists_span {edits : List TextEdit} {es : List Edit} (h : MeansAll text edits es) :
    ∀ edit ∈ edits, ∃ span, Means text edit.range span := by
  induction h with
  | nil => exact fun _ h => nomatch h
  | cons hfirst _ ih => exact List.forall_mem_cons.2 ⟨⟨_, hfirst.1⟩, ih⟩

/-- Replacements that can be carried out are not refused. -/
theorem Rewrites.not_refuses {edits : List TextEdit} {new : String} {e : DocumentError}
    (h : Rewrites text edits new) : ¬ Refuses path text edits e := by
  obtain ⟨es, hes, hapart, -⟩ := h
  intro hrefuses
  cases hrefuses with
  | @range before after edit _ happ _ hrejects =>
    obtain ⟨span, hmeans⟩ := hes.exists_span edit (by simp [happ])
    exact hmeans.not_rejects hrejects
  | conflict hes' hconflict =>
    cases hes.unique hes'
    exact hconflict.not_apart hapart

/-- No character is split in a text whose bytes offsets can count. -/
theorem Refuses.ne_splitsCharacter {edits : List TextEdit} {e : DocumentError}
    (hsize : text.utf8ByteSize ≤ Span.maxOffset) (h : Refuses path text edits e) (q : FilePath) :
    e ≠ .splitsCharacter q := by
  rintro rfl
  cases h with
  | range _ _ hrejects =>
    cases hrejects with
    | uncut huncut =>
      rcases huncut with huncut | huncut <;> exact LineIndex.offset_ne_notCut hsize _ huncut

theorem MeansAll.forall {edits : List TextEdit} {es : List Edit} (h : MeansAll text edits es) :
    ∀ e ∈ es, ∃ range, Means text range e.span := by
  induction h with
  | nil => exact fun _ h => nomatch h
  | cons hfirst _ ih => exact List.forall_mem_cons.2 ⟨⟨_, hfirst.1⟩, ih⟩

theorem MeansAll.isForward {edits : List TextEdit} {es : List Edit} (h : MeansAll text edits es) :
    ∀ e ∈ es, e.IsForward := fun e he =>
  let ⟨_, h⟩ := h.forall e he
  h.forward

theorem MeansAll.isBoundary {edits : List TextEdit} {es : List Edit} (h : MeansAll text edits es) :
    ∀ e ∈ es, IsBoundary text.toList e.span.start ∧ IsBoundary text.toList e.span.stop :=
  fun e he =>
    let ⟨_, h⟩ := h.forall e he
    ⟨LineIndex.offset?_isBoundary h.start, LineIndex.offset?_isBoundary h.stop⟩

variable (path text) in
/-- **A text is changed at once or not at all.** -/
theorem edited_cases (edits : List TextEdit) :
    (∃ new, edited path text edits = .ok new ∧ Rewrites text edits new) ∨
    ∃ e, edited path text edits = .error e ∧ Refuses path text edits e := by
  rw [edited]
  rcases editsIn_cases path text edits with ⟨es, hes, hall⟩ | ⟨e, he, hrefuses⟩
  · rw [hes]
    dsimp only
    rw [ChangeSet.performChecked?]
    cases hconflict : (ChangeSet.mk es).conflict? with
    | some c =>
      exact .inr ⟨_, rfl, .conflict hall (ChangeSet.conflict_of_conflict? hall.isForward hconflict)⟩
    | none =>
      have hapart := (ChangeSet.conflict?_eq_none_iff (s := ⟨es⟩) hall.isForward).1 hconflict
      obtain ⟨new, hnew, hreplaces⟩ :=
        ChangeSet.perform?_eq (s := ⟨es⟩) hall.isForward hapart hall.isBoundary
      dsimp only
      rw [hnew]
      exact .inl ⟨new, rfl, es, hall, hapart, hreplaces⟩
  · rw [he]
    exact .inr ⟨e, rfl, hrefuses⟩

end

/-! ## Workspace edits -/

section
variable {d : Documents} {timeout : Duration} {entry : Uri × List TextEdit}

/-- The document of an entry can be changed, and `new` is its text after all replacements. -/
structure Succeeds (d : Documents) (entry : Uri × List TextEdit) (path : FilePath)
    (new : String) : Prop where
  file : entry.1.toFile? = some path
  unlocked : d.locks.isLocked path = false
  text : ∃ old, d.get? path = some old ∧ Rewrites old entry.2 new

/-- Why an entry cannot be carried out, in the order in which this is found out. -/
inductive Stops (d : Documents) (timeout : Duration) (entry : Uri × List TextEdit) :
    DocumentError → Prop
  | invalidUri : entry.1.toFile? = none → Stops d timeout entry (.invalidUri entry.1)
  | lockTimeout {path : FilePath} : entry.1.toFile? = some path → d.locks.isLocked path →
      Stops d timeout entry (.lockTimeout path timeout)
  | notFound {path : FilePath} : entry.1.toFile? = some path → d.locks.isLocked path = false →
      d.get? path = none → Stops d timeout entry (.notFound path)
  | refused {path : FilePath} {text : String} {e : DocumentError} :
      entry.1.toFile? = some path → d.locks.isLocked path = false → d.get? path = some text →
      Refuses path text entry.2 e → Stops d timeout entry e

theorem Changes.succeeds {path : FilePath} {new : String} (h : d.Changes entry path new) :
    d.Succeeds entry path new := by
  obtain ⟨hfile, hunlocked, text, htext, hnew⟩ := h
  refine ⟨hfile, hunlocked, text, htext, ?_⟩
  rcases edited_cases path text entry.2 with ⟨new', hnew', h⟩ | ⟨e, he, -⟩
  · cases hnew'.symm.trans hnew
    exact h
  · cases he.symm.trans hnew

theorem Fails.stops {e : DocumentError} (h : d.Fails timeout entry e) :
    d.Stops timeout entry e := by
  cases h with
  | invalidUri hnone => exact .invalidUri hnone
  | lockTimeout hfile hlocked => exact .lockTimeout hfile hlocked
  | notFound hfile hunlocked hnone => exact .notFound hfile hunlocked hnone
  | @refused path text _ hfile hunlocked htext he =>
    refine .refused hfile hunlocked htext ?_
    rcases edited_cases path text entry.2 with ⟨new, hnew, -⟩ | ⟨e', he', h⟩
    · cases hnew.symm.trans he
    · cases he'.symm.trans he
      exact h

/-- An entry that can be carried out does not end an edit. -/
theorem Succeeds.not_stops {path : FilePath} {new : String} {e : DocumentError}
    (h : d.Succeeds entry path new) : ¬ d.Stops timeout entry e := by
  obtain ⟨hfile, hunlocked, old, hold, hnew⟩ := h
  intro hstops
  cases hstops with
  | invalidUri hnone => cases hnone.symm.trans hfile
  | lockTimeout hfile' hlocked =>
    cases hfile.symm.trans hfile'
    cases hlocked.symm.trans hunlocked
  | notFound hfile' _ hnone =>
    cases hfile.symm.trans hfile'
    cases hnone.symm.trans hold
  | refused hfile' _ hold' hrefuses =>
    cases hfile.symm.trans hfile'
    cases hold.symm.trans hold'
    exact hnew.not_refuses hrefuses

/-- No character is split where offsets can count the bytes of the text. -/
theorem Stops.ne_splitsCharacter {e : DocumentError} (h : d.Stops timeout entry e)
    (hsized : ∀ path ∈ entry.1.toFile?, ∀ text ∈ d.get? path,
      text.utf8ByteSize ≤ Span.maxOffset) (q : FilePath) : e ≠ .splitsCharacter q := by
  cases h with
  | invalidUri => exact nofun
  | lockTimeout => exact nofun
  | notFound => exact nofun
  | refused hfile _ htext hrefuses =>
    exact hrefuses.ne_splitsCharacter (hsized _ hfile _ htext) q

/-- The entries of a workspace edit. -/
def entriesOf (changes : WorkspaceEdit) : List (Uri × List TextEdit) := changes.changes.getD []

theorem edit_eq_editFiles (d : Documents) (changes : WorkspaceEdit) (timeout : Duration) :
    d.edit changes timeout =
      ((d.editFiles timeout (inOrder (entriesOf changes))).1.map fun _ =>
        (entriesOf changes).length, (d.editFiles timeout (inOrder (entriesOf changes))).2) := by
  obtain ⟨entries⟩ := changes
  cases entries with
  | none =>
    have hnil : inOrder (entriesOf ⟨none⟩) = [] := List.mergeSort_nil
    rw [hnil]
    rfl
  | some entries => rfl

/-- What a workspace edit leaves behind that carries out the entries `before` and then no more: the
entries in `before` change their documents, and no other document changes. If there are more entries,
the first of them fails, and its reason is the answer. -/
structure Ends (d : Documents) (timeout : Duration) (changes : WorkspaceEdit)
    (before rest : List (Uri × List TextEdit)) (result : Except DocumentError Nat × Documents) :
    Prop where
  order : inOrder (entriesOf changes) = before ++ rest
  changed : ∀ entry ∈ before, ∃ path new, d.Succeeds entry path new ∧
    ∀ q, path.sameAs q → result.2.get? q = some new
  kept : ∀ q, (∀ entry ∈ before, ∀ path ∈ entry.1.toFile?, path.sameAs q = false) →
    result.2.get? q = d.get? q
  held : result.2.locks.held = d.locks.held
  answer : rest = [] ∧ result.1 = .ok (entriesOf changes).length ∨
    ∃ entry after e, rest = entry :: after ∧ d.Stops timeout entry e ∧ result.1 = .error e ∧
      ∀ path ∈ entry.1.toFile?, ∀ q, path.sameAs q → result.2.get? q = d.get? q

/-- Whether offsets can count the bytes of all documents that an edit lists. -/
def ListsSized (d : Documents) (changes : WorkspaceEdit) : Prop :=
  ∀ entry ∈ entriesOf changes, ∀ path ∈ entry.1.toFile?, ∀ text ∈ d.get? path,
    text.utf8ByteSize ≤ Span.maxOffset

instance (d : Documents) (changes : WorkspaceEdit) : Decidable (d.ListsSized changes) := by
  unfold ListsSized
  infer_instance

/-- **A workspace edit changes every file completely or not at all, one after the other.** The first
entry that fails ends it, with an error that says why. The files that were locked are locked, and no
others. If offsets can count the bytes of the documents, no character is split. -/
theorem edit_atomic (d : Documents) (timeout : Duration) {changes : WorkspaceEdit}
    (hdiffer : FilesDiffer (entriesOf changes)) (hsized : d.ListsSized changes) :
    (∃ before rest, d.Ends timeout changes before rest (d.edit changes timeout)) ∧
      ∀ path, (d.edit changes timeout).1 ≠ .error (.splitsCharacter path) := by
  have hsorted := hdiffer.perm (inOrder_perm _).symm
  obtain ⟨before, rest, happ, hout⟩ := editFiles_outcome (d := d) timeout hsorted
  rw [edit_eq_editFiles]
  have hanswer : rest = [] ∧ (d.editFiles timeout (inOrder (entriesOf changes))).1 = .ok () ∨
      ∃ entry after e, rest = entry :: after ∧ d.Stops timeout entry e ∧
        (d.editFiles timeout (inOrder (entriesOf changes))).1 = .error e :=
    hout.answer.imp_right fun ⟨entry, after, e, hrest, hfails, he⟩ =>
      ⟨entry, after, e, hrest, hfails.stops, he⟩
  refine ⟨⟨before, rest, happ, ?_, hout.kept, hout.held, ?_⟩, fun path => ?_⟩
  · intro entry hmem
    obtain ⟨path, new, hchanges, hnew⟩ := hout.changed entry hmem
    exact ⟨path, new, hchanges.succeeds, hnew⟩
  · rcases hanswer with ⟨hrest, hok⟩ | ⟨entry, after, e, hrest, hstops, he⟩
    · exact .inl ⟨hrest, by rw [hok]; rfl⟩
    · refine .inr ⟨entry, after, e, hrest, hstops, by rw [he]; rfl, fun path hpath q hq => ?_⟩
      -- The file of the entry is none of those before it.
      refine hout.kept q fun other hother p hp => ?_
      rw [happ, hrest] at hsorted
      have hne := (List.pairwise_append.1 hsorted).2.2 other hother entry List.mem_cons_self
        p hp path hpath
      rw [FilePath.sameAs_iff] at hq
      rw [Bool.eq_false_iff] at hne ⊢
      exact fun hpq => hne (FilePath.sameAs_iff.2 ((FilePath.sameAs_iff.1 hpq).trans hq.symm))
  · rcases hanswer with ⟨-, hok⟩ | ⟨entry, after, e, hrest, hstops, he⟩
    · rw [hok]
      exact nofun
    · have hmem : entry ∈ entriesOf changes := by
        rw [← (inOrder_perm _).mem_iff, happ, hrest]
        exact List.mem_append_right _ List.mem_cons_self
      rw [he]
      exact fun h => hstops.ne_splitsCharacter (hsized entry hmem) path (Except.error.inj h)

/-- Two documents, the second of which is locked. -/
def lockedDocuments : Documents :=
  ⟨[(.ofText "/a", "let é = 1;"), (.ofText "/b", "x")], ⟨[], [.ofText "/b"]⟩⟩

/-- An edit of both documents: two replacements that touch and an insertion. -/
def touchingEdits : WorkspaceEdit :=
  ⟨some [(⟨"file:///b"⟩, [⟨⟨⟨0, 0⟩, ⟨0, 0⟩⟩, "y"⟩]),
    (⟨"file:///a"⟩, [⟨⟨⟨0, 5⟩, ⟨0, 9⟩⟩, ""⟩, ⟨⟨⟨0, 4⟩, ⟨0, 5⟩⟩, "e"⟩])]⟩

theorem edit_atomic_touchingEdits :
    FilesDiffer (entriesOf touchingEdits) ∧ lockedDocuments.ListsSized touchingEdits ∧
    ((∃ before rest, lockedDocuments.Ends ⟨5⟩ touchingEdits before rest
        (lockedDocuments.edit touchingEdits ⟨5⟩)) ∧
      ∀ path, (lockedDocuments.edit touchingEdits ⟨5⟩).1 ≠ .error (.splitsCharacter path)) :=
  ⟨by decide +kernel, by decide +kernel,
    edit_atomic _ _ (by decide +kernel) (by decide +kernel)⟩

/-- One document, with no file locked. -/
def single (text : String) : Documents := ⟨[(.ofText "/a", text)], ⟨[], []⟩⟩

/-- The replacement of one range in this document. -/
def singleEdit (range : Range) : WorkspaceEdit := ⟨some [(⟨"file:///a"⟩, [⟨range, "x"⟩])]⟩

theorem edit_single {text : String} {range : Range} {e : DocumentError}
    (h : edited (.ofText "/a") text [⟨range, "x"⟩] = .error e) :
    ((single text).edit (singleEdit range) ⟨5⟩).1 = .error e := by
  have hfile : (Uri.mk "file:///a").toFile? = some (.ofText "/a") := by decide +kernel
  have hsorted : inOrder [((⟨"file:///a"⟩ : Uri), [(⟨range, "x"⟩ : TextEdit)])] = _ :=
    List.mergeSort_singleton _
  have hlock : (single text).lock (.ofText "/a") ⟨5⟩ =
      (.ok (), ⟨(single text).files, ⟨[.ofText "/a"], [.ofText "/a"]⟩⟩) := rfl
  have hread : (⟨(single text).files, ⟨[.ofText "/a"], [.ofText "/a"]⟩⟩ : Documents).content
      (.ofText "/a") = .ok text := rfl
  rw [singleEdit, edit_some, hsorted, editFiles, editFile, hfile]
  simp only [underLock, hlock, hread, Except.bind, h]
  rfl

/-- Where offsets cannot count the bytes of a text, an edit of its first line can split a
character. -/
theorem edit_single_of_wide {text : String} (hwide : ∀ c ∈ text.toList, c.utf8Size = 2)
    (hsize : Span.maxOffset < text.utf8ByteSize) :
    ((single text).edit (singleEdit ⟨⟨0, 0⟩, ⟨0, 0⟩⟩) ⟨5⟩).1 =
      .error (.splitsCharacter (.ofText "/a")) := by
  have hcut := LineIndex.offset_start_of_wide hwide hsize
  have hspan : spanOf? (LineIndex.ofText text) ⟨⟨0, 0⟩, ⟨0, 0⟩⟩ = none := by
    rw [spanOf?, LineIndex.offset?, hcut]
    rfl
  have herror : spanError (.ofText "/a") (LineIndex.ofText text) ⟨⟨0, 0⟩, ⟨0, 0⟩⟩ =
      .splitsCharacter (.ofText "/a") := by rw [spanError, hcut]
  refine edit_single ?_
  rw [edited, editsIn]
  simp only [List.mapM_cons, hspan, herror]
  rfl

/-- A text of `n` characters that take two bytes each. -/
def wideText (n : Nat) : String := String.ofList (List.replicate n 'é')

theorem wide_wideText (n : Nat) : ∀ c ∈ (wideText n).toList, c.utf8Size = 2 := by
  intro c hc
  rw [wideText, String.toList_ofList] at hc
  rw [List.eq_of_mem_replicate hc]
  rfl

theorem utf8ByteSize_wideText (n : Nat) : (wideText n).utf8ByteSize = n * 2 := by
  rw [Text.utf8ByteSize_eq, byteLength_eq_mul (wide_wideText n), wideText, String.toList_ofList,
    List.length_replicate]

/-- An edit splits a character of a document of four gibibytes. In a document of one line, a range
that starts at the end of the line and ends inside its only character is empty and not outside. -/
theorem not_atomic_singleEdit :
    ((single (wideText 2147483648)).edit (singleEdit ⟨⟨0, 0⟩, ⟨0, 0⟩⟩) ⟨5⟩).1 =
      .error (.splitsCharacter (.ofText "/a")) ∧
    unitLength "𝕏".toList = 2 ∧
    ((single "𝕏").edit (singleEdit ⟨⟨0, 2⟩, ⟨0, 1⟩⟩) ⟨5⟩).1 = .ok 1 ∧
    ((single "𝕏").edit (singleEdit ⟨⟨0, 2⟩, ⟨0, 1⟩⟩) ⟨5⟩).2.get? (.ofText "/a") = some "𝕏x" := by
  refine ⟨edit_single_of_wide (wide_wideText _) ?_, by decide, by decide +kernel, by decide +kernel⟩
  rw [utf8ByteSize_wideText]
  decide

end

end Documents

end Xref
