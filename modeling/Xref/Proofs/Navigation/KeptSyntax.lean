import Xref.Proofs.Navigation.RenamedTokens

/-!
# What a rename leaves of the syntax

A rename to an identifier leaves every document with the syntax that it had: the same nodes, slots
and kinds of tokens (`rename_keepsSyntax`), if offsets can count the bytes of the document before and
after. A keyword is accepted as a new name as well, and a record without a name may have the identity
of the symbol; then the syntax changes (`rename_breaksSyntax`).
-/

namespace Xref

open Binding
open Workspace (usualLayout)

/-- Whether a token of the text at a path is at one of the places of an edit. -/
def WorkspaceEdit.isAt (e : WorkspaceEdit) (path : FilePath) (source : String) (t : Token) : Bool :=
  e.locations.any fun l => l.isAt path source t

namespace Documents

variable {d d₁ : Documents} {e : WorkspaceEdit} {newName before : String} {path : FilePath}
  {entry : Uri × List TextEdit}

/-- Whether an edit leaves every document with the syntax that it had: the tokens at its places have
become the new name, or, if it fails, perhaps none in this document. -/
def KeepsSyntax (d : Documents) (e : WorkspaceEdit) (newName : String) (timeout : Duration) : Prop :=
  ∀ path before, d.get? path = some before →
    ∃ after p, (d.edit e timeout).2.get? path = some after ∧ SameSyntax p newName before after ∧
      (p = e.isAt path before ∨ p = (fun _ => false) ∧ ∃ error, (d.edit e timeout).1 = .error error)

/-- The places of an edit in a document are those of its entry. -/
theorem isAt_eq_isEdited (hentries : EntriesRename newName (entriesOf e))
    (hentry : entry ∈ entriesOf e) {p : FilePath} (hfile : entry.1.toFile? = some p)
    (hsame : p.sameAs path) : e.isAt path before = isEdited before entry.2 := by
  funext t
  rw [Bool.eq_iff_iff, WorkspaceEdit.isAt, isEdited, List.any_eq_true, List.any_eq_true]
  constructor
  · rintro ⟨l, hl, hat⟩
    obtain ⟨other, hother, hl⟩ := List.mem_flatMap.1 hl
    obtain ⟨edit, hedit, rfl⟩ := List.mem_map.1 hl
    obtain ⟨hpath, hrange⟩ := Bool.and_eq_true_iff.1 hat
    cases hq : other.1.toFile? with
    | none => rw [hq] at hpath; cases hpath
    | some q =>
      rw [hq, Option.any_some] at hpath
      have hq' : p.sameAs q := by
        rw [FilePath.sameAs_iff] at hsame hpath ⊢
        exact hsame.trans hpath.symm
      obtain rfl := hentries.eq_of_sameAs hentry hother hfile hq hq'
      exact ⟨edit, hedit, hrange⟩
  · rintro ⟨edit, hedit, hrange⟩
    refine ⟨⟨entry.1, edit.range⟩,
      List.mem_flatMap.2 ⟨entry, hentry, List.mem_map.2 ⟨edit, hedit, rfl⟩⟩, ?_⟩
    rw [Location.isAt, hfile]
    exact Bool.and_eq_true_iff.2 ⟨hsame, hrange⟩

/-- Without an entry for a document an edit has no places in it. -/
theorem isAt_eq_false (hnone : ∀ entry ∈ entriesOf e, ∀ p ∈ entry.1.toFile?, p.sameAs path = false) :
    e.isAt path before = fun _ => false := by
  funext t
  rw [WorkspaceEdit.isAt, List.any_eq_false]
  intro l hl hat
  obtain ⟨other, hother, hl⟩ := List.mem_flatMap.1 hl
  obtain ⟨edit, hedit, rfl⟩ := List.mem_map.1 hl
  obtain ⟨hpath, -⟩ := Bool.and_eq_true_iff.1 hat
  cases hq : other.1.toFile? with
  | none => rw [hq] at hpath; cases hpath
  | some q =>
    rw [hq] at hpath
    exact Bool.false_ne_true ((hnone other hother q hq).symm.trans hpath)

/-- **An edit that gives names the text of an identifier keeps the syntax.** -/
theorem keepsSyntax_of_names (hentries : EntriesRename newName (entriesOf e))
    (hnames : ∀ entry ∈ entriesOf e, ∀ edit ∈ entry.2,
      ∃ r : Reference, r.AtName d ∧ r.unit.uri = entry.1 ∧ r.range = edit.range)
    (hword : isWord newName) (hkind : wordKind newName = .identifier) (timeout : Duration) :
    d.KeepsSyntax e newName timeout := by
  intro path before hbefore
  have hdiffer := hentries.filesDiffer.perm (inOrder_perm _).symm
  obtain ⟨done, rest, happ, hout⟩ := editFiles_outcome (d := d) timeout hdiffer
  have hmem : ∀ {entry}, entry ∈ done → entry ∈ entriesOf e := fun h =>
    (inOrder_perm _).mem_iff.1 (happ ▸ List.mem_append_left _ h)
  rw [edit_eq_editFiles]
  by_cases hchanged : ∃ entry ∈ done, ∃ p ∈ entry.1.toFile?, p.sameAs path
  · obtain ⟨entry, hentry, p, hp, hsame⟩ := hchanged
    obtain ⟨q, after, ⟨hfile, -, text, htext, hafter⟩, hget⟩ := hout.changed entry hentry
    cases hfile.symm.trans hp
    cases (d.get?_congr (FilePath.sameAs_iff.1 hsame) ▸ htext).symm.trans hbefore
    -- All references of the entry are in the text of this document.
    have hrenames : ∀ edit ∈ entry.2, edit.Renames before newName := by
      intro edit hedit
      have hnew := hentries.newText entry (hmem hentry) edit hedit
      obtain ⟨r, ⟨source, hsource, hsize, t, ht, htkind, hrange⟩, huri, hsite⟩ :=
        hnames entry (hmem hentry) edit hedit
      obtain ⟨hunit, hsteps⟩ := UnitId.toFile?_eq r.unit
      rw [huri, hfile, Option.some.injEq] at hunit
      rw [← hunit] at hsteps
      cases (htext.symm.trans (d.get?_congr hsteps)).trans hsource
      exact ⟨hnew, hsize, t, ht, htkind, hsite ▸ hrange⟩
    refine ⟨after, isEdited before entry.2, hget path hsame, ?_,
      .inl (isAt_eq_isEdited hentries (hmem hentry) hfile hsame).symm⟩
    rw [edited_names hrenames hafter]
    exact sameSyntax_replaceTokens hword hkind fun t => kind_of_isEdited hrenames
  · push Not at hchanged
    have hkept := hout.kept path fun entry hentry p hp =>
      Bool.eq_false_iff.2 (hchanged entry hentry p hp)
    refine ⟨before, fun _ => false, hkept.trans hbefore, sameSyntax_self hword hkind before, ?_⟩
    rcases hout.answer with ⟨rfl, -⟩ | ⟨entry, after, error, -, -, herror⟩
    · refine .inl (isAt_eq_false fun entry hentry p hp => ?_).symm
      have hdone : entry ∈ done := by
        rw [List.append_nil] at happ
        exact happ ▸ (inOrder_perm _).mem_iff.2 hentry
      exact Bool.eq_false_iff.2 (hchanged entry hdone p hp)
    · exact .inr ⟨rfl, error, by rw [herror]; rfl⟩

end Documents

namespace Workspace

variable {files : List SourceFile}

/-- **A rename to an identifier keeps the syntax of every document,** if no record that is written in
place where the symbol is looked for has the identity of the symbol. -/
theorem rename_keepsSyntax {uri : Uri} {position : Position} {newName : String}
    (hkind : wordKind newName = .identifier)
    (hapart : ∀ r, ((ofFiles files).serve
      ((ofFiles files).analysis.resolveStrict uri position)).1 = .ok r →
        r.RecordsApart (ofFiles files).session.documents (ofFiles files).graph)
    {e : WorkspaceEdit}
    (he : ((ofFiles files).serve ((ofFiles files).analysis.rename uri position newName)).1 = .ok e)
    (timeout : Duration) :
    ((ofFiles files).serve ((ofFiles files).analysis.rename uri position
      newName)).2.session.documents.KeepsSyntax e newName timeout := by
  have husual := isUsual_ofFiles files
  rw [husual.serve_rename] at he
  obtain ⟨r, o, hword, hr, hcheck, ho, hedit⟩ := renameIn_eq_ok he
  have hdeclared := (checkRename_eq_ok_iff.1 hcheck).2
  have hrecords := hapart r (husual.serve_resolveStrict.trans hr)
  have hnames := atName_of_occurrencesIn (fun _ _ => isWritten_of_get?) hr hdeclared hrecords ho
  obtain ⟨hentries, hrefs⟩ := entries_of_renameEdit hedit
  refine Documents.keepsSyntax_of_names hentries (fun entry hentry edit hmem => ?_) hword hkind
    timeout
  obtain ⟨q, hq, huri, hrange⟩ := hrefs entry hentry edit hmem
  obtain ⟨source, hsource, hat⟩ := hnames q hq
  refine ⟨q, ⟨source, ?_, hat⟩, huri, hrange⟩
  rw [← hsource, Documents.textOf?, Documents.textOf?, Documents.get?, Documents.get?]
  exact congrArg _ (congrArg _ (husual.rename_holds uri position newName).1)

theorem rename_keepsSyntax_callFiles : ∃ e,
    ((ofFiles callFiles).serve ((ofFiles callFiles).analysis.rename
      ⟨"file:///workspace/main.nav"⟩ ⟨1, 17⟩ "build")).1 = .ok e ∧
    ((ofFiles callFiles).serve ((ofFiles callFiles).analysis.rename
      ⟨"file:///workspace/main.nav"⟩ ⟨1, 17⟩ "build")).2.session.documents.KeepsSyntax e "build"
        ⟨100⟩ := by
  have hresolve : ((ofFiles callFiles).serve ((ofFiles callFiles).analysis.resolveStrict
      ⟨"file:///workspace/main.nav"⟩ ⟨1, 17⟩)).1.toOption.any fun r =>
        decide (r.RecordsApart (ofFiles callFiles).session.documents (ofFiles callFiles).graph) := by
    decide +kernel
  obtain ⟨r, hr, hapart⟩ := exists_ok_of_any hresolve
  obtain ⟨e, he⟩ := exists_rename_callFiles
  refine ⟨e, he, rename_keepsSyntax (by decide) (fun r' hr' => ?_) he ⟨100⟩⟩
  cases hr.symm.trans hr'
  exact of_decide_eq_true hapart

/-! ## Renames that change the syntax -/

/-- Whether a rename succeeds and its edit gives a document a text with another syntax. -/
def BreaksSyntax (w : Workspace) (uri : Uri) (position : Position) (newName : String)
    (path : FilePath) (after : String) : Prop :=
  ∃ e, (w.serve (w.analysis.rename uri position newName)).1 = .ok e ∧
    ((w.serve (w.analysis.rename uri position newName)).2.session.documents.edit e ⟨5000⟩).2.get?
      path = some after ∧
    ¬ (w.serve (w.analysis.rename uri position newName)).2.session.documents.KeepsSyntax e newName
      ⟨5000⟩

/-- Whether the symbol under the cursor can be renamed and its occurrences are, in order, the words of
one unit that `p` holds of. -/
def renamesWords (w : Workspace) (uri : Uri) (position : Position) (u : UnitId) (source : String)
    (p : Token → Bool) : Bool :=
  (Analysis.resolveIn w.session.documents w.graph uri position).toOption.any fun r =>
    decide (r.checkRename = .ok ()) &&
      (Analysis.occurrencesIn w.session.documents w.graph r).toOption.any fun o =>
        decide (unitsOf o.toRename = [u] ∧ (o.toRename.map fun r => (r.site.span, r.range)) =
          ((sourceTokens source).filter p).map (placeOf source))

section
variable {uri : Uri} {position : Position} {u : UnitId} {source newName : String}
  {p : Token → Bool} (hword : isWord newName)
  (hp : ∀ t ∈ sourceTokens source, p t → isWord t.text)
  (htext : (ofFiles files).session.documents.textOf? u = some source)
  (hsize : source.utf8ByteSize ≤ Span.maxOffset)
  (h : (ofFiles files).renamesWords uri position u source p)
include hword hp h

/-- What a rename of words in one unit changes. -/
theorem renameIn_of_renamesWords :
    Analysis.renameIn (ofFiles files).session.documents (ofFiles files).graph uri position newName =
      .ok ⟨some [(u.uri, nameEdits p newName source)]⟩ := by
  obtain ⟨r, hr, hfound⟩ := exists_ok_of_any h
  obtain ⟨hcheck, ho⟩ := Bool.and_eq_true_iff.1 hfound
  obtain ⟨o, ho, hplaces⟩ := exists_ok_of_any ho
  obtain ⟨hunits, hplaces⟩ := of_decide_eq_true hplaces
  have hall : (o.toRename.filter fun r => r.unit = u) = o.toRename := by
    refine List.filter_eq_self.2 fun q hq => decide_eq_true ?_
    have hmem : q.unit ∈ unitsOf o.toRename := List.mem_eraseDups.2 (List.mem_map_of_mem hq)
    rwa [hunits, List.mem_singleton] at hmem
  have hedits : editsOf u.uri (o.toRename.filter fun r => r.unit = u) newName =
      .ok (nameEdits p newName source) := by
    rw [hall]
    exact editsOf_eq hp (.of_eq hplaces) u.uri newName
  have htarget : Analysis.renameTargetIn (ofFiles files).session.documents (ofFiles files).graph
      uri position = .ok r := by
    rw [Analysis.renameTargetIn, hr]
    rfl
  rw [Analysis.renameIn, checkNewName_eq_ok_iff.2 hword, htarget]
  simp only [Except.bind]
  rw [of_decide_eq_true hcheck, ho]
  simp only [Occurrences.renameEdit]
  rw [hunits, editsOfUnits, Analysis.uriOfUnit_eq]
  simp only [Except.bind, hedits]
  rfl

include htext hsize

/-- What a rename of words in one unit does. -/
theorem rename_of_renamesWords (timeout : Duration) :
    ∃ e, ((ofFiles files).serve ((ofFiles files).analysis.rename uri position newName)).1 = .ok e ∧
      (((ofFiles files).serve ((ofFiles files).analysis.rename uri position
        newName)).2.session.documents.edit e timeout).2.get? (usualLayout.pathOf u) =
          some (replaceTokens p newName source) := by
  have husual := isUsual_ofFiles files
  obtain ⟨hfiles, hunlocked⟩ := husual.rename_holds uri position newName
  refine ⟨_, husual.serve_rename.trans (renameIn_of_renamesWords hword hp h), ?_⟩
  have hchanges : ∀ v ∈ [u], ((ofFiles files).serve ((ofFiles files).analysis.rename uri position
      newName)).2.session.documents.Changes (v.uri, nameEdits p newName source) v.file
        (replaceTokens p newName source) :=
    List.forall_mem_singleton.2 (changes_nameEdits hp htext hsize hfiles hunlocked newName)
  obtain ⟨d', hedit, -, hnew, -⟩ :=
    Documents.edit_eq timeout hchanges (List.pairwise_singleton _ _)
  rw [show [(u.uri, nameEdits p newName source)] =
    [u].map fun v => (v.uri, nameEdits p newName source) from rfl, hedit]
  exact hnew u List.mem_cons_self _ (FilePath.sameAs_iff.2 (UnitId.toFile?_eq u).2)

variable (source p)

theorem breaksSyntax_of_renamesWords {after : String} (hafter : replaceTokens p newName source = after)
    (hsize' : after.utf8ByteSize ≤ Span.maxOffset)
    (hkinds : (sourceTokens after).map Token.kind ≠ (sourceTokens source).map Token.kind) :
    (ofFiles files).BreaksSyntax uri position newName (usualLayout.pathOf u) after := by
  obtain ⟨e, he, hget⟩ := rename_of_renamesWords hword hp htext hsize h ⟨5000⟩
  rw [hafter] at hget
  refine ⟨e, he, hget, fun hkeeps => hkinds ?_⟩
  obtain ⟨hfiles, -⟩ := (isUsual_ofFiles files).rename_holds uri position newName
  have hbefore := congrFun (Documents.get?_of_files hfiles) (usualLayout.pathOf u)
  obtain ⟨after', q, hafter', hsame, -⟩ := hkeeps _ _ (hbefore.trans htext)
  cases hget.symm.trans hafter'
  exact hsame.kinds hsize hsize'

end

/-- A workspace whose function may be renamed to a keyword. -/
def keywordFiles : List SourceFile := [⟨⟨⟨"."⟩, "a.nav"⟩, "fn f(){}"⟩]

/-- A workspace in which a function has the identity of a record without a name. -/
def recordFiles : List SourceFile :=
  [⟨⟨⟨"."⟩, "zcpBvkdfnxsed"⟩, "fn f(x:record{}){}fn waujzecxCvrve(){}"⟩]

/-- A rename changes the syntax where the new name is a keyword, and where a record without a name has
the identity of the symbol. -/
theorem rename_breaksSyntax :
    (ofFiles keywordFiles).BreaksSyntax ⟨"file:///workspace/a.nav"⟩ ⟨0, 3⟩ "fn"
        (usualLayout.pathOf ⟨⟨"."⟩, "a.nav"⟩) "fn fn(){}" ∧
      (ofFiles recordFiles).BreaksSyntax ⟨"file:///workspace/zcpBvkdfnxsed"⟩ ⟨0, 21⟩ "g"
        (usualLayout.pathOf ⟨⟨"."⟩, "zcpBvkdfnxsed"⟩) "fn f(x:g{}){}fn g(){}" := by
  constructor
  · exact breaksSyntax_of_renamesWords "fn f(){}" (fun t => t.text == "f")
      (by decide) (by decide +kernel) (by decide +kernel) (by decide +kernel) (by decide +kernel)
      (by decide +kernel) (by decide +kernel) (by decide +kernel)
  · exact breaksSyntax_of_renamesWords "fn f(x:record{}){}fn waujzecxCvrve(){}"
      (fun t => t.text == "record" || t.text == "waujzecxCvrve")
      (by decide) (by decide +kernel) (by decide +kernel) (by decide +kernel) (by decide +kernel)
      (by decide +kernel) (by decide +kernel) (by decide +kernel)

end Workspace

end Xref
