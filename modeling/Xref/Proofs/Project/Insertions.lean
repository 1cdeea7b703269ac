import Xref.Proofs.Project.WorkspaceEdits
import Xref.Proofs.Text.Splices

/-!
# Insertions at one position

All replacements in a document count in its text as it was, and of several insertions at one
position the last one of the list comes to stand first (`Documents.edit_insertions`). So they stand
in the order of the list exactly if at every offset they read the same from either end, and two
different insertions of one length never do (`Documents.not_listed_twoInsertions`).
-/

namespace Xref.Documents

/-- What becomes of a text when replacements are carried out in it that mean the edits `es`. -/
structure Rewritten (text : String) (edits : List TextEdit) (es : List Edit) (new : String) :
    Prop where
  means : MeansAll text edits es
  checked : (ChangeSet.mk es).performChecked? text = .ok (some new)
  /-- All spans count in the text as it was, and the last of several insertions comes first. -/
  reversed : new = splice es.reverse text
  /-- Insertions at one position stand in the order of the list only if the order does not matter. -/
  listed_iff : new = splice es text ↔
    ∀ offset, insertedAt es.reverse offset = insertedAt es offset

/-- Replacements that do not overlap make the splice in which the last insertion comes first. -/
theorem MeansAll.rewrites {text : String} {edits : List TextEdit} {es : List Edit}
    (h : MeansAll text edits es) (hapart : es.Pairwise Edit.Apart) :
    Rewrites text edits (splice es.reverse text) := by
  obtain ⟨new, hnew, hreplaces⟩ :=
    ChangeSet.perform?_eq (s := ⟨es⟩) h.isForward hapart h.isBoundary
  rw [ChangeSet.perform?_eq_splice h.isForward hapart h.isBoundary] at hnew
  cases hnew
  exact ⟨es, h, hapart, hreplaces⟩

theorem Rewrites.rewritten {text new : String} {edits : List TextEdit}
    (h : Rewrites text edits new) : ∃ es, Rewritten text edits es new := by
  obtain ⟨es, hmeans, hapart, hreplaces⟩ := h
  have hforward : ∀ e ∈ (ChangeSet.mk es).edits, e.IsForward := hmeans.isForward
  have hnew : new = splice es.reverse text := by
    rw [← ChangeSet.splice_placed (s := ⟨es⟩) hapart, splice, ← hreplaces.eq_spliced,
      String.ofList_toList]
  refine ⟨es, hmeans, ?_, hnew, ?_⟩
  · rw [ChangeSet.performChecked?, (ChangeSet.conflict?_eq_none_iff hforward).2 hapart]
    dsimp only
    rw [ChangeSet.perform?_eq_splice hforward hapart hmeans.isBoundary, hnew]
  · rw [hnew, splice_reverse_eq_iff hapart fun e he => (hmeans.isBoundary e he).1]

section
variable {d : Documents} {timeout : Duration} {changes : WorkspaceEdit}
  (hdiffer : FilesDiffer (entriesOf changes))

include hdiffer

/-- A workspace edit of which every entry can be carried out succeeds. -/
theorem edit_isOk_of_succeeds
    (h : ∀ entry ∈ entriesOf changes, ∃ path new, d.Succeeds entry path new) :
    (d.edit changes timeout).1.isOk := by
  obtain ⟨before, rest, happ, hout⟩ :=
    editFiles_outcome (d := d) timeout (hdiffer.perm (inOrder_perm _).symm)
  rw [edit_eq_editFiles]
  rcases hout.answer with ⟨-, hok⟩ | ⟨entry, after, e, hrest, hfails, -⟩
  · rw [hok]
    rfl
  · have hmem : entry ∈ entriesOf changes := by
      rw [← (inOrder_perm _).mem_iff, happ, hrest]
      exact List.mem_append_right _ List.mem_cons_self
    obtain ⟨path, new, hsucceeds⟩ := h entry hmem
    exact absurd hfails.stops hsucceeds.not_stops

/-- A workspace edit that succeeds has carried out every entry. -/
theorem succeeds_of_isOk {entry : Uri × List TextEdit} (hok : (d.edit changes timeout).1.isOk)
    (hentry : entry ∈ entriesOf changes) :
    ∃ path new, d.Succeeds entry path new ∧ (d.edit changes timeout).2.get? path = some new := by
  obtain ⟨before, rest, happ, hout⟩ :=
    editFiles_outcome (d := d) timeout (hdiffer.perm (inOrder_perm _).symm)
  rw [edit_eq_editFiles] at hok ⊢
  have hnil : rest = [] := by
    rcases hout.answer with ⟨hrest, -⟩ | ⟨_, _, e, -, -, herror⟩
    · exact hrest
    · rw [herror] at hok
      cases hok
  have hmem : entry ∈ before := by
    rw [hnil, List.append_nil] at happ
    exact happ ▸ (inOrder_perm _).mem_iff.2 hentry
  obtain ⟨path, new, hchanges, hnew⟩ := hout.changed entry hmem
  exact ⟨path, new, hchanges.succeeds, hnew path (FilePath.sameAs_refl path)⟩

end

/-- **Insertions at one position are put the other way round.** A workspace edit that succeeds
replaces all ranges of a document as they lie in its text, and of several insertions at one position
the last one comes first. -/
theorem edit_insertions (d : Documents) (timeout : Duration) {changes : WorkspaceEdit}
    {entry : Uri × List TextEdit} (hdiffer : FilesDiffer (entriesOf changes))
    (hok : (d.edit changes timeout).1.isOk) (hentry : entry ∈ entriesOf changes) :
    ∃ path text new es, entry.1.toFile? = some path ∧ d.get? path = some text ∧
      (d.edit changes timeout).2.get? path = some new ∧ Rewritten text entry.2 es new := by
  obtain ⟨path, new, ⟨hfile, -, text, htext, hrewrites⟩, hnew⟩ :=
    succeeds_of_isOk hdiffer hok hentry
  obtain ⟨es, hes⟩ := hrewrites.rewritten
  exact ⟨path, text, new, es, hfile, htext, hnew, hes⟩

/-- A document. -/
def oneDocument : Documents := ⟨[(.ofText "/a", "x")], .empty⟩

/-- Two insertions at the start of the document. -/
def twoInsertions : WorkspaceEdit :=
  ⟨some [(⟨"file:///a"⟩, [⟨⟨⟨0, 0⟩, ⟨0, 0⟩⟩, "1"⟩, ⟨⟨⟨0, 0⟩, ⟨0, 0⟩⟩, "2"⟩])]⟩

theorem meansAll_twoInsertions : MeansAll "x" [⟨⟨⟨0, 0⟩, ⟨0, 0⟩⟩, "1"⟩, ⟨⟨⟨0, 0⟩, ⟨0, 0⟩⟩, "2"⟩]
    [⟨⟨0, 0⟩, "1"⟩, ⟨⟨0, 0⟩, "2"⟩] :=
  have hmeans : Means "x" ⟨⟨0, 0⟩, ⟨0, 0⟩⟩ ⟨0, 0⟩ := ⟨by decide, by decide, Nat.le_refl 0⟩
  .cons ⟨hmeans, rfl⟩ (.cons ⟨hmeans, rfl⟩ .nil)

theorem filesDiffer_twoInsertions : FilesDiffer (entriesOf twoInsertions) := by decide +kernel

theorem isOk_twoInsertions : (oneDocument.edit twoInsertions ⟨5⟩).1.isOk := by
  refine edit_isOk_of_succeeds filesDiffer_twoInsertions (List.forall_mem_singleton.2 ?_)
  exact ⟨.ofText "/a", _, by decide +kernel, rfl, "x", by decide +kernel,
    meansAll_twoInsertions.rewrites (by decide)⟩

theorem edit_insertions_twoInsertions :
    FilesDiffer (entriesOf twoInsertions) ∧ (oneDocument.edit twoInsertions ⟨5⟩).1.isOk ∧
      ∀ entry ∈ entriesOf twoInsertions, ∃ path text new es, entry.1.toFile? = some path ∧
        oneDocument.get? path = some text ∧
        (oneDocument.edit twoInsertions ⟨5⟩).2.get? path = some new ∧
        Rewritten text entry.2 es new :=
  ⟨filesDiffer_twoInsertions, isOk_twoInsertions, fun _ hentry =>
    edit_insertions _ _ filesDiffer_twoInsertions isOk_twoInsertions hentry⟩

/-- The second insertion comes to stand before the first. -/
theorem not_listed_twoInsertions :
    (oneDocument.edit twoInsertions ⟨5⟩).2.get? (.ofText "/a") = some "21x" ∧
      MeansAll "x" [⟨⟨⟨0, 0⟩, ⟨0, 0⟩⟩, "1"⟩, ⟨⟨⟨0, 0⟩, ⟨0, 0⟩⟩, "2"⟩]
        [⟨⟨0, 0⟩, "1"⟩, ⟨⟨0, 0⟩, "2"⟩] ∧
      splice [⟨⟨0, 0⟩, "1"⟩, ⟨⟨0, 0⟩, "2"⟩] "x" = "12x" := by
  refine ⟨?_, meansAll_twoInsertions, by decide⟩
  obtain ⟨path, new, ⟨hfile, -, text, htext, hrewrites⟩, hnew⟩ :=
    succeeds_of_isOk filesDiffer_twoInsertions isOk_twoInsertions List.mem_cons_self
  have hpath : (Uri.mk "file:///a").toFile? = some (.ofText "/a") := by decide +kernel
  have hold : oneDocument.get? (.ofText "/a") = some "x" := by decide +kernel
  cases hpath.symm.trans hfile
  cases hold.symm.trans htext
  obtain ⟨es, hes⟩ := hrewrites.rewritten
  rw [hnew, hes.reversed, hes.means.unique meansAll_twoInsertions]
  decide

end Xref.Documents
