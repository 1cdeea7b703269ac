import Xref.Proofs.Binding.NameTokens
import Xref.Proofs.Navigation.Cursors
import Xref.Proofs.Project.NameEdits
import Xref.Proofs.Project.WrittenPaths

/-!
# Tokens that a rename replaces

Every occurrence of a symbol with a declaration is at an identifier, unless a record written in place
has the same identity (`atName_of_occurrencesIn`). So the edits of a rename give identifiers a new
text (`entries_of_renameEdit`). This holds whatever the names of the units are: documents of several
units that lie at one path have one entry.
-/

namespace Xref

open Binding
open Workspace (usualLayout)

/-! ## Invariants of occurrences -/

theorem Reference.mem_insertNew {r q : Reference} {l : List Reference}
    (h : q ∈ (r.insertNew l).2) : q = r ∨ q ∈ l := by
  induction l with
  | nil => exact .inl (List.mem_singleton.1 h)
  | cons p l ih =>
    rw [insertNew] at h
    split at h
    · exact List.mem_cons.1 h
    · exact .inr h
    · rcases List.mem_cons.1 h with rfl | h
      · exact .inr List.mem_cons_self
      · exact (ih h).imp_right (List.mem_cons_of_mem p)

namespace Occurrences

/-- Whether all occurrences that have been found satisfy `P`. -/
structure All (P : Reference → Prop) (o : Occurrences) : Prop where
  cursor : ∀ r ∈ o.cursor, P r
  definitions : ∀ r ∈ o.definitions, P r
  usages : ∀ r ∈ o.usages, P r

section
variable {P : Reference → Prop} {o : Occurrences} {f : Find}

theorem All.empty : All P .empty :=
  ⟨(fun _ h => nomatch h), (fun _ h => nomatch h), (fun _ h => nomatch h)⟩

theorem All.put (hf : ∀ role, P (f.reference.withRole role)) (ho : o.All P) : (o.put f).All P where
  cursor := by
    intro r hr
    rw [cursor_put, Option.mem_def, Option.or_eq_some_iff] at hr
    rcases hr with hr | ⟨-, hr⟩
    · exact ho.cursor r hr
    · split at hr
      · cases hr
        exact hf _
      · cases hr
  definitions := by
    rw [definitions_put]
    split
    · intro r hr
      rcases Reference.mem_insertNew hr with rfl | hr
      · exact hf _
      · exact ho.definitions r hr
    · exact ho.definitions
  usages := by
    rw [usages_put]
    split
    · intro r hr
      rcases Reference.mem_insertNew hr with rfl | hr
      · exact hf _
      · exact ho.usages r hr
    · exact ho.usages

theorem All.foldl_put {fs : List Find} (hfs : ∀ f ∈ fs, ∀ role, P (f.reference.withRole role))
    (ho : o.All P) : (fs.foldl Occurrences.put o).All P := by
  induction fs generalizing o with
  | nil => exact ho
  | cons f fs ih =>
    rw [List.forall_mem_cons] at hfs
    exact ih hfs.2 (ho.put hfs.1)

theorem All.prune (ho : o.All P) : o.prune.All P := by
  unfold Occurrences.prune
  split
  · exact ⟨ho.cursor, (fun _ h => nomatch h), (fun _ h => nomatch h)⟩
  · exact ⟨ho.cursor, fun r hr => ho.definitions r (List.mem_filter.1 hr).1,
      fun r hr => ho.usages r (List.mem_filter.1 hr).1⟩

theorem All.toRename (ho : o.All P) : ∀ r ∈ o.toRename, P r := by
  have hfold : ∀ (rs found : List Reference), (∀ r ∈ rs, P r) → (∀ r ∈ found, P r) →
      ∀ r ∈ rs.foldl (fun found r => (r.insertNew found).2) found, P r := by
    intro rs
    induction rs with
    | nil => exact fun found _ h => h
    | cons r rs ih =>
      intro found hrs hfound
      rw [List.forall_mem_cons] at hrs
      refine ih _ hrs.2 fun q hq => ?_
      rcases Reference.mem_insertNew hq with rfl | hq
      · exact hrs.1
      · exact hfound q hq
  refine hfold _ _ (fun r hr => ?_) (fun _ h => nomatch h)
  rcases List.mem_append.1 hr with hr | hr
  · rcases List.mem_append.1 hr with hr | hr
    · exact ho.cursor r (Option.mem_toList.1 hr)
    · exact ho.definitions r hr
  · exact ho.usages r hr

end

end Occurrences

/-! ## Occurrences are names -/

/-- Whether a reference is at an identifier of the text of its unit, whose bytes offsets can
count. -/
def Reference.AtName (d : Documents) (r : Reference) : Prop :=
  ∃ source, d.textOf? r.unit = some source ∧ source.utf8ByteSize ≤ Span.maxOffset ∧
    ∃ t ∈ sourceTokens source, t.kind = .identifier ∧
      r.range = (LineIndex.ofText source).range t.span

/-- Whether no record that is written in place in a unit where a symbol is looked for has the
identity of this symbol. -/
def Resolved.RecordsApart (d : Documents) (g : ModuleGraph) (r : Resolved) : Prop :=
  ∀ u ∈ r.unit :: (Analysis.ofGraph g).unitsToSearch r.symbol.owner r.unit,
    ∀ source ∈ d.textOf? u, r.symbol.id ∉ recordIds u source

instance (d : Documents) (g : ModuleGraph) (r : Resolved) : Decidable (r.RecordsApart d g) := by
  unfold Resolved.RecordsApart
  infer_instance

section
variable {d : Documents} {g : ModuleGraph} {u : UnitId} {source : String} {path : FilePath}
  {b : BoundUnit} {target : Symbol} {cursor : Option NodeId} {f : Occurrences.Find}

/-- What a search comes across in a unit is named by identifiers. -/
theorem atName_of_findsIn (hcompile : compile usualLayout d g u source = .ok b)
    (htext : d.textOf? u = some source) (htarget : IsNominal target)
    (hdeclared : target.declaration.isSome) (hapart : target.id ∉ recordIds u source)
    (hf : f ∈ Occurrences.findsIn b target cursor) (role : Role) :
    (f.reference.withRole role).AtName d := by
  obtain ⟨n, -, hf⟩ := List.mem_filterMap.1 hf
  obtain ⟨⟨declared, r⟩, hfound, rfl⟩ := Option.map_eq_some_iff.1 hf
  obtain ⟨a, ha, hfound⟩ := Option.bind_eq_some_iff.1 hfound
  split at hfound
  · rename_i hequivalent
    obtain ⟨-, t, ht, hid, hkind⟩ := mention_of_compile hcompile ha
    obtain ⟨c, -, -, -, rfl⟩ := exists_context_of_compile hcompile
    obtain ⟨name, hname, heq⟩ := Option.map_eq_some_iff.1 hfound
    have hsame : (Tree.ofSource source).token? a.name = some t := hid ▸ Tree.token?_ofSource ht
    cases hname.symm.trans hsame
    obtain rfl := (Prod.mk.inj heq).2
    refine ⟨source, htext, (compile_eq_ok.1 hcompile).1, t, ht, ?_, rfl⟩
    refine hkind.resolve_right fun hmem => hapart ?_
    rwa [htarget.id_eq hdeclared hequivalent] at hmem
  · cases hfound

theorem atName_of_gatherIn (htarget : IsNominal target) (hdeclared : target.declaration.isSome)
    {units : List UnitId} (hapart : ∀ u ∈ units, ∀ source ∈ d.textOf? u,
      target.id ∉ recordIds u source) {o o' : Occurrences} (ho : o.All (Reference.AtName d))
    (h : Analysis.gatherIn d g target units o = .ok o') : o'.All (Reference.AtName d) := by
  induction units generalizing o with
  | nil =>
    cases h
    exact ho
  | cons u units ih =>
    rw [List.forall_mem_cons] at hapart
    rw [Analysis.gatherIn] at h
    obtain ⟨b, hunit, h⟩ := Except.bind_eq_ok.1 h
    obtain ⟨source, htext, hcompile⟩ := Analysis.unitIn_eq_ok_iff.1 hunit
    refine ih hapart.2 ?_ h
    rw [Occurrences.gather_eq]
    exact ho.foldl_put fun f hf =>
      atName_of_findsIn hcompile htext htarget hdeclared (hapart.1 source htext) hf

/-- **Every occurrence of a symbol with a declaration is a name,** in documents that lie at written
paths, if no record has its identity. -/
theorem atName_of_occurrencesIn (hwritten : ∀ path text, d.get? path = some text → path.IsWritten)
    {uri : Uri} {position : Position} {r : Resolved}
    (hr : Analysis.resolveIn d g uri position = .ok r) (hdeclared : r.symbol.declaration.isSome)
    (hapart : r.RecordsApart d g) {o : Occurrences}
    (ho : Analysis.occurrencesIn d g r = .ok o) : ∀ q ∈ o.toRename, q.AtName d := by
  obtain ⟨path, u, b, -, hat, hunit, hr⟩ := Analysis.resolveIn_eq_ok.1 hr
  obtain ⟨source, htext, hcompile⟩ := Analysis.unitIn_eq_ok_iff.1 hunit
  have hsame : d.textOf? u = some source := by
    rw [← htext]
    exact d.get?_congr (UnitId.components_of_unitAt? (hwritten path source htext) hat)
  obtain ⟨offset, place, n, a, -, -, hinner, hunit, -, hsymbol, hoccurrences⟩ :=
    BoundUnit.resolve_eq_ok hr
  have htarget := (mention_of_compile hcompile (BoundUnit.innermost?_eq_some hinner).2).1
  rw [Resolved.RecordsApart, hunit, List.forall_mem_cons] at hapart
  rw [← hsymbol] at htarget hoccurrences
  rw [Analysis.occurrencesIn, hunit] at ho
  obtain ⟨found, hgather, rfl⟩ := Except.map_eq_ok.1 ho
  refine (atName_of_gatherIn htarget hdeclared hapart.2 ?_ hgather).prune.toRename
  rw [hoccurrences]
  exact Occurrences.All.empty.foldl_put fun f hf =>
    atName_of_findsIn hcompile hsame htarget hdeclared (hapart.1 source hsame) hf

end

/-! ## Entries of a rename -/

/-- Whether the entries of an edit are at different URIs, each that of a unit, and all give ranges
the same new text. -/
structure EntriesRename (newName : String) (changes : List (Uri × List TextEdit)) : Prop where
  nodup : (changes.map Prod.fst).Nodup
  units : ∀ entry ∈ changes, ∃ u : UnitId, entry.1 = u.uri
  newText : ∀ entry ∈ changes, ∀ edit ∈ entry.2, edit.newText = newName

section
variable {newName : String} {changes changes' : List (Uri × List TextEdit)} {edits : List TextEdit}

theorem mem_addEdits {uri : Uri} {entry : Uri × List TextEdit}
    (h : entry ∈ addEdits uri edits changes) : entry ∈ changes ∨
      entry.1 = uri ∧ ∀ edit ∈ entry.2, edit ∈ edits ∨ ∃ old ∈ changes, edit ∈ old.2 := by
  induction changes with
  | nil =>
    cases List.mem_singleton.1 h
    exact .inr ⟨rfl, fun edit hedit => .inl hedit⟩
  | cons change changes ih =>
    obtain ⟨u, es⟩ := change
    rw [addEdits] at h
    split at h
    · rename_i heq
      rcases List.mem_cons.1 h with rfl | h
      · refine .inr ⟨heq, fun edit hedit => ?_⟩
        rcases List.mem_append.1 hedit with hedit | hedit
        · exact .inr ⟨_, List.mem_cons_self, hedit⟩
        · exact .inl hedit
      · exact .inl (List.mem_cons_of_mem _ h)
    · rcases List.mem_cons.1 h with rfl | h
      · exact .inl List.mem_cons_self
      · rcases ih h with h | ⟨huri, hedits⟩
        · exact .inl (List.mem_cons_of_mem _ h)
        · refine .inr ⟨huri, fun edit hedit => (hedits edit hedit).imp_right ?_⟩
          rintro ⟨old, hold, hedit⟩
          exact ⟨old, List.mem_cons_of_mem _ hold, hedit⟩

theorem nodup_addEdits (uri : Uri) (edits : List TextEdit) (h : (changes.map Prod.fst).Nodup) :
    ((addEdits uri edits changes).map Prod.fst).Nodup := by
  induction changes with
  | nil => exact List.nodup_singleton _
  | cons change changes ih =>
    obtain ⟨u, es⟩ := change
    rw [List.map_cons, List.nodup_cons] at h
    rw [addEdits]
    split
    · rw [List.map_cons, List.nodup_cons]
      exact h
    · rename_i hne
      rw [List.map_cons, List.nodup_cons]
      refine ⟨fun hmem => ?_, ih h.2⟩
      obtain ⟨entry, hentry, heq⟩ := List.mem_map.1 hmem
      rcases mem_addEdits hentry with hold | ⟨huri, -⟩
      · exact h.1 (List.mem_map.2 ⟨entry, hold, heq⟩)
      · exact hne (heq.symm.trans huri)

theorem entriesRename_editsOfUnits {g : ModuleGraph} {refs : List Reference} {units : List UnitId}
    (hchanges : EntriesRename newName changes)
    (h : editsOfUnits (Analysis.ofGraph g) refs newName units changes = .ok changes') :
    EntriesRename newName changes' := by
  induction units generalizing changes with
  | nil =>
    cases h
    exact hchanges
  | cons u units ih =>
    rw [editsOfUnits, Analysis.uriOfUnit_eq] at h
    obtain ⟨uri, huri, h⟩ := Except.bind_eq_ok.1 h
    obtain rfl := Except.ok.inj huri
    obtain ⟨edits, hedits, h⟩ := Except.bind_eq_ok.1 h
    have hnew : ∀ edit ∈ edits, edit.newText = newName := by
      intro edit hedit
      rw [editsOf_eq_ok hedits] at hedit
      obtain ⟨place, -, rfl⟩ := List.mem_map.1 hedit
      rfl
    refine ih ⟨nodup_addEdits _ _ hchanges.nodup, fun entry hentry => ?_,
      fun entry hentry edit hedit => ?_⟩ h
    · rcases mem_addEdits hentry with hold | ⟨huri, -⟩
      · exact hchanges.units entry hold
      · exact ⟨u, huri⟩
    · rcases mem_addEdits hentry with hold | ⟨-, hall⟩
      · exact hchanges.newText entry hold edit hedit
      · rcases hall edit hedit with hmem | ⟨old, hold, hmem⟩
        · exact hnew edit hmem
        · exact hchanges.newText old hold edit hmem

/-- **A rename gives references a new text,** in one entry for each file. -/
theorem entries_of_renameEdit {g : ModuleGraph} {o : Occurrences} {e : WorkspaceEdit}
    (h : o.renameEdit (Analysis.ofGraph g) newName = .ok e) :
    EntriesRename newName (Documents.entriesOf e) ∧
      ∀ entry ∈ Documents.entriesOf e, ∀ edit ∈ entry.2,
        ∃ r ∈ o.toRename, r.unit.uri = entry.1 ∧ r.range = edit.range := by
  constructor
  · rw [Occurrences.renameEdit] at h
    obtain ⟨changes, hchanges, rfl⟩ := Except.map_eq_ok.1 h
    have hstart : EntriesRename newName [] :=
      ⟨List.nodup_nil, List.forall_mem_nil _, List.forall_mem_nil _⟩
    exact entriesRename_editsOfUnits hstart hchanges
  · intro entry hentry edit hedit
    have hmem : (⟨entry.1, edit.range⟩ : Location) ∈ e.locations :=
      List.mem_flatMap.2 ⟨entry, hentry, List.mem_map.2 ⟨edit, hedit, rfl⟩⟩
    obtain ⟨r, hr, hlocate⟩ := (Occurrences.locations_renameEdit h).1 _ hmem
    exact ⟨r, hr, congrArg Location.uri hlocate, congrArg Location.range hlocate⟩

section
variable (h : EntriesRename newName changes) {a b : Uri × List TextEdit} (ha : a ∈ changes)
  (hb : b ∈ changes)

include h ha hb

/-- There is one entry for each file. -/
theorem EntriesRename.eq_of_sameAs {p q : FilePath} (hp : a.1.toFile? = some p)
    (hq : b.1.toFile? = some q) (hsame : p.sameAs q) : a = b := by
  obtain ⟨u, hu⟩ := h.units a ha
  obtain ⟨v, hv⟩ := h.units b hb
  rw [hu, (UnitId.toFile?_eq u).1] at hp
  rw [hv, (UnitId.toFile?_eq v).1] at hq
  cases hp
  cases hq
  rw [FilePath.sameAs_iff, (UnitId.toFile?_eq u).2, (UnitId.toFile?_eq v).2,
    ← UnitId.uri_eq_iff] at hsame
  exact List.inj_on_of_nodup_map h.nodup ha hb (hu.trans (hsame.trans hv.symm))

end

theorem EntriesRename.filesDiffer (h : EntriesRename newName changes) :
    Documents.FilesDiffer changes := by
  refine (List.Nodup.of_map _ h.nodup).imp_of_mem fun {a b} ha hb hne p hp q hq => ?_
  rw [Bool.eq_false_iff]
  exact fun hsame => hne (h.eq_of_sameAs ha hb hp hq hsame)

end

end Xref
