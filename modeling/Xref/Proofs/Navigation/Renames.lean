import Xref.Proofs.Navigation.References
import Xref.Proofs.Syntax.Replacing

/-!
# Renaming

A rename replaces exactly the tokens that finding references reports, and it can be carried out
(`rename_applies`).
-/

namespace Xref

open Binding
open Workspace (usualLayout)

/-! ## Edits of a file -/

theorem overlaps_eq_false {a b : Span} (h : a.stop ≤ b.start) : a.overlaps b = false := by
  rw [Span.overlaps, decide_eq_false_iff_not]
  omega

theorem firstOverlap_eq_none {l : List (Span × Range)}
    (h : l.Pairwise fun a b => a.1.stop ≤ b.1.start) : firstOverlap l = none := by
  induction h with
  | nil => rfl
  | @cons a l hfirst _ ih =>
    cases l with
    | nil => rfl
    | cons b l =>
      rw [firstOverlap, overlaps_eq_false (hfirst b List.mem_cons_self), if_neg Bool.false_ne_true]
      exact ih

theorem dropEqualSpans_eq_self {l : List (Span × Range)}
    (h : l.Pairwise fun a b => a.1 ≠ b.1) : dropEqualSpans l = l := by
  induction h with
  | nil => rw [dropEqualSpans]
  | @cons a l hfirst _ ih =>
    rw [dropEqualSpans]
    cases l with
    | nil => rw [List.dropWhile_nil, dropEqualSpans]
    | cons b l =>
      have hne : (b.1 == a.1) = false := beq_false_of_ne (hfirst b List.mem_cons_self).symm
      rw [List.dropWhile_cons, hne, if_neg Bool.false_ne_true, ih]

section
variable {source : String} {p : Token → Bool}

/-- The place of a token in a text. -/
def placeOf (source : String) (t : Token) : Span × Range :=
  (t.span, (LineIndex.ofText source).range t.span)

/-- References to several words of a text are at the places of these words, in order. -/
theorem placesOf_eq (hp : ∀ t ∈ sourceTokens source, p t → isWord t.text)
    {refs : List Reference} (hrefs : (refs.map fun r => (r.site.span, r.range)).Perm
      (((sourceTokens source).filter p).map (placeOf source))) :
    placesOf refs = ((sourceTokens source).filter p).map (placeOf source) ∧
      firstOverlap (placesOf refs) = none := by
  have hapart := pairwise_tokenEdits "" hp
  have hplaces : (((sourceTokens source).filter p).map (placeOf source)).Pairwise fun a b =>
      a.1.start < a.1.stop ∧ a.1.stop ≤ b.1.start :=
    List.pairwise_map.2 (List.pairwise_map.1 hapart)
  have hsorted : (refs.map fun r => (r.site.span, r.range)).mergeSort
      (fun a b => (a.1.compare b.1).isLE) = ((sourceTokens source).filter p).map (placeOf source) := by
    refine mergeSort_eq_of_perm Span.compare Prod.fst hrefs (hplaces.imp fun h => ?_)
    rw [Span.compare, Ordering.then_eq_lt, Nat.compare_eq_lt]
    exact .inl (Nat.lt_of_lt_of_le h.1 h.2)
  have hplacesOf : placesOf refs = ((sourceTokens source).filter p).map (placeOf source) := by
    rw [placesOf, hsorted]
    refine dropEqualSpans_eq_self (hplaces.imp fun h heq => ?_)
    rw [heq] at h
    omega
  rw [hplacesOf]
  exact ⟨rfl, firstOverlap_eq_none (hplaces.imp fun h => h.2)⟩

/-- The edits that give several words of a text a new text. -/
def nameEdits (p : Token → Bool) (newName source : String) : List TextEdit :=
  ((sourceTokens source).filter p).map fun t => ⟨(LineIndex.ofText source).range t.span, newName⟩

theorem editsOf_eq (hp : ∀ t ∈ sourceTokens source, p t → isWord t.text)
    {refs : List Reference} (hrefs : (refs.map fun r => (r.site.span, r.range)).Perm
      (((sourceTokens source).filter p).map (placeOf source))) (uri : Uri) (newName : String) :
    editsOf uri refs newName = .ok (nameEdits p newName source) := by
  obtain ⟨hplaces, hoverlap⟩ := placesOf_eq hp hrefs
  rw [editsOf, hoverlap, hplaces]
  rw [nameEdits, List.map_map]
  rfl

/-- The words of a document without locks can be changed. -/
theorem changes_nameEdits {d d₁ : Documents} {u : UnitId}
    (hp : ∀ t ∈ sourceTokens source, p t → isWord t.text) (htext : d.textOf? u = some source)
    (hsize : source.utf8ByteSize ≤ Span.maxOffset) (hfiles : d₁.files = d.files)
    (hunlocked : d₁.locks.held = []) (newName : String) :
    d₁.Changes (u.uri, nameEdits p newName source) u.file (replaceTokens p newName source) := by
  obtain ⟨hfile, hsteps⟩ := UnitId.toFile?_eq u
  have hsource : d₁.get? u.file = some source := by
    rw [Documents.get?_of_files hfiles, d.get?_congr hsteps]
    exact htext
  exact ⟨hfile, by rw [Locks.isLocked, hunlocked]; rfl, source, hsource,
    edited_eq newName hp hsize u.file⟩

end

/-! ## Edits of several files -/

theorem nodup_unitsOf (refs : List Reference) : (unitsOf refs).Nodup := by
  have h : ∀ (k : Nat) (l : List UnitId), l.length ≤ k → l.eraseDups.Nodup := by
    intro k
    induction k with
    | zero =>
      intro l hl
      rw [List.length_eq_zero_iff.1 (Nat.le_zero.1 hl)]
      exact List.nodup_nil
    | succ k ih =>
      intro l hl
      cases l with
      | nil => exact List.nodup_nil
      | cons u l =>
        rw [List.eraseDups_cons, List.nodup_cons]
        have hlength := List.length_filter_le (fun v => !v == u) l
        refine ⟨?_, ih _ (hlength.trans (Nat.le_of_succ_le_succ hl))⟩
        simp [List.mem_eraseDups]
  exact h _ _ (Nat.le_refl _)

theorem addEdits_new {uri : Uri} {edits : List TextEdit} {changes : List (Uri × List TextEdit)}
    (h : ∀ c ∈ changes, c.1 ≠ uri) : addEdits uri edits changes = changes ++ [(uri, edits)] := by
  induction changes with
  | nil => rfl
  | cons c changes ih =>
    rw [List.forall_mem_cons] at h
    obtain ⟨u, es⟩ := c
    rw [addEdits, if_neg h.1, ih h.2]
    rfl

/-- Units at different URIs get an entry each. -/
theorem editsOfUnits_eq {a : Analysis} {refs : List Reference} {newName : String}
    {uriOf : UnitId → Uri} {edits : UnitId → List TextEdit} {units : List UnitId}
    (huris : ∀ u ∈ units, a.uriOfUnit u = .ok (uriOf u))
    (hedits : ∀ u ∈ units,
      editsOf (uriOf u) (refs.filter fun r => r.unit = u) newName = .ok (edits u))
    (hne : (units.map uriOf).Nodup) {changes : List (Uri × List TextEdit)}
    (hchanges : ∀ c ∈ changes, ∀ u ∈ units, c.1 ≠ uriOf u) :
    editsOfUnits a refs newName units changes =
      .ok (changes ++ units.map fun u => (uriOf u, edits u)) := by
  induction units generalizing changes with
  | nil => rw [editsOfUnits, List.map_nil, List.append_nil]
  | cons u units ih =>
    rw [List.forall_mem_cons] at huris hedits
    rw [List.map_cons, List.nodup_cons] at hne
    have hnew := @addEdits_new (uriOf u) (edits u) changes fun c hc => hchanges c hc u List.mem_cons_self
    have hrest : ∀ c ∈ changes ++ [(uriOf u, edits u)], ∀ v ∈ units, c.1 ≠ uriOf v := by
      intro c hc v hv
      rcases List.mem_append.1 hc with hc | hc
      · exact hchanges c hc v (List.mem_cons_of_mem _ hv)
      · rw [List.mem_singleton.1 hc]
        exact fun heq => hne.1 (List.mem_map.2 ⟨v, hv, heq.symm⟩)
    rw [editsOfUnits, huris.1]
    simp only [Except.bind]
    rw [hedits.1]
    simp only
    rw [hnew, ih huris.2 hedits.2 hne.2 hrest, List.append_assoc]
    rfl

namespace Occurrences

variable {d : Documents} {g : ModuleGraph} {target : Symbol} {start u v : UnitId} {node : NodeId}
  {o : Occurrences} {fs : List Find} {c : Find} {source newName : String} {t : Token}

/-- Whether one of several finds is named by a token of a unit. -/
def isNamedBy (fs : List Find) (u : UnitId) (t : Token) : Bool :=
  fs.any fun f => decide (f.site = ⟨u.module, u.unit, t.span⟩)

/-- The edits of a unit that give all finds a new name. -/
def unitEdits (d : Documents) (fs : List Find) (newName : String) (u : UnitId) : List TextEdit :=
  match d.textOf? u with
  | some source => nameEdits (isNamedBy fs u) newName source
  | none => []

theorem newText_of_mem {edit : TextEdit} (h : edit ∈ unitEdits d fs newName u) :
    edit.newText = newName := by
  rw [unitEdits] at h
  split at h
  · obtain ⟨t, -, rfl⟩ := List.mem_map.1 h
    rfl
  · cases h

/-- A mention is at the site of a token if this token names it. -/
theorem site_eq_iff {source' : String} {n : Node} {t' : Token} {s : Symbol}
    (hc : Compiles d g v source') (hmention : Mentions d g v source' n t' s)
    (htext : d.textOf? u = some source) (ht : t ∈ sourceTokens source) :
    (⟨v.module, v.unit, t'.span⟩ : Site) = ⟨u.module, u.unit, t.span⟩ ↔ v = u ∧ t' = t := by
  constructor
  · intro hsite
    obtain rfl : v = u := congrArg (fun a : Site => UnitId.mk a.module a.unit) hsite
    obtain rfl : source = source' := Option.some.inj (htext.symm.trans hc.text)
    exact ⟨rfl, eq_of_span_eq hmention.mem_sourceTokens ht (congrArg Site.span hsite)⟩
  · rintro ⟨rfl, rfl⟩
    rfl

/-- The tokens to replace are those that name the target. -/
theorem Complete.isNamedBy_iff (h : Complete d g target start node o fs c)
    (hc : Compiles d g u source) (ht : t ∈ sourceTokens source) :
    isNamedBy fs u t ↔ ∃ n s, Mentions d g u source n t s ∧ s.id = target.id := by
  rw [isNamedBy, List.any_eq_true]
  constructor
  · rintro ⟨f, hf, hsite⟩
    obtain ⟨v, source', n, t', s, hc', hmention, hid, rfl⟩ := (h.mem f).1 hf
    obtain ⟨rfl, rfl⟩ := (site_eq_iff hc' hmention hc.text ht).1 (of_decide_eq_true hsite)
    obtain rfl : source = source' := Option.some.inj (hc.text.symm.trans hc'.text)
    exact ⟨n, s, hmention, hid⟩
  · rintro ⟨n, s, hmention, hid⟩
    exact ⟨_, (h.mem _).2 ⟨u, source, n, t, s, hc, hmention, hid, rfl⟩, decide_eq_true rfl⟩

theorem Complete.mem_unitsOf (h : Complete d g target start node o fs c) :
    u ∈ unitsOf o.toRename ↔ ∃ f ∈ fs, f.reference.unit = u := by
  rw [unitsOf, List.mem_eraseDups, List.mem_map]
  have hperm := h.filed.toRename_perm h.sites h.cursor
  simp only [hperm.mem_iff, List.mem_map]
  constructor
  · rintro ⟨_, ⟨f, hf, rfl⟩, hunit⟩
    exact ⟨f, hf, hunit⟩
  · rintro ⟨f, hf, hunit⟩
    exact ⟨_, ⟨f, hf, rfl⟩, hunit⟩

theorem Complete.exists_compiles (h : Complete d g target start node o fs c)
    (hu : u ∈ unitsOf o.toRename) : ∃ source, Compiles d g u source := by
  obtain ⟨f, hf, rfl⟩ := h.mem_unitsOf.1 hu
  obtain ⟨v, source, n, t, s, hc, -, -, rfl⟩ := (h.mem f).1 hf
  exact ⟨source, hc⟩

/-- Nothing is replaced in a unit without references. -/
theorem Complete.isNamedBy_eq_false (h : Complete d g target start node o fs c)
    (hu : u ∉ unitsOf o.toRename) : isNamedBy fs u t = false := by
  rw [Bool.eq_false_iff]
  intro hnamed
  obtain ⟨f, hf, hsite⟩ := List.any_eq_true.1 hnamed
  refine hu (h.mem_unitsOf.2 ⟨f, hf, ?_⟩)
  exact congrArg (fun a : Site => UnitId.mk a.module a.unit) (of_decide_eq_true hsite)

/-- The references in a unit are at the places of the tokens that name the target. -/
theorem Complete.places_perm (h : Complete d g target start node o fs c)
    (hc : Compiles d g u source) :
    ((o.toRename.filter fun r => r.unit = u).map fun r => (r.site.span, r.range)).Perm
      (((sourceTokens source).filter (isNamedBy fs u)).map (placeOf source)) := by
  have hperm := (h.filed.toRename_perm h.sites h.cursor).filter fun r => decide (r.unit = u)
  refine (hperm.map _).trans ?_
  rw [List.filter_map, List.map_map]
  have hfind : ∀ f ∈ fs, f.reference.unit = u → ∃ n t s, Mentions d g u source n t s ∧
      s.id = target.id ∧ f.site = ⟨u.module, u.unit, t.span⟩ ∧
      f.reference.range = (LineIndex.ofText source).range t.span := by
    intro f hf hunit
    obtain ⟨v, source', n, t, s, hc', hmention, hid, rfl⟩ := (h.mem f).1 hf
    obtain rfl : v = u := hunit
    obtain rfl : source = source' := Option.some.inj (hc.text.symm.trans hc'.text)
    exact ⟨n, t, s, hmention, hid, rfl, rfl⟩
  refine (List.perm_ext_iff_of_nodup ?_ ?_).2 ?_
  · refine List.Nodup.map_on ?_ ((List.Nodup.of_map _ h.sites).filter _)
    intro f hf f' hf' heq
    rw [List.mem_filter] at hf hf'
    obtain ⟨n, t, s, -, -, hsite, -⟩ := hfind f hf.1 (of_decide_eq_true hf.2)
    obtain ⟨n', t', s', -, -, hsite', -⟩ := hfind f' hf'.1 (of_decide_eq_true hf'.2)
    have hspan : f.site.span = f'.site.span := congrArg Prod.fst heq
    rw [hsite, hsite'] at hspan
    have hspan : t.span = t'.span := hspan
    exact eq_of_site_eq h.sites hf.1 hf'.1 (by rw [hsite, hsite', hspan])
  · refine List.Nodup.map_on ?_ ((List.Nodup.of_map _ nodup_ids_sourceTokens).filter _)
    intro t ht t' ht' heq
    exact eq_of_span_eq (List.mem_filter.1 ht).1 (List.mem_filter.1 ht').1 (congrArg Prod.fst heq)
  · intro place
    simp only [List.mem_map, List.mem_filter]
    constructor
    · rintro ⟨f, ⟨hf, hunit⟩, rfl⟩
      obtain ⟨n, t, s, hmention, hid, hsite, hrange⟩ := hfind f hf (of_decide_eq_true hunit)
      have ht := hmention.mem_sourceTokens
      refine ⟨t, ⟨ht, (h.isNamedBy_iff hc ht).2 ⟨n, s, hmention, hid⟩⟩, ?_⟩
      exact congrArg₂ Prod.mk (congrArg Site.span hsite).symm hrange.symm
    · rintro ⟨t, ⟨ht, hnamed⟩, rfl⟩
      obtain ⟨n, s, hmention, hid⟩ := (h.isNamedBy_iff hc ht).1 hnamed
      refine ⟨_, ⟨(h.mem _).2 ⟨u, source, n, t, s, hc, hmention, hid, rfl⟩, decide_eq_true rfl⟩, rfl⟩

section
variable (hfit : d.Fit g) (hfree : CollisionFree (projectPaths d g)) {m : ModuleId}
  (htarget : KnownIn d g m target) (hdeclared : target.declaration.isSome)
  (h : Complete d g target start node o fs c)

include hfit hfree htarget hdeclared h

/-- The tokens to replace are identifiers with the name of the target. -/
theorem Complete.isNamedBy_name (hc : Compiles d g u source) (ht : t ∈ sourceTokens source)
    (hnamed : isNamedBy fs u t) : t.kind = .identifier ∧ t.text = target.name := by
  obtain ⟨n, s, hmention, hid⟩ := (h.isNamedBy_iff hc ht).1 hnamed
  obtain ⟨hkind, htext, -, -⟩ := name_of_mention hfit htarget hdeclared hfree hc hmention hid
  exact ⟨hkind, htext⟩

/-- **A rename edits every unit in which the target is mentioned.** -/
theorem Complete.renameEdit_eq (newName : String) :
    o.renameEdit (Analysis.ofGraph g) newName =
      .ok ⟨some ((unitsOf o.toRename).map fun u => (u.uri, unitEdits d fs newName u))⟩ := by
  have hwell : ∀ u ∈ unitsOf o.toRename, u.WellNamed := by
    intro u hu
    obtain ⟨source, hc⟩ := h.exists_compiles hu
    exact hfit.wellNamed u hc.listed
  have huris : ∀ u ∈ unitsOf o.toRename, (Analysis.ofGraph g).uriOfUnit u = .ok u.uri :=
    fun u _ => Analysis.uriOfUnit_eq g u
  have hedits : ∀ u ∈ unitsOf o.toRename,
      editsOf u.uri (o.toRename.filter fun r => r.unit = u) newName =
        .ok (unitEdits d fs newName u) := by
    intro u hu
    obtain ⟨source, hc⟩ := h.exists_compiles hu
    rw [unitEdits, hc.text]
    refine editsOf_eq (fun t ht hnamed => ?_) (h.places_perm hc) u.uri newName
    have hkind := (h.isNamedBy_name hfit hfree htarget hdeclared hc ht hnamed).1
    exact (isWord_of_mem ht hkind).1
  have hne : ((unitsOf o.toRename).map UnitId.uri).Nodup := by
    refine List.Nodup.map_on ?_ (nodup_unitsOf _)
    exact fun u hu v hv heq => UnitId.eq_of_uri_eq (hwell u hu) (hwell v hv) heq
  rw [renameEdit, editsOfUnits_eq huris hedits hne (List.forall_mem_nil _)]
  rfl

/-- The edits of a unit replace the tokens that name the target. -/
theorem Complete.changes {d₁ : Documents} (hfiles : d₁.files = d.files)
    (hunlocked : d₁.locks.held = []) (newName : String) (hu : u ∈ unitsOf o.toRename) :
    d₁.Changes (u.uri, unitEdits d fs newName u) u.file
      (replaceTokens (isNamedBy fs u) newName ((d.textOf? u).getD "")) := by
  obtain ⟨source, hc⟩ := h.exists_compiles hu
  rw [unitEdits, hc.text]
  refine changes_nameEdits (fun t ht hnamed => ?_) hc.text hc.sized hfiles hunlocked newName
  have hkind := (h.isNamedBy_name hfit hfree htarget hdeclared hc ht hnamed).1
  exact (isWord_of_mem ht hkind).1

/-- **The edit of a rename can be carried out.** It replaces the tokens that name the target and
changes nothing else. -/
theorem Complete.edit_renameEdit {d₁ : Documents} (hfiles : d₁.files = d.files)
    (hunlocked : d₁.locks.held = []) (newName : String) (timeout : Duration) :
    ∃ d', d₁.edit ⟨some ((unitsOf o.toRename).map fun u => (u.uri, unitEdits d fs newName u))⟩
        timeout = (.ok (unitsOf o.toRename).length, d') ∧ d'.locks.held = [] ∧
      (∀ u source, g.Lists u → d.textOf? u = some source →
        d'.textOf? u = some (replaceTokens (isNamedBy fs u) newName source)) ∧
      ∀ path, d.get? path = none → d'.get? path = none := by
  have hget : d₁.get? = d.get? := Documents.get?_of_files hfiles
  have hwell : ∀ u ∈ unitsOf o.toRename, u.WellNamed := by
    intro u hu
    obtain ⟨source, hc⟩ := h.exists_compiles hu
    exact hfit.wellNamed u hc.listed
  have hne : (unitsOf o.toRename).Pairwise fun u v => u.file.sameAs v.file = false := by
    refine (nodup_unitsOf o.toRename).imp_of_mem fun {u v} hu hv hne => ?_
    rw [Bool.eq_false_iff]
    exact fun hsame => hne ((UnitId.sameAs_file (hwell u hu) (hwell v hv)).1 hsame)
  obtain ⟨d', hedit, hheld, hchanged, hsame⟩ := Documents.edit_eq timeout
    (fun u => h.changes hfit hfree htarget hdeclared hfiles hunlocked newName) hne
  refine ⟨d', hedit, hheld.trans hunlocked, ?_, ?_⟩
  · intro u source hu htext
    have hsteps := (UnitId.toFile?_uri (hfit.wellNamed u hu)).2
    rw [← Documents.get?_of_steps (hfit.wellNamed u hu) hsteps]
    by_cases hmem : u ∈ unitsOf o.toRename
    · rw [hchanged u hmem u.file (FilePath.sameAs_refl _), htext, Option.getD_some]
    · rw [hsame u.file, hget, Documents.get?_of_steps (hfit.wellNamed u hu) hsteps, htext,
        replaceTokens_eq_self fun t _ => h.isNamedBy_eq_false hmem]
      intro v hv
      rw [Bool.eq_false_iff]
      intro hsame
      rw [(UnitId.sameAs_file (hwell v hv) (hfit.wellNamed u hu)).1 hsame] at hv
      exact hmem hv
  · intro path hnone
    rw [hsame path, hget, hnone]
    intro u hu
    rw [Bool.eq_false_iff]
    intro hsteps
    rw [FilePath.sameAs_iff, (UnitId.toFile?_uri (hwell u hu)).2] at hsteps
    obtain ⟨source, hc⟩ := h.exists_compiles hu
    have htext := Documents.get?_of_steps (d := d) (hwell u hu) hsteps.symm
    rw [hnone, hc.text] at htext
    cases htext

end

end Occurrences

/-! ## Targets -/

section
variable {d : Documents} {g : ModuleGraph} {uri : Uri} {position : Position} {u : UnitId}
  {source newName : String} {token : Token} {n : Node} {t : Token} {s : Symbol} {r : Resolved}

/-- What a rename starts from: an identifier under the cursor and the mention above it of a symbol
with a declaration, where all units that are to be searched compile. -/
structure RenameStart (d : Documents) (g : ModuleGraph) (uri : Uri) (position : Position)
    (u : UnitId) (source : String) (token : Token) (n : Node) (t : Token) (s : Symbol) : Prop where
  file : ∃ path, uri.toFile? = some path ∧ path.components = u.steps
  compiles : Compiles d g u source
  cursor : AtCursor d g u source position token n t s
  identifier : token.kind = .identifier
  declared : s.declaration.isSome
  others : ∀ v ∈ (Analysis.ofGraph g).unitsToSearch s.owner u, ∃ source, Compiles d g v source

theorem resolveIn_of_renameTargetIn (h : Analysis.renameTargetIn d g uri position = .ok r) :
    Analysis.resolveIn d g uri position = .ok r := by
  rw [Analysis.renameTargetIn] at h
  cases hresolve : Analysis.resolveIn d g uri position with
  | ok r' => rw [hresolve] at h; exact h
  | error e => rw [hresolve] at h; cases e <;> cases h

theorem checkRename_eq_ok_iff : r.checkRename = .ok () ↔
    r.token.kind = .identifier ∧ r.symbol.declaration.isSome := by
  rw [Resolved.checkRename, TokenKind.isIdentifier]
  cases hdeclared : r.symbol.declaration <;> by_cases hkind : r.token.kind = .identifier <;>
    simp [hkind]

theorem checkNewName_eq_ok_iff : checkNewName newName = .ok () ↔ isWord newName := by
  rw [checkNewName]
  cases isWord newName <;> simp

/-- A symbol under the cursor that can be renamed and whose occurrences are found is mentioned
there. -/
theorem exists_renameStart_of_ok (hfit : d.Fit g) {o : Occurrences}
    (hr : Analysis.resolveIn d g uri position = .ok r) (hcheck : r.checkRename = .ok ())
    (ho : Analysis.occurrencesIn d g r = .ok o) :
    ∃ u source n t, RenameStart d g uri position u source r.token n t r.symbol := by
  obtain ⟨path, u, source, hfile, hsteps, hc, hresolve⟩ := (resolveIn_eq_ok_iff hfit).1 hr
  obtain ⟨n, t, hat, hunit, -⟩ := resolve_eq_ok hfit hc hresolve
  obtain ⟨hidentifier, hdeclared⟩ := checkRename_eq_ok_iff.1 hcheck
  have hothers := (Occurrences.exists_occurrencesIn_iff hfit).1 ⟨o, ho⟩
  rw [hunit] at hothers
  exact ⟨u, source, n, t, ⟨path, hfile, hsteps⟩, hc, hat, hidentifier, hdeclared, hothers⟩

/-- What a rename that succeeds has done. -/
theorem renameIn_eq_ok {e : WorkspaceEdit}
    (h : Analysis.renameIn d g uri position newName = .ok e) :
    ∃ r o, isWord newName ∧ Analysis.resolveIn d g uri position = .ok r ∧
      r.checkRename = .ok () ∧ Analysis.occurrencesIn d g r = .ok o ∧
      o.renameEdit (Analysis.ofGraph g) newName = .ok e := by
  rw [Analysis.renameIn] at h
  obtain ⟨_, hname, h⟩ := Except.bind_eq_ok.1 h
  obtain ⟨r, htarget, h⟩ := Except.bind_eq_ok.1 h
  obtain ⟨_, hcheck, h⟩ := Except.bind_eq_ok.1 h
  obtain ⟨o, ho, h⟩ := Except.bind_eq_ok.1 h
  exact ⟨r, o, checkNewName_eq_ok_iff.1 hname, resolveIn_of_renameTargetIn htarget, hcheck, ho, h⟩

/-- A rename that succeeds starts from a mention under the cursor. -/
theorem exists_renameStart (hfit : d.Fit g) {e : WorkspaceEdit}
    (h : Analysis.renameIn d g uri position newName = .ok e) : isWord newName ∧
      ∃ u source token n t s, RenameStart d g uri position u source token n t s := by
  obtain ⟨r, o, hword, hr, hcheck, ho, -⟩ := renameIn_eq_ok h
  obtain ⟨u, source, n, t, hstart⟩ := exists_renameStart_of_ok hfit hr hcheck ho
  exact ⟨hword, u, source, r.token, n, t, r.symbol, hstart⟩

/-- From a mention under the cursor a rename finds all occurrences and edits them. -/
theorem RenameStart.exists_rename (hfit : d.Fit g) (hfree : CollisionFree (projectPaths d g))
    (h : RenameStart d g uri position u source token n t s) :
    ∃ r o fs c, Analysis.resolveIn d g uri position = .ok r ∧ r.symbol = s ∧
      Analysis.occurrencesIn d g r = .ok o ∧ Occurrences.Complete d g s u n.id o fs c ∧
      ∀ newName, isWord newName → Analysis.renameIn d g uri position newName =
        .ok ⟨some ((unitsOf o.toRename).map fun v =>
          (v.uri, Occurrences.unitEdits d fs newName v))⟩ := by
  obtain ⟨path, hfile, hsteps⟩ := h.file
  obtain ⟨r, hresolve, rfl, rfl⟩ := h.cursor.resolve hfit h.compiles h.declared
  have hin := (resolveIn_eq_ok_iff hfit).2 ⟨path, u, source, hfile, hsteps, h.compiles, hresolve⟩
  obtain ⟨-, -, -, hunit, -⟩ := resolve_eq_ok hfit h.compiles hresolve
  have hothers := h.others
  rw [← hunit] at hothers
  obtain ⟨o, ho⟩ := (Occurrences.exists_occurrencesIn_iff hfit).2 hothers
  obtain ⟨n', t', fs, hat, hcomplete⟩ :=
    Occurrences.exists_complete hfit hfree h.compiles hresolve h.declared ho
  obtain ⟨-, rfl, rfl, -⟩ := h.cursor.unique hat
  refine ⟨r, o, fs, _, hin, rfl, ho, hcomplete, fun newName hword => ?_⟩
  have htarget : Analysis.renameTargetIn d g uri position = .ok r := by
    rw [Analysis.renameTargetIn, hin]
    rfl
  have htargetKnown := (h.cursor.mention.known hfit h.compiles).1
  rw [Analysis.renameIn, checkNewName_eq_ok_iff.2 hword, htarget]
  simp only [Except.bind]
  rw [checkRename_eq_ok_iff.2 ⟨h.identifier, h.declared⟩, ho]
  exact hcomplete.renameEdit_eq hfit hfree htargetKnown h.declared newName

end

/-! ## Renames in a workspace -/

/-- The places that an edit changes. -/
def WorkspaceEdit.locations (e : WorkspaceEdit) : List Location :=
  (e.changes.getD []).flatMap fun change => change.2.map fun edit => ⟨change.1, edit.range⟩

/-- Whether a location is that of a token in the text at a path. -/
def Location.isAt (l : Location) (path : FilePath) (source : String) (t : Token) : Bool :=
  l.uri.toFile?.any (·.sameAs path) && decide (l.range = (LineIndex.ofText source).range t.span)

/-- A place in a unit is that of a token in the text of a unit if the units and the ranges are the
same. -/
theorem Location.isAt_uri_iff {u v : UnitId} (hwell : v.WellNamed) {path : FilePath}
    (hpath : path.components = u.steps) {range : Range} {source : String} {t : Token} :
    (⟨v.uri, range⟩ : Location).isAt path source t ↔
      v = u ∧ range = (LineIndex.ofText source).range t.span := by
  obtain ⟨hfile, hsteps⟩ := UnitId.toFile?_uri hwell
  have hsame : v.uri.toFile?.any (·.sameAs path) ↔ v = u := by
    rw [hfile, Option.any_some, FilePath.sameAs_iff, hsteps, hpath]
    exact ⟨steps_injective hwell, congrArg UnitId.steps⟩
  rw [isAt, Bool.and_eq_true, decide_eq_true_eq]
  exact and_congr_left' hsame

/-- Whether a location is that of an identifier with the given text, and of no other token. -/
def Workspace.IsNameAt (w : Workspace) (name : String) (l : Location) : Prop :=
  ∃ u source t, w.graph.Lists u ∧ w.text? u = some source ∧ w.layout.uriOf? u = some l.uri ∧
    t ∈ sourceTokens source ∧ t.kind = .identifier ∧ t.text = name ∧
    ∀ t' ∈ sourceTokens source, (LineIndex.ofText source).range t'.span = l.range ↔ t' = t

namespace Occurrences

variable {d : Documents} {g : ModuleGraph} {target : Symbol} {start u v : UnitId} {node : NodeId}
  {o : Occurrences} {fs : List Find} {c : Find} {source newName : String} {t : Token}
  {ls : List Location}

/-- A mention is at the place of a token if this token names it. -/
theorem isAt_iff (hfit : d.Fit g) {source' : String} {n : Node} {t' : Token} {s : Symbol}
    (hc : Compiles d g v source') (hmention : Mentions d g v source' n t' s)
    (htext : d.textOf? u = some source) (ht : t ∈ sourceTokens source) {path : FilePath}
    (hpath : path.components = u.steps) :
    (⟨v.uri, (LineIndex.ofText source').range t'.span⟩ : Location).isAt path source t ↔
      v = u ∧ t' = t := by
  rw [Location.isAt_uri_iff (hfit.wellNamed v hc.listed) hpath]
  refine and_congr_right ?_
  rintro rfl
  obtain rfl : source = source' := Option.some.inj (htext.symm.trans hc.text)
  exact ⟨eq_of_range_eq hmention.mem_sourceTokens ht, fun heq => heq ▸ rfl⟩

/-- The tokens at the locations of all finds are those to replace. -/
theorem Complete.isNamedBy_eq (hfit : d.Fit g) (h : Complete d g target start node o fs c)
    (hls : ∀ l, l ∈ ls ↔ ∃ f ∈ fs, locate f.reference = l) (htext : d.textOf? u = some source)
    (ht : t ∈ sourceTokens source) {path : FilePath} (hpath : path.components = u.steps) :
    isNamedBy fs u t = ls.any fun l => l.isAt path source t := by
  have hplace : ∀ f ∈ fs, decide (f.site = ⟨u.module, u.unit, t.span⟩) ↔
      (locate f.reference).isAt path source t := by
    intro f hf
    obtain ⟨v, source', n, t', s, hc, hmention, -, rfl⟩ := (h.mem f).1 hf
    rw [decide_eq_true_eq]
    exact (site_eq_iff hc hmention htext ht).trans (isAt_iff hfit hc hmention htext ht hpath).symm
  rw [Bool.eq_iff_iff, isNamedBy, List.any_eq_true, List.any_eq_true]
  constructor
  · rintro ⟨f, hf, hsite⟩
    exact ⟨_, (hls _).2 ⟨f, hf, rfl⟩, (hplace f hf).1 hsite⟩
  · rintro ⟨l, hl, hat⟩
    obtain ⟨f, hf, rfl⟩ := (hls l).1 hl
    exact ⟨f, hf, (hplace f hf).2 hat⟩

/-- The places that a rename changes in a unit are those of the tokens that name the target. -/
theorem Complete.exists_places (h : Complete d g target start node o fs c)
    (hu : u ∈ unitsOf o.toRename) (newName : String) : ∃ source, Compiles d g u source ∧
      ((unitEdits d fs newName u).map fun edit => (⟨u.uri, edit.range⟩ : Location)) =
        ((sourceTokens source).filter (isNamedBy fs u)).map fun t =>
          ⟨u.uri, (LineIndex.ofText source).range t.span⟩ := by
  obtain ⟨source, hc⟩ := h.exists_compiles hu
  refine ⟨source, hc, ?_⟩
  rw [unitEdits, hc.text]
  simp only [nameEdits, List.map_map]
  rfl

/-- A rename changes no place twice. -/
theorem Complete.nodup_places (hfit : d.Fit g) (h : Complete d g target start node o fs c) :
    ((unitsOf o.toRename).flatMap fun u => (unitEdits d fs newName u).map fun edit =>
      (⟨u.uri, edit.range⟩ : Location)).Nodup := by
  refine List.nodup_flatMap.2 ⟨?_, ?_⟩
  · intro u hu
    obtain ⟨source, -, heq⟩ := h.exists_places hu newName
    rw [heq]
    refine List.Nodup.map_on ?_ ((List.Nodup.of_map _ nodup_ids_sourceTokens).filter _)
    intro t ht t' ht' hsame
    exact eq_of_range_eq (List.mem_filter.1 ht).1 (List.mem_filter.1 ht').1
      (congrArg Location.range hsame)
  · refine (nodup_unitsOf o.toRename).imp_of_mem fun {u v} hu hv hne => ?_
    obtain ⟨_, hc⟩ := h.exists_compiles hu
    obtain ⟨_, hc'⟩ := h.exists_compiles hv
    intro l hl hl'
    obtain ⟨edit, -, rfl⟩ := List.mem_map.1 hl
    obtain ⟨edit', -, heq⟩ := List.mem_map.1 hl'
    exact hne (UnitId.eq_of_uri_eq (hfit.wellNamed u hc.listed) (hfit.wellNamed v hc'.listed)
      (congrArg Location.uri heq).symm)

/-- The places that a rename changes are the locations of all finds. -/
theorem Complete.locations_perm (hfit : d.Fit g) (h : Complete d g target start node o fs c)
    (hnodup : ls.Nodup) (hls : ∀ l, l ∈ ls ↔ ∃ f ∈ fs, locate f.reference = l) :
    (WorkspaceEdit.locations
      ⟨some ((unitsOf o.toRename).map fun u => (u.uri, unitEdits d fs newName u))⟩).Perm ls := by
  rw [WorkspaceEdit.locations, Option.getD_some, List.flatMap_map]
  refine (List.perm_ext_iff_of_nodup (h.nodup_places hfit) hnodup).2 fun l => ?_
  rw [List.mem_flatMap, hls]
  constructor
  · rintro ⟨u, hu, hl⟩
    obtain ⟨source, hc, heq⟩ := h.exists_places hu newName
    rw [heq, List.mem_map] at hl
    obtain ⟨t, ht, rfl⟩ := hl
    obtain ⟨ht, hnamed⟩ := List.mem_filter.1 ht
    obtain ⟨n, s, hmention, hid⟩ := (h.isNamedBy_iff hc ht).1 hnamed
    exact ⟨_, (h.mem _).2 ⟨u, source, n, t, s, hc, hmention, hid, rfl⟩, rfl⟩
  · rintro ⟨f, hf, rfl⟩
    obtain ⟨u, source, n, t, s, hc, hmention, hid, rfl⟩ := (h.mem f).1 hf
    have hu : u ∈ unitsOf o.toRename := h.mem_unitsOf.2 ⟨_, hf, rfl⟩
    obtain ⟨source', hc', heq⟩ := h.exists_places hu newName
    obtain rfl : source = source' := Option.some.inj (hc.text.symm.trans hc'.text)
    refine ⟨u, hu, ?_⟩
    rw [heq]
    have ht := hmention.mem_sourceTokens
    exact List.mem_map.2 ⟨t, List.mem_filter.2 ⟨ht, (h.isNamedBy_iff hc ht).2
      ⟨n, s, hmention, hid⟩⟩, rfl⟩

end Occurrences

namespace Workspace

variable {files : List SourceFile}

/-- **A rename changes exactly the places that finding references reports,** each of which is a name
of the symbol, and its edit can be carried out: it replaces these names and leaves every other byte
and every other document as it is. -/
theorem rename_applies (hfiles : ∀ f ∈ files, f.unit.WellNamed)
    (hfree : CollisionFree (projectPaths (ofFiles files).session.documents (ofFiles files).graph))
    {uri : Uri} {position : Position} {newName : String} {e : WorkspaceEdit}
    (he : ((ofFiles files).serve ((ofFiles files).analysis.rename uri position newName)).1 = .ok e)
    (timeout : Duration) :
    ∃ r ls changes d',
      ((ofFiles files).serve ((ofFiles files).analysis.resolveStrict uri position)).1 = .ok r ∧
      ((ofFiles files).serve ((ofFiles files).analysis.references uri position true)).1 = .ok ls ∧
      e.changes = some changes ∧ e.locations.Perm ls ∧ ls.Nodup ∧
      (∀ change ∈ changes, ∀ edit ∈ change.2, edit.newText = newName) ∧
      (∀ l ∈ ls, (ofFiles files).IsNameAt r.symbol.name l) ∧
      ((ofFiles files).serve ((ofFiles files).analysis.rename uri position
        newName)).2.session.documents.edit e timeout = (.ok changes.length, d') ∧
      ∀ path, d'.get? path = ((ofFiles files).session.documents.get? path).map fun source =>
        replaceTokens (fun t => ls.any fun l => l.isAt path source t) newName source := by
  have hfit := fit_ofFiles hfiles
  have husual := isUsual_ofFiles files
  obtain ⟨hkept, hheld⟩ := husual.rename_holds uri position newName
  rw [husual.serve_rename] at he
  obtain ⟨hword, u, source, token, n, t, s, hstart⟩ := exists_renameStart hfit he
  obtain ⟨r, o, fs, c, hr, rfl, ho, hcomplete, hrename⟩ := hstart.exists_rename hfit hfree
  obtain rfl := Except.ok.inj (he.symm.trans (hrename newName hword))
  obtain ⟨hknown, -⟩ := hstart.cursor.mention.known hfit hstart.compiles
  obtain ⟨ls, hls, hsorted, hmem⟩ := hcomplete.locations hfit true
  have hmem : ∀ l, l ∈ ls ↔ ∃ f ∈ fs, Occurrences.locate f.reference = l := by
    intro l
    simp only [hmem, Bool.true_or, true_and]
  have hnodup : ls.Nodup := hsorted.imp ne_of_compare_lt
  obtain ⟨d', hedit, -, htexts, hnone⟩ := hcomplete.edit_renameEdit hfit hfree hknown
    hstart.declared hkept hheld newName timeout
  refine ⟨r, ls, _, d', ?_, ?_, rfl, hcomplete.locations_perm hfit hnodup hmem, hnodup, ?_, ?_,
    ?_, ?_⟩
  · exact husual.serve_resolveStrict.trans hr
  · exact (husual.serve_references_eq_ok_iff hr).2 ⟨o, ho, hls⟩
  · intro change hchange edit hedit
    obtain ⟨v, -, rfl⟩ := List.mem_map.1 hchange
    exact Occurrences.newText_of_mem hedit
  · intro l hl
    obtain ⟨f, hf, rfl⟩ := (hmem l).1 hl
    obtain ⟨v, source', n', t', s', hc, hmention, hid, rfl⟩ := (hcomplete.mem f).1 hf
    obtain ⟨hkind, hname, -, -⟩ :=
      Occurrences.name_of_mention hfit hknown hstart.declared hfree hc hmention hid
    refine ⟨v, source', t', hc.listed, hc.text, UnitId.uriOf?_eq _,
      hmention.mem_sourceTokens, hkind, hname, fun t'' ht'' => ?_⟩
    exact ⟨fun heq => eq_of_range_eq ht'' hmention.mem_sourceTokens heq, fun heq => heq ▸ rfl⟩
  · rw [List.length_map]
    exact hedit
  · intro path
    cases hpath : (ofFiles files).session.documents.get? path with
    | none => exact hnone path hpath
    | some source' =>
      obtain ⟨v, hv, hsteps⟩ := hfit.listed path source' hpath
      have hwell := hfit.wellNamed v hv
      have htext := (Documents.get?_of_steps hwell hsteps).symm.trans hpath
      rw [Documents.get?_of_steps hwell hsteps, htexts v source' hv htext, Option.map_some]
      refine congrArg some (replaceTokens_congr fun t' ht' => ?_)
      exact hcomplete.isNamedBy_eq hfit hmem htext ht' hsteps

/-- A rename succeeds where the symbol under the cursor can be renamed and its references are
found. -/
theorem exists_rename (hfiles : ∀ f ∈ files, f.unit.WellNamed)
    (hfree : CollisionFree (projectPaths (ofFiles files).session.documents (ofFiles files).graph))
    {uri : Uri} {position : Position} {newName : String} {r : Resolved} {ls : List Location}
    (hr : ((ofFiles files).serve ((ofFiles files).analysis.resolveStrict uri position)).1 = .ok r)
    (hcheck : r.checkRename = .ok ())
    (hls : ((ofFiles files).serve ((ofFiles files).analysis.references uri position true)).1 =
      .ok ls) (hword : isWord newName) :
    ∃ e, ((ofFiles files).serve ((ofFiles files).analysis.rename uri position newName)).1 =
      .ok e := by
  have hfit := fit_ofFiles hfiles
  have husual := isUsual_ofFiles files
  rw [husual.serve_resolveStrict] at hr
  rw [husual.serve_rename]
  obtain ⟨o, ho, -⟩ := (husual.serve_references_eq_ok_iff hr).1 hls
  obtain ⟨u, source, n, t, hstart⟩ := exists_renameStart_of_ok hfit hr hcheck ho
  obtain ⟨-, o, fs, c, -, -, -, -, hrename⟩ := hstart.exists_rename hfit hfree
  exact ⟨_, hrename newName hword⟩

theorem exists_rename_callFiles : ∃ e, ((ofFiles callFiles).serve ((ofFiles callFiles).analysis.rename
    ⟨"file:///workspace/main.nav"⟩ ⟨1, 17⟩ "build")).1 = .ok e := by
  obtain ⟨r, ls, hr, hcheck, -, -, hls⟩ := exists_found_callFiles
  exact exists_rename (by decide) collisionFree_callFiles hr hcheck hls (by decide)

theorem rename_applies_callFiles : ∃ e, ∃ r : Resolved, ∃ ls changes d',
    ((ofFiles callFiles).serve ((ofFiles callFiles).analysis.rename
      ⟨"file:///workspace/main.nav"⟩ ⟨1, 17⟩ "build")).1 = .ok e ∧
    ((ofFiles callFiles).serve ((ofFiles callFiles).analysis.references
      ⟨"file:///workspace/main.nav"⟩ ⟨1, 17⟩ true)).1 = .ok ls ∧
    e.changes = some changes ∧ e.locations.Perm ls ∧
    (∀ l ∈ ls, (ofFiles callFiles).IsNameAt r.symbol.name l) ∧
    ((ofFiles callFiles).serve ((ofFiles callFiles).analysis.rename ⟨"file:///workspace/main.nav"⟩
      ⟨1, 17⟩ "build")).2.session.documents.edit e ⟨100⟩ = (.ok changes.length, d') := by
  obtain ⟨e, he⟩ := exists_rename_callFiles
  obtain ⟨r, ls, changes, d', -, hls, hchanges, hperm, -, -, hnames, hedit, -⟩ :=
    rename_applies (by decide) collisionFree_callFiles he ⟨100⟩
  exact ⟨e, r, ls, changes, d', he, hls, hchanges, hperm, hnames, hedit⟩

end Workspace

end Xref
