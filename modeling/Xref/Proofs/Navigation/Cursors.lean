import Xref.Proofs.Navigation.Renames

/-!
# What a rename does under the cursor

A rename starts from the innermost node above the cursor that mentions something. It changes the
token under the cursor exactly if this token is the one by which that node mentions the symbol
(`rename_editsCursor_iff`). An identifier that mentions nothing, or the name of a module before a
colon, lies below such a node without naming what it mentions; a rename there changes other tokens
only (`not_editsCursor_strayFiles`).
-/

namespace Xref

open Binding
open Workspace (usualLayout)

namespace Workspace

/-! ## Definitions -/

/-- The path and the text of a file, and the token under a cursor in it. -/
def underCursor? (w : Workspace) (uri : Uri) (position : Position) :
    Option (FilePath × String × TokenPath) :=
  uri.toFile?.bind fun path => (w.session.documents.get? path).bind fun source =>
    ((LineIndex.ofText source).offset? position).bind fun offset =>
      ((parse source).toOption.bind fun tree => (tree.locate offset).toOption).map fun place =>
        (path, source, place)

/-- Whether an edit changes the token under a cursor. -/
def EditsCursor (w : Workspace) (uri : Uri) (position : Position) (e : WorkspaceEdit) : Prop :=
  ∃ path source place, w.underCursor? uri position = some (path, source, place) ∧
    ∃ l ∈ e.locations, l.isAt path source place.token

/-- Whether the token under a cursor is the one that names what the innermost mention above it
mentions. -/
def namesAtCursor (w : Workspace) (uri : Uri) (position : Position) : Bool :=
  (w.underCursor? uri position).any fun (path, source, place) =>
    (w.layout.unitAt? path).any fun u =>
      (w.compiler.compile w.session.documents w.graph u source).toOption.any fun b =>
        (b.innermost? place).any fun (_, a) => a.name == place.token.id

end Workspace

/-! ## The innermost mention -/

section
variable {d : Documents} {g : ModuleGraph} {uri : Uri} {position : Position} {u : UnitId}
  {source newName : String} {token : Token} {n : Node} {t : Token} {s : Symbol}

/-- A node that mentions something by the token under the cursor is the innermost one. -/
theorem AtCursor.eq_of_mentions (h : AtCursor d g u source position token n t s) {n' : Node}
    {s' : Symbol} (h' : Mentions d g u source n' token s') : t = token := by
  obtain ⟨offset, ancestors, -, hleads, -, hinner⟩ := h.path
  obtain ⟨m, hlast, hm⟩ := hleads.childToken_getLast
  have hids : ((Tree.ofSource source).root.tokens.map Token.id).Nodup := by
    rw [Tree.tokens_root]
    exact nodup_ids_sourceTokens
  have hmem := hleads.mem_preorder (List.mem_of_getLast? hlast)
  obtain rfl : m = n' := Node.parent_unique hids hmem h'.node hm h'.token rfl
  have hfirst := h'.innermost? hlast
  rw [hinner] at hfirst
  have hname := congrArg Mention.name (Prod.mk.inj (Option.some.inj hfirst)).2
  exact eq_of_id_eq h.mention.mem_sourceTokens h'.mem_sourceTokens hname

end

/-! ## Places that a rename changes -/

theorem mem_of_mem_dropEqualSpans {l : List (Span × Range)} {place : Span × Range}
    (h : place ∈ dropEqualSpans l) : place ∈ l := by
  induction l using dropEqualSpans.induct with
  | case1 =>
    rw [dropEqualSpans] at h
    cases h
  | case2 a rest ih =>
    rw [dropEqualSpans] at h
    rcases List.mem_cons.1 h with rfl | h
    · exact List.mem_cons_self
    · exact List.mem_cons_of_mem _ ((List.dropWhile_suffix _).subset (ih h))

theorem exists_mem_dropEqualSpans {l : List (Span × Range)} {place : Span × Range}
    (h : place ∈ l) : ∃ other ∈ dropEqualSpans l, other.1 = place.1 := by
  induction l using dropEqualSpans.induct with
  | case1 => cases h
  | case2 a rest ih =>
    rw [dropEqualSpans]
    rcases List.mem_cons.1 h with rfl | h
    · exact ⟨_, List.mem_cons_self, rfl⟩
    · rw [← List.takeWhile_append_dropWhile (p := fun b => b.1 == a.1) (l := rest),
        List.mem_append] at h
      rcases h with h | h
      · have heq := List.mem_takeWhile_imp h
        exact ⟨a, List.mem_cons_self, (eq_of_beq heq).symm⟩
      · obtain ⟨other, hother, heq⟩ := ih h
        exact ⟨other, List.mem_cons_of_mem _ hother, heq⟩

/-- Every place is that of a reference. -/
theorem exists_of_mem_placesOf {refs : List Reference} {place : Span × Range}
    (h : place ∈ placesOf refs) : ∃ r ∈ refs, (r.site.span, r.range) = place := by
  have hmem := mem_of_mem_dropEqualSpans h
  rwa [List.mem_mergeSort, List.mem_map] at hmem

/-- Every reference has a place with its span. -/
theorem exists_mem_placesOf {refs : List Reference} {r : Reference} (hr : r ∈ refs) :
    ∃ place ∈ placesOf refs, place.1 = r.site.span := by
  have hmem := List.mem_map_of_mem (f := fun r => (r.site.span, r.range)) hr
  exact exists_mem_dropEqualSpans (List.mem_mergeSort.2 hmem)

theorem mem_locations_addEdits {uri : Uri} {edits : List TextEdit}
    {changes : List (Uri × List TextEdit)} {l : Location} :
    l ∈ WorkspaceEdit.locations ⟨some (addEdits uri edits changes)⟩ ↔
      l ∈ WorkspaceEdit.locations ⟨some changes⟩ ∨
        l.uri = uri ∧ ∃ edit ∈ edits, edit.range = l.range := by
  have hentry : ∀ (u : Uri) (es : List TextEdit),
      l ∈ es.map (fun edit => (⟨u, edit.range⟩ : Location)) ↔
        l.uri = u ∧ ∃ edit ∈ es, edit.range = l.range := by
    intro u es
    rw [List.mem_map]
    constructor
    · rintro ⟨edit, hedit, rfl⟩
      exact ⟨rfl, edit, hedit, rfl⟩
    · rintro ⟨rfl, edit, hedit, hrange⟩
      exact ⟨edit, hedit, by rw [hrange]⟩
  simp only [WorkspaceEdit.locations, Option.getD_some]
  induction changes with
  | nil =>
    rw [addEdits, List.flatMap_cons, List.flatMap_nil, List.append_nil, hentry]
    simp
  | cons change changes ih =>
    obtain ⟨u, es⟩ := change
    rw [addEdits]
    split
    · rename_i heq
      subst heq
      rw [List.flatMap_cons, List.flatMap_cons, List.mem_append, List.mem_append, hentry, hentry]
      simp only [List.mem_append, or_and_right, exists_or, and_or_left]
      exact or_right_comm
    · rw [List.flatMap_cons, List.flatMap_cons, List.mem_append, List.mem_append, or_assoc]
      exact or_congr_right ih

theorem editsOf_eq_ok {uri : Uri} {refs : List Reference} {newName : String}
    {edits : List TextEdit} (h : editsOf uri refs newName = .ok edits) :
    edits = (placesOf refs).map fun place => ⟨place.2, newName⟩ := by
  rw [editsOf] at h
  split at h
  · cases h
  · exact (Except.ok.inj h).symm

/-- The places that the edits of several units change are those of their references. -/
theorem mem_locations_editsOfUnits {a : Analysis} {refs : List Reference} {newName : String}
    {units : List UnitId} {changes changes' : List (Uri × List TextEdit)} {l : Location}
    (h : editsOfUnits a refs newName units changes = .ok changes') :
    l ∈ WorkspaceEdit.locations ⟨some changes'⟩ ↔ l ∈ WorkspaceEdit.locations ⟨some changes⟩ ∨
      ∃ u ∈ units, a.uriOfUnit u = .ok l.uri ∧
        ∃ place ∈ placesOf (refs.filter fun r => r.unit = u), place.2 = l.range := by
  induction units generalizing changes with
  | nil =>
    obtain rfl := Except.ok.inj h
    simp
  | cons u units ih =>
    rw [editsOfUnits] at h
    obtain ⟨uri, huri, h⟩ := Except.bind_eq_ok.1 h
    obtain ⟨edits, hedits, h⟩ := Except.bind_eq_ok.1 h
    rw [ih h, mem_locations_addEdits, editsOf_eq_ok hedits, or_assoc, List.exists_mem_cons_iff,
      huri]
    refine or_congr_right (or_congr_left ?_)
    simp only [Except.ok.injEq, List.mem_map, exists_exists_and_eq_and]
    exact and_congr_left' eq_comm

theorem Reference.site_eq {q r : Reference} (hunit : q.unit = r.unit)
    (hspan : q.site.span = r.site.span) : q.site = r.site := by
  obtain ⟨hmodule, hname⟩ := UnitId.mk.inj hunit
  show Site.mk q.site.module q.site.unit q.site.span = _
  rw [hmodule, hname, hspan]

/-- Every place that a rename changes is that of an occurrence, and every occurrence is at one of
them. -/
theorem Occurrences.locations_renameEdit {g : ModuleGraph} {o : Occurrences} {newName : String}
    {e : WorkspaceEdit} (h : o.renameEdit (Analysis.ofGraph g) newName = .ok e) :
    (∀ l ∈ e.locations, ∃ r ∈ o.toRename, locate r = l) ∧
      ∀ r ∈ o.toRename, ∃ q ∈ o.toRename, q.site = r.site ∧ locate q ∈ e.locations := by
  rw [renameEdit] at h
  obtain ⟨changes, hchanges, rfl⟩ := Except.map_eq_ok.1 h
  have hmem : ∀ l, l ∈ WorkspaceEdit.locations ⟨some changes⟩ ↔ ∃ u ∈ unitsOf o.toRename,
      (Analysis.ofGraph g).uriOfUnit u = .ok l.uri ∧
        ∃ place ∈ placesOf (o.toRename.filter fun r => r.unit = u), place.2 = l.range := by
    intro l
    rw [mem_locations_editsOfUnits hchanges]
    simp [WorkspaceEdit.locations]
  constructor
  · intro l hl
    obtain ⟨u, -, hu, place, hplace, hrange⟩ := (hmem l).1 hl
    obtain ⟨r, hr, rfl⟩ := exists_of_mem_placesOf hplace
    obtain ⟨hr, hunit⟩ := List.mem_filter.1 hr
    have hunit : r.unit = u := of_decide_eq_true hunit
    rw [← hunit, Analysis.uriOfUnit_eq] at hu
    exact ⟨r, hr, congrArg₂ Location.mk (Except.ok.inj hu) hrange⟩
  · intro r hr
    have hfilter : r ∈ o.toRename.filter fun q => q.unit = r.unit :=
      List.mem_filter.2 ⟨hr, decide_eq_true rfl⟩
    obtain ⟨_, hplace, hspan⟩ := exists_mem_placesOf hfilter
    obtain ⟨q, hq, rfl⟩ := exists_of_mem_placesOf hplace
    obtain ⟨hq, hunit⟩ := List.mem_filter.1 hq
    have hunit : q.unit = r.unit := of_decide_eq_true hunit
    refine ⟨q, hq, ?_, (hmem _).2 ⟨r.unit, ?_, ?_, _, hplace, rfl⟩⟩
    · exact Reference.site_eq hunit hspan
    · rw [unitsOf, List.mem_eraseDups]
      exact List.mem_map_of_mem hr
    · rw [Analysis.uriOfUnit_eq, ← hunit]
      rfl

/-! ## The token under the cursor -/

section
variable {d : Documents} {g : ModuleGraph} {uri : Uri} {position : Position} {newName : String}
  {e : WorkspaceEdit}

/-- A rename changes the token under the cursor exactly if it names what the innermost mention above
it mentions. -/
theorem edits_token_iff (hfit : d.Fit g)
    (he : Analysis.renameIn d g uri position newName = .ok e) :
    ∃ path u source offset place n a, uri.toFile? = some path ∧ path.components = u.steps ∧
      Compiles d g u source ∧ (LineIndex.ofText source).offset? position = some offset ∧
      (Tree.ofSource source).locate offset = .ok place ∧
      (boundUnit d g u source).innermost? place = some (n, a) ∧
      ((∃ l ∈ e.locations, l.isAt path source place.token) ↔ a.name = place.token.id) := by
  obtain ⟨r, o, -, hr, hcheck, ho, hedit⟩ := renameIn_eq_ok he
  obtain ⟨path, u, source, hfile, hsteps, hc, hresolve⟩ := (resolveIn_eq_ok_iff hfit).1 hr
  obtain ⟨-, hdeclared⟩ := checkRename_eq_ok_iff.1 hcheck
  obtain ⟨n, t, fs, hat, hfound, -⟩ :=
    Occurrences.exists_found hfit hc hresolve hdeclared ho
  obtain ⟨offset, ancestors, hoffset, hleads, hcovers, hinner⟩ := hat.path
  have hlocate : (Tree.ofSource source).locate offset = .ok ⟨ancestors, r.token⟩ :=
    Tree.locate_eq_ok_iff.2 ⟨hleads, hcovers⟩
  have htoken : r.token ∈ sourceTokens source := by
    rw [← Tree.tokens_root]
    exact hleads.mem_tokens
  have hperm := hfound.filed.toRename_perm hfound.sites hfound.cursor
  have hmem : ∀ q ∈ o.toRename, ∃ f ∈ fs, f.inRole Occurrences.Find.renameRole = q :=
    fun q hq => List.mem_map.1 (hperm.mem_iff.1 hq)
  obtain ⟨hsound, hcomplete⟩ := Occurrences.locations_renameEdit hedit
  refine ⟨path, u, source, offset, ⟨ancestors, r.token⟩, n, _, hfile, hsteps, hc, hoffset, hlocate,
    hinner, ?_⟩
  constructor
  · rintro ⟨l, hl, hlat⟩
    obtain ⟨q, hq, rfl⟩ := hsound l hl
    obtain ⟨f, hf, rfl⟩ := hmem q hq
    obtain ⟨v, source', n', t', s', hc', hmention, -, rfl⟩ := hfound.sound f hf
    obtain ⟨rfl, rfl⟩ :=
      (Occurrences.isAt_iff hfit hc' hmention hc.text htoken hsteps).1 hlat
    obtain rfl : source = source' := Option.some.inj (hc.text.symm.trans hc'.text)
    exact congrArg Token.id (hat.eq_of_mentions hmention)
  · intro hname
    obtain rfl : t = r.token := eq_of_id_eq hat.mention.mem_sourceTokens htoken hname
    have hcursor := (Occurrences.mem_of_filter_eq hfound.cursor).1
    obtain ⟨q, hq, hsite, hl⟩ :=
      hcomplete _ (hperm.mem_iff.2 (List.mem_map_of_mem hcursor))
    obtain ⟨f, hf, rfl⟩ := hmem q hq
    obtain rfl := Occurrences.eq_of_site_eq hfound.sites hf hcursor hsite
    exact ⟨_, hl, (Location.isAt_uri_iff (hfit.wellNamed u hc.listed) hsteps).2 ⟨rfl, rfl⟩⟩

end

namespace Workspace

variable {files : List SourceFile} {uri : Uri} {position : Position} {newName : String}
  {e : WorkspaceEdit}

/-- Where a rename succeeds there is a token under the cursor. -/
theorem exists_underCursor (hfiles : ∀ f ∈ files, f.unit.WellNamed)
    (he : ((ofFiles files).serve ((ofFiles files).analysis.rename uri position newName)).1 =
      .ok e) :
    ∃ path source place, (ofFiles files).underCursor? uri position = some (path, source, place) ∧
      ((∃ l ∈ e.locations, l.isAt path source place.token) ↔
        (ofFiles files).namesAtCursor uri position) := by
  have hfit := fit_ofFiles hfiles
  rw [(isUsual_ofFiles files).serve_rename] at he
  obtain ⟨path, u, source, offset, place, n, a, hfile, hsteps, hc, hoffset, hlocate, hinner, hiff⟩ :=
    edits_token_iff hfit he
  have hget : (ofFiles files).session.documents.get? path = some source :=
    (Documents.get?_of_steps (hfit.wellNamed u hc.listed) hsteps).trans hc.text
  have hunder : (ofFiles files).underCursor? uri position = some (path, source, place) := by
    rw [underCursor?, hfile, Option.bind_some, hget, Option.bind_some, hoffset, Option.bind_some,
      parse_eq_ok hc.sized]
    show ((Tree.ofSource source).locate offset).toOption.map _ = _
    rw [hlocate]
    rfl
  have hunit : (ofFiles files).layout.unitAt? path = some u := unitAt?_of_components hsteps
  have hcompile : (ofFiles files).compiler.compile (ofFiles files).session.documents
      (ofFiles files).graph u source = .ok (boundUnit _ _ u source) := hc.compile_eq hfit
  have hnames : (ofFiles files).namesAtCursor uri position = (a.name == place.token.id) := by
    rw [namesAtCursor, hunder]
    show ((ofFiles files).layout.unitAt? path).any _ = _
    rw [hunit, Option.any_some, hcompile]
    show ((boundUnit _ _ u source).innermost? place).any _ = _
    rw [hinner]
    rfl
  rw [hnames, beq_iff_eq]
  exact ⟨path, source, place, hunder, hiff⟩

/-- **A rename changes the token under the cursor exactly if it names what is renamed there.** -/
theorem rename_editsCursor_iff (hfiles : ∀ f ∈ files, f.unit.WellNamed)
    (he : ((ofFiles files).serve ((ofFiles files).analysis.rename uri position newName)).1 =
      .ok e) :
    (ofFiles files).EditsCursor uri position e ↔ (ofFiles files).namesAtCursor uri position := by
  obtain ⟨path, source, place, hunder, hiff⟩ := exists_underCursor hfiles he
  rw [← hiff, EditsCursor, hunder]
  constructor
  · rintro ⟨_, _, _, heq, hl⟩
    obtain ⟨rfl, rfl, rfl⟩ : path = _ ∧ source = _ ∧ place = _ := by simpa using heq
    exact hl
  · exact fun hl => ⟨path, source, place, rfl, hl⟩

theorem rename_editsCursor_callFiles : ∃ e,
    ((ofFiles callFiles).serve ((ofFiles callFiles).analysis.rename
      ⟨"file:///workspace/main.nav"⟩ ⟨1, 17⟩ "build")).1 = .ok e ∧
    (ofFiles callFiles).EditsCursor ⟨"file:///workspace/main.nav"⟩ ⟨1, 17⟩ e := by
  obtain ⟨e, he⟩ := exists_rename_callFiles
  exact ⟨e, he, (rename_editsCursor_iff (by decide) he).2 (by decide +kernel)⟩

/-- A file with a function that uses a name which is not declared. -/
def strayFiles : List SourceFile := [⟨⟨.current, "a.nav"⟩, "fn f(){x;}"⟩]

/-- The cursor is on a name that mentions nothing, and the function around it is renamed. -/
theorem not_editsCursor_strayFiles : ∃ e,
    ((ofFiles strayFiles).serve ((ofFiles strayFiles).analysis.rename
      ⟨"file:///workspace/a.nav"⟩ ⟨0, 7⟩ "g")).1 = .ok e ∧
    ¬ (ofFiles strayFiles).EditsCursor ⟨"file:///workspace/a.nav"⟩ ⟨0, 7⟩ e := by
  have hword : isWord "g" := by decide
  have hresolve : ((ofFiles strayFiles).serve ((ofFiles strayFiles).analysis.resolveStrict
      ⟨"file:///workspace/a.nav"⟩ ⟨0, 7⟩)).1.toOption.any
        fun r => decide (r.checkRename = .ok ()) := by decide +kernel
  have hreferences : ((ofFiles strayFiles).serve ((ofFiles strayFiles).analysis.references
      ⟨"file:///workspace/a.nav"⟩ ⟨0, 7⟩ true)).1.toOption.any fun _ => true := by
    decide +kernel
  obtain ⟨r, hr, hcheck⟩ := exists_ok_of_any hresolve
  obtain ⟨ls, hls, -⟩ := exists_ok_of_any hreferences
  obtain ⟨e, he⟩ :=
    exists_rename (by decide) (by decide +kernel) hr (of_decide_eq_true hcheck) hls hword
  refine ⟨e, he, ?_⟩
  obtain ⟨path, source, place, hunder, hiff⟩ := exists_underCursor (by decide) he
  rintro ⟨path', source', place', hunder', hl⟩
  obtain ⟨rfl, rfl, rfl⟩ : path = path' ∧ source = source' ∧ place = place' := by
    simpa using hunder.symm.trans hunder'
  have hnames : (ofFiles strayFiles).namesAtCursor ⟨"file:///workspace/a.nav"⟩ ⟨0, 7⟩ = false := by
    decide +kernel
  rw [hiff.1 hl] at hnames
  cases hnames

end Workspace

end Xref
