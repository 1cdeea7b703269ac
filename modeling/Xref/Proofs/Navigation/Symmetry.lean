import Xref.Proofs.Navigation.References

/-!
# Searches from other occurrences

Whichever occurrence of a symbol a search starts from, it finds the same occurrences: the symbol that
the node there mentions has the same owner, so the same units are searched, and the same identity
(`references_symmetric`).
-/

namespace Xref

open Binding
open Workspace (usualLayout)

section
variable {d : Documents} {g : ModuleGraph} {target : Symbol} {start v : UnitId} {node : NodeId}
  {o : Occurrences} {fs : List Occurrences.Find} {c : Occurrences.Find} {source : String} {n : Node}
  {t : Token} {s : Symbol}

/-- All units are compiled by a search that starts from another mention of a symbol if they are by a
search for it. -/
theorem compiles_unitsToSearch (hfit : d.Fit g) (hfree : CollisionFree (projectPaths d g))
    {m : ModuleId} (htarget : KnownIn d g m target) (hs : KnownIn d g v.module s)
    (hid : s.id = target.id) (hstart : ∃ source, Compiles d g start source)
    (hothers : ∀ u ∈ (Analysis.ofGraph g).unitsToSearch target.owner start,
      ∃ source, Compiles d g u source) :
    ∀ u ∈ (Analysis.ofGraph g).unitsToSearch s.owner v, ∃ source, Compiles d g u source := by
  intro u hu
  rw [owner_eq_of_id_eq hfit hfree hs htarget hid] at hu
  obtain ⟨hlists, hreaches, -⟩ := Analysis.mem_unitsToSearch.1 hu
  by_cases hsame : u = start
  · exact hsame ▸ hstart
  · exact hothers u (Analysis.mem_unitsToSearch.2 ⟨hlists, hreaches, hsame⟩)

/-- A unit that mentions a symbol is among those that are searched for it, so it compiles. -/
theorem compiles_of_mentions (hfit : d.Fit g) (hfree : CollisionFree (projectPaths d g))
    {m : ModuleId} (htarget : KnownIn d g m target) (hdeclared : target.declaration.isSome)
    (hstart : ∃ source, Compiles d g start source)
    (hothers : ∀ u ∈ (Analysis.ofGraph g).unitsToSearch target.owner start,
      ∃ source, Compiles d g u source)
    (hv : g.Lists v) (htext : d.textOf? v = some source)
    (hsize : source.utf8ByteSize ≤ Span.maxOffset) (hmention : Mentions d g v source n t s)
    (hid : s.id = target.id) : Compiles d g v source := by
  obtain ⟨hknown, -⟩ := hmention.known_of_text hfit hv htext hsize
  obtain ⟨-, -, hreaches⟩ := known_of_id_eq hfit hfree hknown htarget hid hdeclared
  have hcompiles : ∃ source, Compiles d g v source := by
    by_cases hsame : v = start
    · exact hsame ▸ hstart
    · exact hothers v (Analysis.mem_unitsToSearch.2 ⟨hv, hreaches, hsame⟩)
  obtain ⟨source', hc⟩ := hcompiles
  obtain rfl := Option.some.inj (htext.symm.trans hc.text)
  exact hc

/-- **A search may start from any mention of the symbol:** at the start of its name there is a symbol
of the same identity, and all of its occurrences are found from there. -/
theorem exists_complete_at (hfit : d.Fit g) (hfree : CollisionFree (projectPaths d g))
    {m : ModuleId} (htarget : KnownIn d g m target) (hdeclared : target.declaration.isSome)
    (hstart : ∃ source, Compiles d g start source)
    (hothers : ∀ u ∈ (Analysis.ofGraph g).unitsToSearch target.owner start,
      ∃ source, Compiles d g u source)
    (hc : Compiles d g v source) (hmention : Mentions d g v source n t s)
    (hid : s.id = target.id) :
    ∃ (r : Resolved) (o : Occurrences) (fs : List Occurrences.Find) (c : Occurrences.Find),
      Analysis.resolveIn d g v.uri ((LineIndex.ofText source).range t.span).start = .ok r ∧
      r.symbol.id = target.id ∧ Analysis.occurrencesIn d g r = .ok o ∧
      Occurrences.Complete d g r.symbol v n.id o fs c := by
  obtain ⟨hknown, -⟩ := hmention.known hfit hc
  obtain ⟨-, hsome, -⟩ := known_of_id_eq hfit hfree hknown htarget hid hdeclared
  obtain ⟨hkind, -, -, -⟩ :=
    Occurrences.name_of_mention hfit htarget hdeclared hfree hc hmention hid
  obtain ⟨r, hresolve, -, rfl⟩ := (AtCursor.of_mentions hc.sized hmention hkind).resolve hfit hc hsome
  obtain ⟨-, -, -, hunit, -⟩ := resolve_eq_ok hfit hc hresolve
  have hall := compiles_unitsToSearch hfit hfree htarget hknown hid hstart hothers
  rw [← hunit] at hall
  obtain ⟨o, ho⟩ := (Occurrences.exists_occurrencesIn_iff hfit).2 hall
  obtain ⟨n', t', fs, hat, hcomplete⟩ :=
    Occurrences.exists_complete hfit hfree hc hresolve hsome ho
  obtain ⟨-, rfl, -, -⟩ := hat.unique (AtCursor.of_mentions hc.sized hmention hkind)
  obtain ⟨hfile, hsteps⟩ := UnitId.toFile?_uri (hfit.wellNamed v hc.listed)
  exact ⟨r, o, fs, _, (resolveIn_eq_ok_iff hfit).2 ⟨_, v, source, hfile, hsteps, hc, hresolve⟩, hid,
    ho, hcomplete⟩

end

namespace Workspace

variable {files : List SourceFile}

/-- **Finding references is symmetric:** it answers with at least one place, and from the start of
every one of them it gives the same answer again. -/
theorem references_symmetric (hfiles : ∀ f ∈ files, f.unit.WellNamed)
    (hfree : CollisionFree (projectPaths (ofFiles files).session.documents (ofFiles files).graph))
    {uri : Uri} {position : Position} {r : Resolved} {ls : List Location}
    (hr : ((ofFiles files).serve ((ofFiles files).analysis.resolveStrict uri position)).1 = .ok r)
    (hdeclared : r.symbol.declaration.isSome)
    (hls : ((ofFiles files).serve ((ofFiles files).analysis.references uri position true)).1 =
      .ok ls) :
    ls ≠ [] ∧ ∀ l ∈ ls, ((ofFiles files).serve ((ofFiles files).analysis.references l.uri
      l.range.start true)).1 = .ok ls := by
  have hfit := fit_ofFiles hfiles
  have husual := isUsual_ofFiles files
  rw [husual.serve_resolveStrict] at hr
  obtain ⟨o, ho, hls⟩ := (husual.serve_references_eq_ok_iff hr).1 hls
  obtain ⟨-, u, source, -, -, hc, hresolve⟩ := (resolveIn_eq_ok_iff hfit).1 hr
  obtain ⟨-, -, -, hunit, -⟩ := resolve_eq_ok hfit hc hresolve
  have hothers := (Occurrences.exists_occurrencesIn_iff hfit).1 ⟨o, ho⟩
  rw [hunit] at hothers
  obtain ⟨n, t, fs, hat, hcomplete⟩ :=
    Occurrences.exists_complete hfit hfree hc hresolve hdeclared ho
  obtain ⟨ls', hls', hsorted, hmem⟩ := hcomplete.locations hfit true
  obtain rfl : ls = ls' := Except.ok.inj (hls.symm.trans hls')
  have hcursor := (Occurrences.mem_of_filter_eq hcomplete.cursor).1
  refine ⟨List.ne_nil_of_mem ((hmem _).2 ⟨_, hcursor, rfl, rfl⟩), fun l hl => ?_⟩
  -- The place is that of a mention, from which the search is complete as well.
  obtain ⟨f, hf, -, rfl⟩ := (hmem l).1 hl
  obtain ⟨v, source', n', t', s, hc', hmention, hid, rfl⟩ := (hcomplete.mem f).1 hf
  obtain ⟨hknown, -⟩ := hat.mention.known hfit hc
  obtain ⟨r', o', fs', c', hr', hid', ho', hcomplete'⟩ := exists_complete_at hfit hfree hknown
    hdeclared ⟨source, hc⟩ hothers hc' hmention hid
  obtain ⟨ls', hls', hsorted', hmem'⟩ := hcomplete'.locations hfit true
  refine (husual.serve_references_eq_ok_iff hr').2
    ⟨o', ho', hls'.trans (congrArg Except.ok (eq_of_mem_iff hsorted' hsorted fun l' => ?_))⟩
  simp only [hmem, hmem', Bool.true_or, true_and, ← exists_refersAt_iff hfiles hcomplete,
    ← exists_refersAt_iff hfiles hcomplete', hid']

theorem references_symmetric_callFiles : ∃ ls,
    ((ofFiles callFiles).serve ((ofFiles callFiles).analysis.references
      ⟨"file:///workspace/main.nav"⟩ ⟨1, 17⟩ true)).1 = .ok ls ∧ ls ≠ [] ∧
    ∀ l ∈ ls, ((ofFiles callFiles).serve ((ofFiles callFiles).analysis.references l.uri
      l.range.start true)).1 = .ok ls := by
  obtain ⟨r, ls, hr, -, hdeclared, -, hls⟩ := exists_found_callFiles
  exact ⟨ls, hls, references_symmetric (by decide) collisionFree_callFiles hr hdeclared hls⟩

end Workspace

end Xref
