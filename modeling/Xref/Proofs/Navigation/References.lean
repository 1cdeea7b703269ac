import Xref.Proofs.Navigation.Searches

/-!
# Finding references

The references to a symbol with a declaration are all places in the workspace where a node mentions
the symbol, each once and sorted; without definitions those are left out where the symbol is
declared (`references_exact`).
-/

namespace Xref

open Binding
open Workspace (usualLayout)

/-! ## Locations -/

namespace Occurrences

variable {d : Documents} {g : ModuleGraph} {target : Symbol} {start : UnitId} {node : NodeId}
  {o : Occurrences} {fs : List Find} {c : Find}

/-- Where a reference is. -/
def locate (r : Reference) : Location := ⟨r.unit.uri, r.range⟩

theorem locationOf_eq (r : Reference) : (Analysis.ofGraph g).locationOf r = .ok (locate r) := by
  rw [Analysis.locationOf, Analysis.uriOfUnit_eq]
  rfl

/-- Occurrences at one location are the same occurrence. -/
theorem Complete.eq_of_locate_eq (hfit : d.Fit g) (h : Complete d g target start node o fs c)
    {f f' : Find} (hf : f ∈ fs) (hf' : f' ∈ fs)
    (heq : locate f.reference = locate f'.reference) : f = f' := by
  refine eq_of_site_eq h.sites hf hf' ?_
  obtain ⟨u, source, n, t, s, hc, hmention, hid, rfl⟩ := (h.mem f).1 hf
  obtain ⟨u', source', n', t', s', hc', hmention', hid', rfl⟩ := (h.mem f').1 hf'
  have huri : u.uri = u'.uri := congrArg Location.uri heq
  have hrange : (LineIndex.ofText source).range t.span = (LineIndex.ofText source').range t'.span :=
    congrArg Location.range heq
  obtain rfl :=
    UnitId.eq_of_uri_eq (hfit.wellNamed _ hc.listed) (hfit.wellNamed _ hc'.listed) huri
  obtain rfl : source = source' := Option.some.inj (hc.text.symm.trans hc'.text)
  rw [eq_of_range_eq hmention.mem_sourceTokens hmention'.mem_sourceTokens hrange]
  rfl

/-- The locations of what is found, in order. -/
theorem locationsOf_eq (o : Occurrences) (withDefinitions : Bool) :
    (Analysis.ofGraph g).locationsOf (o.found withDefinitions) =
      .ok (((o.found withDefinitions).map locate).mergeSort fun l m => (l.compare m).isLE) := by
  rw [Analysis.locationsOf, mapM_ok (g := locate) fun r _ => locationOf_eq r]
  rfl

/-- The locations of what is found are strictly increasing, and those of the finds that are asked
for. -/
theorem Complete.locations (hfit : d.Fit g) (h : Complete d g target start node o fs c)
    (withDefinitions : Bool) :
    ∃ ls, (Analysis.ofGraph g).locationsOf (o.found withDefinitions) = .ok ls ∧
      ls.Pairwise (fun l m => l.compare m = .lt) ∧
      ∀ l, l ∈ ls ↔ ∃ f ∈ fs, (withDefinitions || !f.declared) ∧ locate f.reference = l := by
  have hperm := (h.filed.found_perm h.sites h.cursor withDefinitions).map locate
  rw [List.map_map] at hperm
  have hnodup : ((o.found withDefinitions).map locate).Nodup := by
    rw [hperm.nodup_iff]
    refine List.Nodup.map_on ?_ ((List.Nodup.of_map _ h.sites).filter _)
    intro f hf f' hf' heq
    exact h.eq_of_locate_eq hfit (List.mem_filter.1 hf).1 (List.mem_filter.1 hf').1 heq
  refine ⟨_, locationsOf_eq o withDefinitions, pairwise_mergeSort hnodup, ?_⟩
  intro l
  rw [List.mem_mergeSort, hperm.mem_iff, List.mem_map]
  constructor
  · rintro ⟨f, hf, hl⟩
    exact ⟨f, (List.mem_filter.1 hf).1, (List.mem_filter.1 hf).2, hl⟩
  · rintro ⟨f, hf, hp, hl⟩
    exact ⟨f, List.mem_filter.2 ⟨hf, hp⟩, hl⟩

end Occurrences

/-! ## References -/

/-- Whether a node of a unit that compiles mentions the symbol with the given identity, named by the
token at the location; `declared` tells whether the symbol is declared there. -/
def Workspace.RefersAt (w : Workspace) (id : SymbolId) (declared : Bool) (l : Location) : Prop :=
  ∃ u text b n a t, w.graph.Lists u ∧ w.text? u = some text ∧
    w.compiler.compile w.session.documents w.graph u text = .ok b ∧
    n ∈ b.tree.root.preorder ∧ b.mention? n.id = some a ∧ a.symbol.id = id ∧
    b.tree.token? a.name = some t ∧ w.layout.uriOf? u = some l.uri ∧
    l.range = (LineIndex.ofText text).range t.span ∧
    declared = a.symbol.isDeclaredAt u.module u.unit t.span

namespace Workspace

variable {files : List SourceFile} {l : Location}

section
variable (hfiles : ∀ f ∈ files, f.unit.WellNamed) {target : Symbol} {start : UnitId}
  {node : NodeId} {o : Occurrences} {fs : List Occurrences.Find} {c : Occurrences.Find}
  (h : Occurrences.Complete (ofFiles files).session.documents (ofFiles files).graph target start
    node o fs c)
include hfiles h

/-- The places that refer to a symbol are those that a complete search has found. -/
theorem refersAt_iff {declared : Bool} :
    (ofFiles files).RefersAt target.id declared l ↔
      ∃ f ∈ fs, f.declared = declared ∧ Occurrences.locate f.reference = l := by
  have hfit := fit_ofFiles hfiles
  constructor
  · rintro ⟨u, text, b, n, a, t, hu, htext, hb, hn, ha, hid, ht, huri, hrange, rfl⟩
    obtain ⟨hcan, rfl⟩ := (compile_eq_ok_iff hfit hu htext).1 hb
    have hc : Compiles (ofFiles files).session.documents (ofFiles files).graph u text :=
      ⟨hcan, hu, htext⟩
    obtain ⟨n', t', hnode, hname, hmention⟩ := Mentions.exists_of_mention? hfit hc ha
    obtain rfl := eq_of_node_id hmention.node hn hnode
    have htoken := Tree.token?_ofSource hmention.mem_sourceTokens
    rw [hname] at htoken
    obtain rfl : t = t' := Option.some.inj (ht.symm.trans htoken)
    refine ⟨_, (h.mem _).2 ⟨u, text, n', t, a.symbol, hc, hmention, hid, rfl⟩, rfl, ?_⟩
    have hlocation : u.uri = l.uri :=
      Option.some.inj ((UnitId.uriOf?_eq _).symm.trans huri)
    exact congrArg₂ Location.mk hlocation hrange.symm
  · rintro ⟨f, hf, rfl, rfl⟩
    obtain ⟨u, source, n, t, s, hc, hmention, hid, rfl⟩ := (h.mem f).1 hf
    refine ⟨u, source, boundUnit _ _ u source, n, _, t, hc.listed, hc.text, hc.compile_eq hfit,
      hmention.node, hmention.mention, hid, Tree.token?_ofSource hmention.mem_sourceTokens, ?_, rfl,
      rfl⟩
    exact UnitId.uriOf?_eq _

theorem exists_refersAt_iff :
    (∃ declared, (ofFiles files).RefersAt target.id declared l) ↔
      ∃ f ∈ fs, Occurrences.locate f.reference = l := by
  simp only [refersAt_iff hfiles h]
  constructor
  · rintro ⟨_, f, hf, -, hl⟩
    exact ⟨f, hf, hl⟩
  · rintro ⟨f, hf, hl⟩
    exact ⟨f.declared, f, hf, rfl, hl⟩

end

open Classical in
/-- **Finding references is exact and complete over the whole workspace.** With definitions it
answers with every place that refers to the symbol, in order and without repetition; without them it
leaves out exactly the places where the symbol is declared. -/
theorem references_exact (hfiles : ∀ f ∈ files, f.unit.WellNamed)
    (hfree : CollisionFree (projectPaths (ofFiles files).session.documents (ofFiles files).graph))
    {uri : Uri} {position : Position} {r : Resolved} {ls : List Location}
    (hr : ((ofFiles files).serve ((ofFiles files).analysis.resolveStrict uri position)).1 = .ok r)
    (hdeclared : r.symbol.declaration.isSome)
    (hls : ((ofFiles files).serve ((ofFiles files).analysis.references uri position true)).1 =
      .ok ls) :
    ls.Pairwise (fun l m => l.compare m = .lt) ∧
      (∀ l, l ∈ ls ↔ ∃ declared, (ofFiles files).RefersAt r.symbol.id declared l) ∧
      ((ofFiles files).serve ((ofFiles files).analysis.references uri position false)).1 =
        .ok (ls.filter fun l => ¬ (ofFiles files).RefersAt r.symbol.id true l) := by
  have hfit := fit_ofFiles hfiles
  have husual := isUsual_ofFiles files
  rw [husual.serve_resolveStrict] at hr
  obtain ⟨o, ho, hls⟩ := (husual.serve_references_eq_ok_iff hr).1 hls
  obtain ⟨-, u, source, -, -, hc, hresolve⟩ := (resolveIn_eq_ok_iff hfit).1 hr
  obtain ⟨n, t, fs, -, hcomplete⟩ :=
    Occurrences.exists_complete hfit hfree hc hresolve hdeclared ho
  obtain ⟨ls₁, hls₁, hsorted₁, hmem₁⟩ := hcomplete.locations hfit true
  obtain ⟨ls₂, hls₂, hsorted₂, hmem₂⟩ := hcomplete.locations hfit false
  obtain rfl : ls = ls₁ := Except.ok.inj (hls.symm.trans hls₁)
  refine ⟨hsorted₁, ?_, (husual.serve_references_eq_ok_iff hr).2
    ⟨o, ho, hls₂.trans (congrArg Except.ok ?_)⟩⟩
  · intro l
    simp only [hmem₁, exists_refersAt_iff hfiles hcomplete, Bool.true_or, true_and]
  · refine eq_of_mem_iff hsorted₂ (hsorted₁.filter _) fun l => ?_
    rw [hmem₂, List.mem_filter, hmem₁, decide_eq_true_eq, refersAt_iff hfiles hcomplete]
    constructor
    · rintro ⟨f, hf, hdeclared', hl⟩
      refine ⟨⟨f, hf, rfl, hl⟩, ?_⟩
      rintro ⟨f', hf', hdeclared'', hl'⟩
      obtain rfl := hcomplete.eq_of_locate_eq hfit hf hf' (hl.trans hl'.symm)
      rw [hdeclared''] at hdeclared'
      cases hdeclared'
    · rintro ⟨⟨f, hf, -, hl⟩, hnot⟩
      refine ⟨f, hf, ?_, hl⟩
      rw [Bool.false_or, Bool.not_eq_true', ← Bool.not_eq_true]
      exact fun hdeclared' => hnot ⟨f, hf, hdeclared', hl⟩

/-- A module with a function, and one that calls it. -/
def callFiles : List SourceFile :=
  [⟨⟨⟨"lib"⟩, "lib.nav"⟩, "fn make() { make(); }\n"⟩,
    ⟨⟨.current, "main.nav"⟩, "import lib;\nfn main() { lib:make(); }\n"⟩]

theorem collisionFree_callFiles : CollisionFree (projectPaths
    (ofFiles callFiles).session.documents (ofFiles callFiles).graph) := by decide +kernel

/-- From the name in the call the function is found, and its references are. -/
theorem exists_found_callFiles : ∃ r ls,
    ((ofFiles callFiles).serve ((ofFiles callFiles).analysis.resolveStrict
      ⟨"file:///workspace/main.nav"⟩ ⟨1, 17⟩)).1 = .ok r ∧
    r.checkRename = .ok () ∧ r.symbol.declaration.isSome ∧ r.symbol.name = "make" ∧
    ((ofFiles callFiles).serve ((ofFiles callFiles).analysis.references
      ⟨"file:///workspace/main.nav"⟩ ⟨1, 17⟩ true)).1 = .ok ls := by
  have hresolve : ((ofFiles callFiles).serve ((ofFiles callFiles).analysis.resolveStrict
      ⟨"file:///workspace/main.nav"⟩ ⟨1, 17⟩)).1.toOption.any fun r =>
        decide (r.checkRename = .ok () ∧ r.symbol.declaration.isSome ∧ r.symbol.name = "make") := by
    decide +kernel
  have hreferences : ((ofFiles callFiles).serve ((ofFiles callFiles).analysis.references
      ⟨"file:///workspace/main.nav"⟩ ⟨1, 17⟩ true)).1.toOption.any fun _ => true := by
    decide +kernel
  obtain ⟨r, hr, hproperties⟩ := exists_ok_of_any hresolve
  obtain ⟨hcheck, hdeclared, hname⟩ := of_decide_eq_true hproperties
  obtain ⟨ls, hls, -⟩ := exists_ok_of_any hreferences
  exact ⟨r, ls, hr, hcheck, hdeclared, hname, hls⟩

theorem references_exact_callFiles : ∃ r ls,
    ((ofFiles callFiles).serve ((ofFiles callFiles).analysis.resolveStrict
      ⟨"file:///workspace/main.nav"⟩ ⟨1, 17⟩)).1 = .ok r ∧
    ((ofFiles callFiles).serve ((ofFiles callFiles).analysis.references
      ⟨"file:///workspace/main.nav"⟩ ⟨1, 17⟩ true)).1 = .ok ls ∧
    ls.Pairwise (fun l m => l.compare m = .lt) ∧
    ∀ l, l ∈ ls ↔ ∃ declared, (ofFiles callFiles).RefersAt r.symbol.id declared l := by
  obtain ⟨r, ls, hr, -, hdeclared, -, hls⟩ := exists_found_callFiles
  obtain ⟨hsorted, hmem, -⟩ :=
    references_exact (by decide) collisionFree_callFiles hr hdeclared hls
  exact ⟨r, ls, hr, hls, hsorted, hmem⟩

end Workspace

end Xref
