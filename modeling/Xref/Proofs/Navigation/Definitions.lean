import Xref.Proofs.Binding.Origins
import Xref.Proofs.Navigation.Symmetry
import Xref.Proofs.Syntax.Building

/-!
# Going to a definition

A symbol that has a declaration is mentioned there as the very same symbol (`exists_declares`). So
the place that a request for the definition answers with is one of the references, the one that is
left out without definitions, and from there the request gives the same answer again
(`definition_agrees`).
-/

namespace Xref

open Binding
open Workspace (usualLayout)

namespace Binding

variable {d : Documents} {g : ModuleGraph} {u : UnitId} {source : String} {n : Node} {t : Token}
  {s : Symbol}

/-! ## Declarations in a project -/

/-- Whether a node of a unit of the project declares a symbol: it mentions the symbol, and the
declaration of the symbol is the token that names it there. -/
structure Declares (d : Documents) (g : ModuleGraph) (u : UnitId) (source : String) (n : Node)
    (t : Token) (s : Symbol) : Prop extends Mentions d g u source n t s where
  listed : g.Lists u
  text : d.textOf? u = some source
  sized : source.utf8ByteSize ≤ Span.maxOffset
  declaration : s.declaration = some ⟨u.unit, t.span⟩
  owner : s.owner = u.module

/-- Whether a symbol is declared by a node, if it has a declaration. -/
def IsDeclared (d : Documents) (g : ModuleGraph) (s : Symbol) : Prop :=
  s.declaration.isSome → ∃ u source n t, Declares d g u source n t s

theorem isDeclared_of_isDeclaration (hfit : d.Fit g) (hu : g.Lists u)
    (htext : d.textOf? u = some source) (hsize : source.utf8ByteSize ≤ Span.maxOffset)
    {a : NodeId × Mention}
    (ha : a ∈ bindTree (contextIn d g u source) (.ofSource source))
    (h : IsDeclaration (contextIn d g u source) source a) : IsDeclared d g a.2.symbol := by
  obtain ⟨t, ht, hid, hdeclaration, howner⟩ := h
  obtain ⟨n, t', -, hid', hmention⟩ :=
    Mentions.exists_of_text hfit hu htext hsize (mention?_iff.2 ha)
  obtain rfl := eq_of_id_eq hmention.mem_sourceTokens ht (hid'.trans hid.symm)
  exact fun _ => ⟨u, source, n, t', hmention, hu, htext, hsize, hdeclaration, howner⟩

/-- What a module declares is declared by its units. -/
theorem goodScope_isDeclared (hfit : d.Fit g) {m : ModuleId} (hsized : Sized d g m) :
    GoodScope (IsDeclared d g) (scopeOf d g m) := by
  intro item hitem
  obtain ⟨unit, text, n, hlists, htext, hn, hitem⟩ := exists_of_mem_scopeOf hfit hitem
  have hnote : ∀ a ∈ itemNotes n item, IsDeclared d g a.2.symbol := fun a ha =>
    isDeclared_of_isDeclaration hfit hlists htext (hsized unit hlists text htext)
      (itemNotes_mem_bindTree hn hitem ha)
      (isDeclaration_itemNotes (Node.mem_preorder_child hn) hitem ha)
  refine ⟨hnote _ List.mem_cons_self, fun f hf => ?_⟩
  exact hnote _ (List.mem_cons_of_mem _ (List.mem_reverse.2 (List.mem_map_of_mem hf)))

/-- **A symbol that is mentioned is mentioned at its declaration,** if it has one. -/
theorem Mentions.exists_declares (hfit : d.Fit g) (hc : Compiles d g u source)
    (h : Mentions d g u source n t s) (hdeclared : s.declaration.isSome) :
    ∃ v text k name, Declares d g v text k name s := by
  have hv : (contextIn d g u source).visible.Good (IsDeclared d g) := by
    refine ⟨goodScope_isDeclared hfit hc.own, fun scope hscope => ?_⟩
    obtain ⟨m, hm, rfl⟩ := List.mem_map.1 hscope
    exact goodScope_isDeclared hfit (hc.imports m hm)
  have hnone : ∀ symbol : Symbol, symbol.declaration = none → IsDeclared d g symbol := by
    intro symbol hsymbol hsome
    rw [hsymbol] at hsome
    cases hsome
  have hall := bindTree_settled hnone hv fun a ha =>
    isDeclared_of_isDeclaration hfit hc.listed hc.text hc.sized ha
  exact hall _ (mention?_iff.1 h.mention) hdeclared

namespace Declares

theorem isDeclaredAt (h : Declares d g u source n t s) : s.isDeclaredAt u.module u.unit t.span := by
  rw [Symbol.isDeclaredAt, h.declaration, h.owner]
  simp

/-- The declaring token is an identifier with the name of the symbol. -/
theorem name (hfit : d.Fit g) (h : Declares d g u source n t s) :
    t.kind = .identifier ∧ t.text = s.name :=
  (h.known_of_text hfit h.listed h.text h.sized).2 (by rw [h.declaration]; rfl)

end Declares

end Binding

namespace Analysis

variable {d : Documents} {g : ModuleGraph} {uri : Uri} {position : Position}

/-! ## The answer to a request for a definition -/

/-- Where a declaration in a module is as the documents have it. -/
def declarationIn (d : Documents) (g : ModuleGraph) (owner : ModuleId) (declaration : Declaration) :
    Except RequestError (List Location) :=
  let unit : UnitId := ⟨owner, declaration.unit⟩
  ((ofGraph g).uriOfUnit unit).bind fun uri =>
    (((d.content (usualLayout.pathOf unit)).mapError .ofDocument).bind fun text =>
      .ok ((LineIndex.ofText text).range declaration.span)).bind fun range => .ok [⟨uri, range⟩]

/-- The declaration of the symbol under the cursor as the documents have it. -/
def definitionIn (d : Documents) (g : ModuleGraph) (uri : Uri) (position : Position) :
    Except RequestError (List Location) :=
  (resolveIn d g uri position).bind fun r =>
    r.symbol.declaration.elim (.ok []) (declarationIn d g r.symbol.owner)

theorem definition_answers (uri : Uri) (position : Position) :
    Request.Answers d [] ((ofGraph g).definition uri position) (definitionIn d g uri position) := by
  refine (resolveStrict_answers uri position).bind fun r => ?_
  cases r.symbol.declaration with
  | none => exact .pure _
  | some declaration =>
    refine .bind (.ofExcept _) fun uri => ?_
    have hunlocked : ∀ p ∈ ([] : List FilePath), p.sameAs
        (usualLayout.pathOf ⟨r.symbol.owner, declaration.unit⟩) = false := fun _ h => nomatch h
    exact (withContent_answers hunlocked fun text => .pure _).bind fun range => .pure _

/-- A symbol under the cursor is found at its declaration. -/
theorem definitionIn_of_declares {r : Resolved} {u : UnitId} {source : String} {n : Node}
    {t : Token} (hr : resolveIn d g uri position = .ok r)
    (h : Declares d g u source n t r.symbol) :
    definitionIn d g uri position = .ok [⟨u.uri, (LineIndex.ofText source).range t.span⟩] := by
  have huri := uriOfUnit_eq g u
  have hcontent : d.content (usualLayout.pathOf u) = .ok source := by
    rw [Documents.content, show d.get? (usualLayout.pathOf u) = some source from h.text]
  rw [definitionIn, hr]
  simp only [Except.bind]
  rw [h.declaration, h.owner]
  simp only [Option.elim_some]
  rw [declarationIn]
  dsimp only
  rw [huri, hcontent]
  rfl

/-- The symbol under the cursor is declared somewhere if it has a declaration. -/
theorem exists_declares (hfit : d.Fit g) {r : Resolved} (hr : resolveIn d g uri position = .ok r)
    (hdeclared : r.symbol.declaration.isSome) :
    ∃ u source n t, Declares d g u source n t r.symbol := by
  obtain ⟨-, u, source, -, -, hc, hresolve⟩ := (resolveIn_eq_ok_iff hfit).1 hr
  obtain ⟨n, t, hat, -, -⟩ := resolve_eq_ok hfit hc hresolve
  exact hat.mention.exists_declares hfit hc hdeclared

/-- A definition that is found is a declaration of the symbol under the cursor. -/
theorem declares_of_definitionIn (hfit : d.Fit g) {l : Location}
    (h : definitionIn d g uri position = .ok [l]) :
    ∃ r u source n t, resolveIn d g uri position = .ok r ∧ Declares d g u source n t r.symbol ∧
      l = ⟨u.uri, (LineIndex.ofText source).range t.span⟩ := by
  obtain ⟨r, hr, hanswer⟩ := Except.bind_eq_ok.1 h
  cases hdeclaration : r.symbol.declaration with
  | none =>
    rw [hdeclaration] at hanswer
    cases hanswer
  | some declaration =>
    obtain ⟨u, source, n, t, hdeclares⟩ := exists_declares hfit hr (by rw [hdeclaration]; rfl)
    rw [definitionIn_of_declares hr hdeclares] at h
    obtain ⟨hl, -⟩ := List.cons.inj (Except.ok.inj h)
    exact ⟨r, u, source, n, t, hr, hdeclares, hl.symm⟩

/-- **The definition is its own definition,** if its unit compiles. -/
theorem definitionIn_definition (hfit : d.Fit g) {u : UnitId} {source : String} {n : Node}
    {t : Token} {s : Symbol} (h : Declares d g u source n t s) (hc : Compiles d g u source) :
    definitionIn d g u.uri ((LineIndex.ofText source).range t.span).start =
      .ok [⟨u.uri, (LineIndex.ofText source).range t.span⟩] := by
  have hcursor := AtCursor.of_mentions h.sized h.toMentions (h.name hfit).1
  obtain ⟨r, hresolve, -, rfl⟩ := hcursor.resolve hfit hc (by rw [h.declaration]; rfl)
  obtain ⟨hfile, hsteps⟩ := UnitId.toFile?_uri (hfit.wellNamed u h.listed)
  exact definitionIn_of_declares
    ((resolveIn_eq_ok_iff hfit).2 ⟨_, u, source, hfile, hsteps, hc, hresolve⟩) h

/-- **The definition is among the references,** and is left out without definitions. -/
theorem definition_mem_references (hfit : d.Fit g) (hfree : CollisionFree (projectPaths d g))
    {r : Resolved} {o : Occurrences} {u : UnitId} {source : String} {n : Node} {t : Token}
    (hr : resolveIn d g uri position = .ok r) (ho : occurrencesIn d g r = .ok o)
    (h : Declares d g u source n t r.symbol) (withDefinitions : Bool) :
    ∃ ls, (ofGraph g).locationsOf (o.found withDefinitions) = .ok ls ∧
      (⟨u.uri, (LineIndex.ofText source).range t.span⟩ ∈ ls ↔ withDefinitions) := by
  have hdeclared : r.symbol.declaration.isSome := by
    rw [h.declaration]
    rfl
  obtain ⟨-, v, text, -, -, hc, hresolve⟩ := (resolveIn_eq_ok_iff hfit).1 hr
  obtain ⟨-, -, -, hunit, -⟩ := resolve_eq_ok hfit hc hresolve
  have hothers := (Occurrences.exists_occurrencesIn_iff hfit).1 ⟨o, ho⟩
  rw [hunit] at hothers
  obtain ⟨n', t', fs, hat, hcomplete⟩ :=
    Occurrences.exists_complete hfit hfree hc hresolve hdeclared ho
  -- The unit of the declaration is searched, so it compiles.
  have hcompiles := compiles_of_mentions hfit hfree (hat.mention.known hfit hc).1 hdeclared
    ⟨text, hc⟩ hothers h.listed h.text h.sized h.toMentions rfl
  have hfind := (hcomplete.mem _).2 ⟨u, source, n, t, _, hcompiles, h.toMentions, rfl, rfl⟩
  obtain ⟨ls, hls, -, hmem⟩ := hcomplete.locations hfit withDefinitions
  refine ⟨ls, hls, ?_⟩
  rw [hmem]
  constructor
  · rintro ⟨f, hf, hwanted, hlocate⟩
    obtain rfl := hcomplete.eq_of_locate_eq hfit hf hfind hlocate
    rw [show (Occurrences.findOf u source _ n t r.symbol).declared = true from h.isDeclaredAt]
      at hwanted
    simpa using hwanted
  · rintro rfl
    exact ⟨_, hfind, rfl, rfl⟩

end Analysis

/-! ## Definitions and references in a workspace -/

namespace Workspace

/-- Whether the unit at a URI compiles. -/
def CompilesAt (w : Workspace) (uri : Uri) : Prop :=
  ∃ u text b, w.graph.Lists u ∧ w.layout.uriOf? u = some uri ∧ w.text? u = some text ∧
    w.compiler.compile w.session.documents w.graph u text = .ok b

theorem IsUsual.serve_definition {w : Workspace} (h : w.IsUsual) {uri : Uri} {position : Position} :
    (w.serve (w.analysis.definition uri position)).1 =
      Analysis.definitionIn w.session.documents w.graph uri position := by
  rw [h.analysis_eq]
  exact serve_answers (Analysis.definition_answers uri position) h.unlocked

/-- The text at the place of an identifier is the identifier. -/
theorem textAt?_identifier {w : Workspace} {u : UnitId} {source : String} {t : Token}
    (hwell : u.WellNamed) (htext : w.session.documents.textOf? u = some source)
    (hsize : source.utf8ByteSize ≤ Span.maxOffset) (ht : t ∈ sourceTokens source)
    (hkind : t.kind = .identifier) :
    w.textAt? ⟨u.uri, (LineIndex.ofText source).range t.span⟩ = some t.text := by
  obtain ⟨hfile, hsteps⟩ := UnitId.toFile?_uri hwell
  have hget : w.session.documents.get? u.file = some source :=
    (Documents.get?_of_steps hwell hsteps).trans htext
  obtain ⟨hstart, hstop⟩ := offset?_position hsize ht (isWord_of_mem ht hkind).1
  obtain ⟨as, bs, hsplit, hlength⟩ := exists_split ht
  have hspan : t.span.stop = t.span.start + Text.byteLength t.text.toList := by
    rw [(span_in_fullSpan t).2.2, Text.utf8ByteSize_eq]
  unfold textAt?
  dsimp only [LineIndex.range]
  rw [hfile, Option.bind_some, hget, Option.bind_some]
  simp only [hstart, hstop]
  rw [hspan, Text.slice?_eq_some_iff.2 ⟨as, bs, hsplit, hlength, rfl⟩, Option.map_some,
    String.ofList_toList]

variable {files : List SourceFile}

/-- **Going to the definition and finding references agree.** A symbol under the cursor has a
definition exactly if it has a declaration, and there stands its name. This place is among the
references, is the one that is left out without definitions, and is its own definition. -/
theorem definition_agrees (hfiles : ∀ f ∈ files, f.unit.WellNamed)
    (hfree : CollisionFree (projectPaths (ofFiles files).session.documents (ofFiles files).graph))
    (uri : Uri) (position : Position) :
    (∀ l, ((ofFiles files).serve ((ofFiles files).analysis.definition uri position)).1 = .ok [l] →
      (ofFiles files).CompilesAt l.uri → ((ofFiles files).serve
        ((ofFiles files).analysis.definition l.uri l.range.start)).1 = .ok [l]) ∧
    (∀ l ls, ((ofFiles files).serve ((ofFiles files).analysis.definition uri position)).1 = .ok [l] →
      ((ofFiles files).serve ((ofFiles files).analysis.references uri position true)).1 = .ok ls →
      l ∈ ls ∧ ∃ ls', ((ofFiles files).serve
        ((ofFiles files).analysis.references uri position false)).1 = .ok ls' ∧ l ∉ ls') ∧
    ∀ r, ((ofFiles files).serve ((ofFiles files).analysis.resolveStrict uri position)).1 = .ok r →
      (((ofFiles files).serve ((ofFiles files).analysis.definition uri position)).1 = .ok [] ↔
        r.symbol.declaration = none) ∧
      (r.symbol.declaration.isSome → ∃ l,
        ((ofFiles files).serve ((ofFiles files).analysis.definition uri position)).1 = .ok [l] ∧
        (ofFiles files).textAt? l = some r.symbol.name) := by
  have hfit := fit_ofFiles hfiles
  have husual := isUsual_ofFiles files
  simp only [husual.serve_definition, husual.serve_resolveStrict]
  refine ⟨?_, ?_, fun r hr => ⟨⟨?_, ?_⟩, fun hdeclared => ?_⟩⟩
  · rintro l hl ⟨v, text, b, hv, huri, htext, hb⟩
    obtain ⟨r, u, source, n, t, hr, hdeclares, rfl⟩ := Analysis.declares_of_definitionIn hfit hl
    obtain rfl := UnitId.eq_of_uri_eq (hfit.wellNamed v hv) (hfit.wellNamed u hdeclares.listed)
      (Option.some.inj ((UnitId.uriOf?_eq _).symm.trans huri))
    obtain ⟨hcan, -⟩ := (compile_eq_ok_iff hfit hv htext).1 hb
    obtain rfl := Option.some.inj (htext.symm.trans hdeclares.text)
    exact Analysis.definitionIn_definition hfit hdeclares ⟨hcan, hv, htext⟩
  · intro l ls hl hls
    obtain ⟨r, u, source, n, t, hr, hdeclares, rfl⟩ := Analysis.declares_of_definitionIn hfit hl
    obtain ⟨o, ho, hls⟩ := (husual.serve_references_eq_ok_iff hr).1 hls
    obtain ⟨ls₁, hls₁, hmem⟩ := Analysis.definition_mem_references hfit hfree hr ho hdeclares true
    obtain ⟨ls₂, hls₂, hnot⟩ := Analysis.definition_mem_references hfit hfree hr ho hdeclares false
    obtain rfl := Except.ok.inj (hls.symm.trans hls₁)
    exact ⟨hmem.2 rfl, ls₂, (husual.serve_references_eq_ok_iff hr).2 ⟨o, ho, hls₂⟩,
      fun h => Bool.false_ne_true (hnot.1 h)⟩
  · intro hl
    by_contra hdeclaration
    obtain ⟨u, source, n, t, hdeclares⟩ :=
      Analysis.exists_declares hfit hr (Option.isSome_iff_ne_none.2 hdeclaration)
    rw [Analysis.definitionIn_of_declares hr hdeclares] at hl
    cases hl
  · intro hdeclaration
    rw [Analysis.definitionIn, hr]
    simp only [Except.bind]
    rw [hdeclaration]
    rfl
  · obtain ⟨u, source, n, t, hdeclares⟩ := Analysis.exists_declares hfit hr hdeclared
    refine ⟨_, Analysis.definitionIn_of_declares hr hdeclares, ?_⟩
    obtain ⟨hkind, hname⟩ := hdeclares.name hfit
    rw [textAt?_identifier (hfit.wellNamed u hdeclares.listed) hdeclares.text hdeclares.sized
      hdeclares.mem_sourceTokens hkind, hname]

theorem definition_agrees_callFiles : ∃ l ls ls',
    l = ⟨⟨"file:///workspace/src/lib/lib.nav"⟩, ⟨0, 3⟩, ⟨0, 7⟩⟩ ∧
    ((ofFiles callFiles).serve ((ofFiles callFiles).analysis.definition
      ⟨"file:///workspace/main.nav"⟩ ⟨1, 17⟩)).1 = .ok [l] ∧
    ((ofFiles callFiles).serve ((ofFiles callFiles).analysis.definition l.uri l.range.start)).1 =
      .ok [l] ∧
    ((ofFiles callFiles).serve ((ofFiles callFiles).analysis.references
      ⟨"file:///workspace/main.nav"⟩ ⟨1, 17⟩ true)).1 = .ok ls ∧ l ∈ ls ∧
    ((ofFiles callFiles).serve ((ofFiles callFiles).analysis.references
      ⟨"file:///workspace/main.nav"⟩ ⟨1, 17⟩ false)).1 = .ok ls' ∧ l ∉ ls' ∧
    (ofFiles callFiles).textAt? l = some "make" := by
  have hdefinition : ((ofFiles callFiles).serve ((ofFiles callFiles).analysis.definition
      ⟨"file:///workspace/main.nav"⟩ ⟨1, 17⟩)).1.toOption.any fun ls =>
        decide (ls = [⟨⟨"file:///workspace/src/lib/lib.nav"⟩, ⟨0, 3⟩, ⟨0, 7⟩⟩]) := by
    decide +kernel
  have hcompile : ((ofFiles callFiles).compiler.compile (ofFiles callFiles).session.documents
      (ofFiles callFiles).graph ⟨⟨"lib"⟩, "lib.nav"⟩
      "fn make() { make(); }\n").toOption.any fun _ => true := by decide +kernel
  obtain ⟨r, ls, hr, -, hdeclared, hname, hls⟩ := exists_found_callFiles
  obtain ⟨_, hl, heq⟩ := exists_ok_of_any hdefinition
  obtain rfl := of_decide_eq_true heq
  obtain ⟨b, hb, -⟩ := exists_ok_of_any hcompile
  have hcompiles : (ofFiles callFiles).CompilesAt ⟨"file:///workspace/src/lib/lib.nav"⟩ :=
    ⟨⟨⟨"lib"⟩, "lib.nav"⟩, _, b, by decide +kernel, by decide +kernel, by decide +kernel, hb⟩
  obtain ⟨hagain, hreferred, hresolved⟩ :=
    definition_agrees (by decide) collisionFree_callFiles ⟨"file:///workspace/main.nav"⟩ ⟨1, 17⟩
  obtain ⟨hmem, ls', hls', hnot⟩ := hreferred _ ls hl hls
  obtain ⟨l, hl', htext⟩ := (hresolved r hr).2 hdeclared
  obtain ⟨rfl, -⟩ := List.cons.inj (Except.ok.inj (hl.symm.trans hl'))
  exact ⟨_, ls, ls', rfl, hl, hagain _ hl hcompiles, hls, hmem, hls', hnot, hname ▸ htext⟩

end Workspace

end Xref
