import Xref.Proofs.Navigation.Finds
import Xref.Proofs.Navigation.Requests

/-!
# Searches in a project

What a search for a symbol with a declaration comes across in a project are exactly the nodes that
mention it, in all units that compile (`exists_found`): the units that are not searched mention
nothing of its owner.
-/

namespace Xref

open Workspace (usualLayout)

namespace Binding

variable {d : Documents} {g : ModuleGraph} {u u' : UnitId} {source source' : String}
  {n n' : Node} {t t' : Token} {s s' : Symbol}

/-! ## Mentions in compiled units -/

/-- Whether a unit of the project has the given text and compiles. -/
structure Compiles (d : Documents) (g : ModuleGraph) (u : UnitId) (source : String) : Prop
    extends CanCompile d g u source where
  listed : g.Lists u
  text : d.textOf? u = some source

theorem Compiles.sized (h : Compiles d g u source) : source.utf8ByteSize ≤ Span.maxOffset :=
  h.own u.unit h.listed source h.text

theorem Compiles.compile_eq (hfit : d.Fit g) (h : Compiles d g u source) :
    compile usualLayout d g u source = .ok (boundUnit d g u source) :=
  (compile_eq_ok_iff hfit h.listed h.text).2 ⟨h.toCanCompile, rfl⟩

theorem unitIn_eq_ok (hfit : d.Fit g) (hu : g.Lists u) {path : FilePath}
    (hpath : path.components = u.steps) {b : BoundUnit}
    (h : Analysis.unitIn d g path u = .ok b) :
    ∃ source, Compiles d g u source ∧ b = boundUnit d g u source := by
  obtain ⟨source, htext, hcompile⟩ := Analysis.unitIn_eq_ok_iff.1 h
  rw [Documents.get?_of_steps (hfit.wellNamed u hu) hpath] at htext
  obtain ⟨hcan, hb⟩ := (compile_eq_ok_iff hfit hu htext).1 hcompile
  exact ⟨source, ⟨hcan, hu, htext⟩, hb⟩

theorem Compiles.unitIn_eq (hfit : d.Fit g) (h : Compiles d g u source) {path : FilePath}
    (hpath : path.components = u.steps) :
    Analysis.unitIn d g path u = .ok (boundUnit d g u source) := by
  have hcontent : d.content path = .ok source := by
    rw [Documents.content, Documents.get?_of_steps (hfit.wellNamed u h.listed) hpath, h.text]
  rw [Analysis.unitIn, hcontent]
  show (compile usualLayout d g u source).mapError (RequestError.compilationFailed u) = _
  rw [h.compile_eq hfit]
  rfl

/-- Whether a node of a unit mentions a symbol, which the given token right below the node names. -/
structure Mentions (d : Documents) (g : ModuleGraph) (u : UnitId) (source : String) (n : Node)
    (t : Token) (s : Symbol) : Prop where
  node : n ∈ (Tree.ofSource source).root.preorder
  token : t ∈ n.childTokens
  mention : (boundUnit d g u source).mention? n.id = some ⟨s, t.id⟩

theorem eq_of_node_id (hn : n ∈ (Tree.ofSource source).root.preorder)
    (hn' : n' ∈ (Tree.ofSource source).root.preorder) (hid : n.id = n'.id) : n = n' :=
  List.inj_on_of_nodup_map Tree.nodup_ids hn hn' hid

namespace Mentions

theorem mem_sourceTokens (h : Mentions d g u source n t s) : t ∈ sourceTokens source := by
  rw [← Tree.tokens_root]
  exact Node.childTokens_subset h.node h.token

section
variable (hfit : d.Fit g) (hu : g.Lists u) (htext : d.textOf? u = some source)
  (hsize : source.utf8ByteSize ≤ Span.maxOffset)

include hfit hu htext hsize

/-- A symbol that is mentioned is known, whether the unit compiles or not; one with a declaration is
mentioned by its name. -/
theorem known_of_text (h : Mentions d g u source n t s) :
    KnownIn d g u.module s ∧ (s.declaration.isSome → t.kind = .identifier ∧ t.text = s.name) := by
  obtain ⟨m, hm, hid, t', ht', hname, hdeclared, hknown⟩ :=
    mention_known hfit hu htext hsize h.mention
  refine ⟨hknown, ?_⟩
  have hmem : t' ∈ sourceTokens source := by
    rw [← Tree.tokens_root]
    exact Node.childTokens_subset hm ht'
  rw [eq_of_id_eq h.mem_sourceTokens hmem hname.symm]
  exact hdeclared

/-- Every mention of a unit is at a node of its tree and named by a token. -/
theorem exists_of_text {node : NodeId} {a : Mention}
    (h : (boundUnit d g u source).mention? node = some a) :
    ∃ n t, n.id = node ∧ t.id = a.name ∧ Mentions d g u source n t a.symbol := by
  obtain ⟨m, hm, hid, t, ht, hname, -, -⟩ := mention_known hfit hu htext hsize h
  obtain rfl : m.id = node := hid
  obtain ⟨symbol, name⟩ := a
  obtain rfl : t.id = name := hname
  exact ⟨m, t, rfl, rfl, hm, ht, h⟩

end

theorem known (hfit : d.Fit g) (hc : Compiles d g u source) (h : Mentions d g u source n t s) :
    KnownIn d g u.module s ∧ (s.declaration.isSome → t.kind = .identifier ∧ t.text = s.name) :=
  h.known_of_text hfit hc.listed hc.text hc.sized

theorem exists_of_mention? (hfit : d.Fit g) (hc : Compiles d g u source) {node : NodeId}
    {a : Mention} (h : (boundUnit d g u source).mention? node = some a) :
    ∃ n t, n.id = node ∧ t.id = a.name ∧ Mentions d g u source n t a.symbol :=
  exists_of_text hfit hc.listed hc.text hc.sized h

/-- A token names the symbol of one node only. -/
theorem node_unique (h : Mentions d g u source n t s) (h' : Mentions d g u source n' t s') :
    n = n' ∧ s = s' := by
  have hids : ((Tree.ofSource source).root.tokens.map Token.id).Nodup := by
    rw [Tree.tokens_root]
    exact nodup_ids_sourceTokens
  obtain rfl := Node.parent_unique hids h.node h'.node h.token h'.token rfl
  have := h.mention.symm.trans h'.mention
  exact ⟨rfl, congrArg Mention.symbol (Option.some.inj this)⟩

/-- Mentions that are named at one span are the same mention. -/
theorem eq_of_span_eq (h : Mentions d g u source n t s) (h' : Mentions d g u source n' t' s')
    (hspan : t.span = t'.span) : n = n' ∧ t = t' ∧ s = s' := by
  obtain rfl := Xref.eq_of_span_eq h.mem_sourceTokens h'.mem_sourceTokens hspan
  obtain ⟨rfl, rfl⟩ := h.node_unique h'
  exact ⟨rfl, rfl, rfl⟩

end Mentions

end Binding

open Binding

namespace Occurrences

variable {d : Documents} {g : ModuleGraph} {u u' : UnitId} {source source' : String}
  {n n' : Node} {t t' : Token} {s s' target : Symbol} {cursor cursor' : Option NodeId} {f f' : Find}

/-! ## Finds of a unit -/

/-- What a search comes across at a node that mentions a symbol. -/
def findOf (u : UnitId) (source : String) (cursor : Option NodeId) (n : Node) (t : Token)
    (s : Symbol) : Find :=
  ⟨s.isDeclaredAt u.module u.unit t.span, decide (cursor = some n.id),
    ⟨s, ⟨u.module, u.unit, t.span⟩, (LineIndex.ofText source).range t.span, .usage⟩⟩

/-- Whether a search for a symbol comes across a find in a unit. -/
def FoundIn (d : Documents) (g : ModuleGraph) (target : Symbol) (cursor : Option NodeId)
    (u : UnitId) (f : Find) : Prop :=
  ∃ source n t s, Compiles d g u source ∧ Mentions d g u source n t s ∧ s.id = target.id ∧
    f = findOf u source cursor n t s

theorem occurrence?_eq (h : Mentions d g u source n t s) (hs : s.isEquivalent target) :
    occurrence? (boundUnit d g u source) (.ofText source) target n =
      some (s.isDeclaredAt u.module u.unit t.span,
        ⟨s, ⟨u.module, u.unit, t.span⟩, (LineIndex.ofText source).range t.span, .usage⟩) := by
  have htoken : (boundUnit d g u source).tree.token? t.id = some t :=
    Tree.token?_ofSource h.mem_sourceTokens
  rw [occurrence?, h.mention, Option.bind_some, if_pos hs, htoken]
  rfl

section
variable (hfit : d.Fit g) {m : ModuleId} (htarget : KnownIn d g m target)
  (hdeclared : target.declaration.isSome)

include hfit htarget hdeclared

theorem occurrence?_eq_some (hc : Compiles d g u source)
    (hn : n ∈ (Tree.ofSource source).root.preorder) {found : Bool × Reference}
    (h : occurrence? (boundUnit d g u source) (.ofText source) target n = some found) :
    ∃ t s, Mentions d g u source n t s ∧ s.id = target.id ∧
      found = (s.isDeclaredAt u.module u.unit t.span,
        ⟨s, ⟨u.module, u.unit, t.span⟩, (LineIndex.ofText source).range t.span, .usage⟩) := by
  obtain ⟨a, ha, hequivalent⟩ := Option.bind_eq_some_iff.1 h
  obtain ⟨n', t, hid, htoken, hmention⟩ := Mentions.exists_of_mention? hfit hc ha
  obtain rfl : n' = n := eq_of_node_id hmention.node hn hid
  split at hequivalent
  · rename_i heq
    have hfound := Option.some.inj (h.symm.trans (occurrence?_eq hmention heq))
    exact ⟨t, a.symbol, hmention, (isEquivalent_iff htarget hdeclared).1 heq, hfound⟩
  · cases hequivalent

/-- The finds of a unit are its mentions of the target. -/
theorem mem_findsIn (hc : Compiles d g u source) :
    f ∈ findsIn (boundUnit d g u source) target cursor ↔ FoundIn d g target cursor u f := by
  rw [findsIn, List.mem_filterMap]
  constructor
  · rintro ⟨n, hn, hf⟩
    obtain ⟨found, hfound, rfl⟩ := Option.map_eq_some_iff.1 hf
    obtain ⟨t, s, hmention, hid, rfl⟩ :=
      occurrence?_eq_some hfit htarget hdeclared hc hn hfound
    exact ⟨source, n, t, s, hc, hmention, hid, rfl⟩
  · rintro ⟨source', n, t, s, hc', hmention, hid, rfl⟩
    obtain rfl : source = source' := Option.some.inj (hc.text.symm.trans hc'.text)
    have heq := (isEquivalent_iff htarget hdeclared).2 hid
    refine ⟨n, hmention.node, ?_⟩
    rw [show (boundUnit d g u source).tree.text = source from rfl, occurrence?_eq hmention heq]
    rfl

/-- The finds of a unit are at different sites. -/
theorem nodup_findsIn (hc : Compiles d g u source) :
    ((findsIn (boundUnit d g u source) target cursor).map Find.site).Nodup := by
  have hids : ((Tree.ofSource source).root.preorder.map Node.id).Nodup := Tree.nodup_ids
  refine List.pairwise_map.2 (List.pairwise_filterMap.2 ?_)
  refine (List.pairwise_map.1 hids).imp_of_mem ?_
  intro n n' hn hn' hne f hf f' hf' hsite
  obtain ⟨found, hfound, rfl⟩ := Option.map_eq_some_iff.1 hf
  obtain ⟨found', hfound', rfl⟩ := Option.map_eq_some_iff.1 hf'
  obtain ⟨t, s, ht, hid, rfl⟩ := occurrence?_eq_some hfit htarget hdeclared hc hn hfound
  obtain ⟨t', s', ht', hid', rfl⟩ := occurrence?_eq_some hfit htarget hdeclared hc hn' hfound'
  have hspan : t.span = t'.span := congrArg Site.span hsite
  exact hne (congrArg Node.id (ht.eq_of_span_eq ht' hspan).1)

variable (hfree : CollisionFree (projectPaths d g))

include hfree

/-- The target is named by an identifier with its name wherever it is mentioned. -/
theorem name_of_mention (hc : Compiles d g u source) (h : Mentions d g u source n t s)
    (hid : s.id = target.id) : t.kind = .identifier ∧ t.text = target.name ∧
      s.declaration.isSome ∧ Reaches g u.module target.owner := by
  obtain ⟨hknown, hname⟩ := h.known hfit hc
  obtain ⟨heq, hsome, hreaches⟩ := known_of_id_eq hfit hfree hknown htarget hid hdeclared
  exact ⟨(hname hsome).1, (hname hsome).2.trans heq, hsome, hreaches⟩

end

/-! ## Finds of several units -/

/-- The finds of a unit other than the one under the cursor. -/
def findsOf (d : Documents) (g : ModuleGraph) (target : Symbol) (u : UnitId) : List Find :=
  match d.textOf? u with
  | some source => findsIn (boundUnit d g u source) target none
  | none => []

/-- A search that succeeds has had all units compiled and files all their finds. -/
theorem gatherIn_eq_ok_iff (hfit : d.Fit g) {units : List UnitId} (hunits : ∀ u ∈ units, g.Lists u)
    {o o' : Occurrences} : Analysis.gatherIn d g target units o = .ok o' ↔
      (∀ u ∈ units, ∃ source, Compiles d g u source) ∧
        o' = (units.flatMap (findsOf d g target)).foldl put o := by
  induction units generalizing o with
  | nil => simp [Analysis.gatherIn, eq_comm]
  | cons u units ih =>
    rw [List.forall_mem_cons] at hunits
    have hpath := components_pathOf (hfit.wellNamed u hunits.1)
    rw [Analysis.gatherIn, List.forall_mem_cons, List.flatMap_cons, List.foldl_append]
    cases hunit : Analysis.unitIn d g (usualLayout.pathOf u) u with
    | error e =>
      refine ⟨by rintro ⟨⟩, ?_⟩
      rintro ⟨⟨⟨source, hc⟩, -⟩, -⟩
      rw [hc.unitIn_eq hfit hpath] at hunit
      cases hunit
    | ok b =>
      obtain ⟨source, hc, rfl⟩ := unitIn_eq_ok hfit hunits.1 hpath hunit
      have hfinds : findsOf d g target u = findsIn (boundUnit d g u source) target none := by
        rw [findsOf, hc.text]
      rw [Except.bind, ih hunits.2, hfinds, gather_eq]
      exact ⟨fun h => ⟨⟨⟨source, hc⟩, h.1⟩, h.2⟩, fun h => ⟨h.1.2, h.2⟩⟩

end Occurrences

/-! ## Units to search -/

namespace Analysis

variable {d : Documents} {g : ModuleGraph} {u cursor : UnitId} {owner : ModuleId}

theorem mem_searchScope {m : ModuleId} (hm : g.contains m) :
    m ∈ g.searchScope owner ↔ Reaches g m owner := by
  rw [ModuleGraph.searchScope, List.mem_append, Reaches]
  refine or_congr ?_ ?_
  · split
    · rw [List.mem_singleton, eq_comm]
    · rename_i hnot
      refine ⟨by rintro ⟨⟩, ?_⟩
      rintro rfl
      exact absurd hm hnot
  · rw [List.mem_map]
    refine exists_congr fun n => ?_
    rw [ModuleGraph.importers, List.mem_filter, List.contains_iff_mem]
    constructor
    · rintro ⟨⟨hn, himport⟩, hid⟩
      exact ⟨hn, hid, himport⟩
    · rintro ⟨hn, hid, himport⟩
      exact ⟨⟨hn, himport⟩, hid⟩

theorem contains_of_lists (h : g.Lists u) : g.contains u.module := by
  rw [ModuleGraph.Lists, ModuleGraph.unitsOf] at h
  rw [ModuleGraph.contains]
  cases hget : g.get? u.module with
  | some m => rfl
  | none => rw [hget] at h; cases h

/-- **The units to search are those of the modules that reach the owner,** but for the one under the
cursor. -/
theorem mem_unitsToSearch : u ∈ (ofGraph g).unitsToSearch owner cursor ↔
    g.Lists u ∧ Reaches g u.module owner ∧ u ≠ cursor := by
  rw [unitsToSearch, List.mem_filter, List.mem_flatMap, decide_eq_true_eq, ← and_assoc]
  refine and_congr_left fun _ => ?_
  constructor
  · rintro ⟨m, hm, hu⟩
    obtain ⟨unit, hunit, rfl⟩ := List.mem_map.1 hu
    have hlists : g.Lists ⟨m, unit⟩ := hunit
    exact ⟨hlists, (mem_searchScope (contains_of_lists hlists)).1 hm⟩
  · rintro ⟨hu, hreaches⟩
    refine ⟨u.module, (mem_searchScope (contains_of_lists hu)).2 hreaches, ?_⟩
    exact List.mem_map.2 ⟨u.unit, hu, rfl⟩

end Analysis

/-! ## The symbol under the cursor -/

section
variable {d : Documents} {g : ModuleGraph} {u : UnitId} {source : String} {position : Position}
  {n : Node} {t token : Token} {s : Symbol} {r : Resolved}

/-- What is under a cursor in a unit: the token there, the innermost node above it that mentions
something, the token that names what is mentioned, and the symbol. -/
structure AtCursor (d : Documents) (g : ModuleGraph) (u : UnitId) (source : String)
    (position : Position) (token : Token) (n : Node) (t : Token) (s : Symbol) : Prop where
  mention : Mentions d g u source n t s
  path : ∃ offset ancestors, (LineIndex.ofText source).offset? position = some offset ∧
    (Tree.ofSource source).root.Leads ancestors token ∧ token.Covers offset ∧
    (boundUnit d g u source).innermost? ⟨ancestors, token⟩ = some (n, ⟨s, t.id⟩)

/-- The innermost mention above a token that names something is that of the node right above it. -/
theorem Binding.Mentions.innermost? (h : Mentions d g u source n t s) {path : List Node}
    (hlast : path.getLast? = some n) :
    (boundUnit d g u source).innermost? ⟨path, t⟩ = some (n, ⟨s, t.id⟩) := by
  obtain ⟨rest, rfl⟩ := List.getLast?_eq_some_iff.1 hlast
  rw [BoundUnit.innermost?, TokenPath.innermostFirst]
  simp [h.mention]

/-- A cursor at the start of a name that mentions something is at this mention. -/
theorem AtCursor.of_mentions (hsize : source.utf8ByteSize ≤ Span.maxOffset)
    (h : Mentions d g u source n t s) (hkind : t.kind = .identifier) :
    AtCursor d g u source ((LineIndex.ofText source).range t.span).start t n t s := by
  have ht := h.mem_sourceTokens
  obtain ⟨path, hleads⟩ := Node.Leads.of_childToken h.node h.token
  have hfile : t.kind ≠ .endOfFile := by
    rw [hkind]
    exact TokenKind.noConfusion
  have hwithin := span_in_fullSpan t
  have hnonempty := span_start_lt ht hfile
  refine ⟨h, t.span.start, path ++ [n], (offset?_position hsize ht (isWord_of_mem ht hkind).1).1,
    hleads, ?_, h.innermost? List.getLast?_concat⟩
  exact ⟨hwithin.1, Nat.lt_of_lt_of_le hnonempty hwithin.2.1, hfile⟩

theorem Occurrences.cursor_foldl_put (fs : List Occurrences.Find) (o : Occurrences) :
    (fs.foldl Occurrences.put o).cursor =
      o.cursor.or ((fs.find? fun f => f.isCursor).map fun f => f.reference.withRole .cursor) := by
  induction fs generalizing o with
  | nil => simp
  | cons f fs ih =>
    rw [List.foldl_cons, ih, Occurrences.cursor_put, List.find?_cons, Option.or_assoc]
    cases f.isCursor <;> rfl

/-- A find under the cursor has the symbol of the node at the cursor. -/
theorem Occurrences.symbol_of_isCursor {b : BoundUnit} {target : Symbol} {node : NodeId}
    {a : Mention} (ha : b.mention? node = some a) {f : Occurrences.Find}
    (hf : f ∈ Occurrences.findsIn b target (some node)) (hcursor : f.isCursor) :
    f.reference.symbol = a.symbol := by
  obtain ⟨m, -, hf⟩ := List.mem_filterMap.1 hf
  obtain ⟨found, hfound, rfl⟩ := Option.map_eq_some_iff.1 hf
  obtain rfl : node = m.id := by simpa using hcursor
  obtain ⟨a', ha', hfound⟩ := Option.bind_eq_some_iff.1 hfound
  obtain rfl := Option.some.inj (ha.symm.trans ha')
  split at hfound
  · obtain ⟨name, -, rfl⟩ := Option.map_eq_some_iff.1 hfound
    rfl
  · cases hfound

theorem BoundUnit.innermost?_eq_some {b : BoundUnit} {path : TokenPath} {a : Mention}
    (h : b.innermost? path = some (n, a)) : n ∈ path.ancestors ∧ b.mention? n.id = some a := by
  obtain ⟨m, hm, hsome⟩ := List.exists_of_findSome?_eq_some h
  obtain ⟨a', ha, heq⟩ := Option.map_eq_some_iff.1 hsome
  obtain ⟨rfl, rfl⟩ := Prod.mk.inj heq
  exact ⟨List.mem_reverse.1 hm, ha⟩

/-- What is under a cursor in a bound unit: the symbol that the innermost mention above the token
there has. -/
theorem BoundUnit.resolve_eq_ok {b : BoundUnit} {manner : Manner}
    (h : b.resolve u position manner = .ok r) :
    ∃ offset path n a, (LineIndex.ofText b.tree.text).offset? position = some offset ∧
      b.tree.locateIn manner offset = .ok path ∧ b.innermost? path = some (n, a) ∧
      r.unit = u ∧ r.token = path.token ∧ r.symbol = a.symbol ∧
      r.occurrences =
        (Occurrences.findsIn b a.symbol (some n.id)).foldl Occurrences.put .empty := by
  rw [BoundUnit.resolve] at h
  split at h
  · cases h
  · rename_i offset hoffset
    split at h
    · cases h
    · rename_i path hpath
      split at h
      · cases h
      · rename_i n a hinner
        obtain ⟨-, ha⟩ := BoundUnit.innermost?_eq_some hinner
        dsimp only at h
        rw [Occurrences.gather_eq] at h
        split at h
        · cases h
        · rename_i cursor hcursor
          obtain rfl := Except.ok.inj h
          refine ⟨offset, path, n, a, hoffset, hpath, hinner, rfl, rfl, ?_, rfl⟩
          rw [Occurrences.cursor_foldl_put] at hcursor
          obtain ⟨f, hf, rfl⟩ := Option.map_eq_some_iff.1 hcursor
          exact Occurrences.symbol_of_isCursor ha (List.mem_of_find?_eq_some hf)
            (by simpa using List.find?_some hf)

/-- What a strict search for the symbol at a position finds in a unit. -/
theorem resolve_eq_ok (hfit : d.Fit g) (hc : Compiles d g u source)
    (h : (boundUnit d g u source).resolve u position .strict = .ok r) :
    ∃ n t, AtCursor d g u source position r.token n t r.symbol ∧ r.unit = u ∧
      r.occurrences = (Occurrences.findsIn (boundUnit d g u source) r.symbol (some n.id)).foldl
        Occurrences.put .empty := by
  obtain ⟨offset, path, m, a, hoffset, hpath, hinner, hunit, htoken, hsymbol, hoccurrences⟩ :=
    BoundUnit.resolve_eq_ok h
  obtain ⟨hleads, hcovers⟩ := Tree.locate_eq_ok_iff.1 hpath
  obtain ⟨hm, ha⟩ := BoundUnit.innermost?_eq_some hinner
  obtain ⟨n, t, hid, hname, hmention⟩ := Mentions.exists_of_mention? hfit hc ha
  obtain rfl := eq_of_node_id hmention.node (hleads.mem_preorder hm) hid
  have hsame : (⟨a.symbol, t.id⟩ : Mention) = a := by rw [hname]
  refine ⟨n, t, ?_, hunit, by rw [hoccurrences, hsymbol]⟩
  rw [hsymbol, htoken]
  exact ⟨hmention, offset, path.ancestors, hoffset, hleads, hcovers, hsame ▸ hinner⟩

/-- A mention under the cursor is the one find under the cursor. -/
theorem filter_isCursor (hfit : d.Fit g) (hc : Compiles d g u source)
    (hmention : Mentions d g u source n t s) (hdeclared : s.declaration.isSome) :
    ((Occurrences.findsIn (boundUnit d g u source) s (some n.id)).filter fun f => f.isCursor) =
      [Occurrences.findOf u source (some n.id) n t s] := by
  have hknown := (hmention.known hfit hc).1
  have hmem : ∀ f, f ∈ Occurrences.findsIn (boundUnit d g u source) s (some n.id) ↔
      Occurrences.FoundIn d g s (some n.id) u f :=
    fun f => Occurrences.mem_findsIn hfit hknown hdeclared hc
  have hnodup : ((Occurrences.findsIn (boundUnit d g u source) s (some n.id)).map
      Occurrences.Find.site).Nodup := Occurrences.nodup_findsIn hfit hknown hdeclared hc
  have hcursor : (Occurrences.findOf u source (some n.id) n t s).isCursor := decide_eq_true rfl
  have honly : ∀ f ∈ Occurrences.findsIn (boundUnit d g u source) s (some n.id), f.isCursor →
      f = Occurrences.findOf u source (some n.id) n t s := by
    intro f hf hfcursor
    obtain ⟨source', n', t', s', hc', hmention', -, rfl⟩ := (hmem f).1 hf
    obtain rfl : source = source' := Option.some.inj (hc.text.symm.trans hc'.text)
    have hid : n.id = n'.id := Option.some.inj (of_decide_eq_true hfcursor)
    obtain rfl := eq_of_node_id hmention.node hmention'.node hid
    obtain ⟨rfl, hname⟩ := Mention.mk.inj (Option.some.inj (hmention.mention.symm.trans hmention'.mention))
    rw [eq_of_id_eq hmention.mem_sourceTokens hmention'.mem_sourceTokens hname]
  have hfind := (hmem _).2 ⟨source, n, t, s, hc, hmention, rfl, rfl⟩
  have hlist := List.Nodup.filter (fun f : Occurrences.Find => f.isCursor) (List.Nodup.of_map _ hnodup)
  refine List.perm_singleton.1 ((List.perm_ext_iff_of_nodup hlist (List.nodup_singleton _)).2 ?_)
  intro f
  rw [List.mem_filter, List.mem_singleton]
  constructor
  · exact fun hf => honly f hf.1 hf.2
  · rintro rfl
    exact ⟨hfind, hcursor⟩

/-- There is only one thing under a cursor. -/
theorem AtCursor.unique {token' : Token} {n' : Node} {t' : Token} {s' : Symbol}
    (h : AtCursor d g u source position token n t s)
    (h' : AtCursor d g u source position token' n' t' s') :
    token = token' ∧ n = n' ∧ t = t' ∧ s = s' := by
  obtain ⟨offset, ancestors, hoffset, hleads, hcovers, hinner⟩ := h.path
  obtain ⟨offset', ancestors', hoffset', hleads', hcovers', hinner'⟩ := h'.path
  obtain rfl : offset = offset' := Option.some.inj (hoffset.symm.trans hoffset')
  have hlocate : (Tree.ofSource source).locate offset = .ok ⟨ancestors, token⟩ :=
    Tree.locate_eq_ok_iff.2 ⟨hleads, hcovers⟩
  rw [@Tree.locate_eq_ok_iff source offset ⟨ancestors', token'⟩ |>.2 ⟨hleads', hcovers'⟩] at hlocate
  obtain ⟨rfl, rfl⟩ := TokenPath.mk.inj (Except.ok.inj hlocate)
  obtain ⟨rfl, hsame⟩ := Prod.mk.inj (Option.some.inj (hinner.symm.trans hinner'))
  obtain ⟨rfl, hid⟩ := Mention.mk.inj hsame
  exact ⟨rfl, rfl, eq_of_id_eq h.mention.mem_sourceTokens h'.mention.mem_sourceTokens hid, rfl⟩

/-- A strict search finds the symbol under the cursor if it has a declaration. -/
theorem AtCursor.resolve (hfit : d.Fit g) (hc : Compiles d g u source)
    (h : AtCursor d g u source position token n t s) (hdeclared : s.declaration.isSome) :
    ∃ r, (boundUnit d g u source).resolve u position .strict = .ok r ∧ r.token = token ∧
      r.symbol = s := by
  obtain ⟨offset, ancestors, hoffset, hleads, hcovers, hinner⟩ := h.path
  have hlocate : (Tree.ofSource source).locate offset = .ok ⟨ancestors, token⟩ :=
    Tree.locate_eq_ok_iff.2 ⟨hleads, hcovers⟩
  have hfilter := filter_isCursor hfit hc h.mention hdeclared
  have hcursor : (Occurrences.empty.gather (boundUnit d g u source) s (some n.id)).cursor =
      some ((Occurrences.findOf u source (some n.id) n t s).reference.withRole .cursor) := by
    rw [Occurrences.gather_eq, Occurrences.cursor_foldl_put, ← List.head?_filter, hfilter]
    rfl
  refine ⟨⟨u, token, (Occurrences.findOf u source (some n.id) n t s).reference.withRole .cursor,
    Occurrences.empty.gather (boundUnit d g u source) s (some n.id)⟩, ?_, rfl, rfl⟩
  have hstrict : (boundUnit d g u source).tree.locateIn .strict offset = .ok ⟨ancestors, token⟩ :=
    hlocate
  rw [BoundUnit.resolve]
  rw [show (boundUnit d g u source).tree.text = source from rfl, hoffset]
  dsimp only
  rw [hstrict]
  dsimp only
  rw [hinner]
  dsimp only
  rw [hcursor]

/-- **A search at a position of a file** takes place in the unit at the file. -/
theorem resolveIn_eq_ok_iff (hfit : d.Fit g) {uri : Uri} :
    Analysis.resolveIn d g uri position = .ok r ↔
      ∃ path u source, uri.toFile? = some path ∧ path.components = u.steps ∧
        Compiles d g u source ∧ (boundUnit d g u source).resolve u position .strict = .ok r := by
  rw [Analysis.resolveIn_eq_ok]
  constructor
  · rintro ⟨path, u, b, hfile, hat, hunit, hresolve⟩
    obtain ⟨text, htext, -⟩ := Analysis.unitIn_eq_ok_iff.1 hunit
    obtain ⟨v, hv, hsteps⟩ := hfit.listed path text htext
    obtain rfl : v = u := Option.some.inj ((unitAt?_of_components hsteps).symm.trans hat)
    obtain ⟨source, hc, rfl⟩ := unitIn_eq_ok hfit hv hsteps hunit
    exact ⟨path, v, source, hfile, hsteps, hc, hresolve⟩
  · rintro ⟨path, u, source, hfile, hsteps, hc, hresolve⟩
    exact ⟨path, u, _, hfile, unitAt?_of_components hsteps, hc.unitIn_eq hfit hsteps, hresolve⟩

end

/-! ## All occurrences -/

namespace Occurrences

variable {d : Documents} {g : ModuleGraph} {u v : UnitId} {f : Find}

theorem FoundIn.unit_eq {target : Symbol} {cursor : Option NodeId}
    (h : FoundIn d g target cursor u f) : f.reference.unit = u := by
  obtain ⟨source, n, t, s, -, -, -, rfl⟩ := h
  rfl

/-- The finds of a search that starts at a node of a unit. -/
def SearchFinds (d : Documents) (g : ModuleGraph) (target : Symbol) (start : UnitId) (node : NodeId)
    (f : Find) : Prop :=
  ∃ u, FoundIn d g target (if u = start then some node else none) u f

theorem mem_findsOf (hfit : d.Fit g) {m : ModuleId} {target : Symbol}
    (htarget : KnownIn d g m target) (hdeclared : target.declaration.isSome)
    (hu : ∃ source, Compiles d g u source) :
    f ∈ findsOf d g target u ↔ FoundIn d g target none u f := by
  obtain ⟨source, hc⟩ := hu
  rw [findsOf, hc.text]
  exact mem_findsIn hfit htarget hdeclared hc

theorem nodup_findsOf (hfit : d.Fit g) {m : ModuleId} {target : Symbol}
    (htarget : KnownIn d g m target) (hdeclared : target.declaration.isSome)
    (hu : ∃ source, Compiles d g u source) : ((findsOf d g target u).map Find.site).Nodup := by
  obtain ⟨source, hc⟩ := hu
  rw [findsOf, hc.text]
  exact nodup_findsIn hfit htarget hdeclared hc

/-- What a search that starts at a node of a unit comes across: the finds of this unit, then those of
the others. -/
def allFinds (d : Documents) (g : ModuleGraph) (target : Symbol) (u : UnitId) (source : String)
    (node : NodeId) : List Find :=
  findsIn (boundUnit d g u source) target (some node) ++
    ((Analysis.ofGraph g).unitsToSearch target.owner u).flatMap (findsOf d g target)

section
variable (hfit : d.Fit g) {m : ModuleId} {target : Symbol} (htarget : KnownIn d g m target)
  (hdeclared : target.declaration.isSome) {source : String} {node : NodeId}
  (hc : Compiles d g u source)
  (hall : ∀ v ∈ (Analysis.ofGraph g).unitsToSearch target.owner u, ∃ source, Compiles d g v source)

include hfit htarget hdeclared hc hall

/-- A search meets no site twice. -/
theorem nodup_allFinds : ((allFinds d g target u source node).map Find.site).Nodup := by
  have hunit : ∀ {f f' : Find}, f.site = f'.site → f.reference.unit = f'.reference.unit :=
    fun h => congrArg (fun a : Site => UnitId.mk a.module a.unit) h
  have hothers : ∀ {v f}, v ∈ (Analysis.ofGraph g).unitsToSearch target.owner u →
      f ∈ findsOf d g target v → f.reference.unit = v := fun hv hf =>
    ((mem_findsOf hfit htarget hdeclared (hall _ hv)).1 hf).unit_eq
  rw [allFinds, List.map_append, List.map_flatMap, List.nodup_append, List.nodup_flatMap]
  refine ⟨nodup_findsIn hfit htarget hdeclared hc, ⟨?_, ?_⟩, ?_⟩
  · exact fun v hv => nodup_findsOf hfit htarget hdeclared (hall v hv)
  · refine Analysis.nodup_unitsToSearch.imp_of_mem ?_
    intro v v' hv hv' hne a ha ha'
    obtain ⟨f, hf, rfl⟩ := List.mem_map.1 ha
    obtain ⟨f', hf', hsite⟩ := List.mem_map.1 ha'
    exact hne ((hothers hv hf).symm.trans ((hunit hsite).symm.trans (hothers hv' hf')))
  · intro a ha a' ha' heq
    obtain ⟨f, hf, rfl⟩ := List.mem_map.1 ha
    obtain ⟨v, hv, ha'⟩ := List.mem_flatMap.1 ha'
    obtain ⟨f', hf', rfl⟩ := List.mem_map.1 ha'
    have hfirst := ((mem_findsIn hfit htarget hdeclared hc).1 hf).unit_eq
    refine (Analysis.mem_unitsToSearch.1 hv).2.2 ?_
    exact (hothers hv hf').symm.trans ((hunit heq).symm.trans hfirst)

/-- A search comes across mentions of its target only. -/
theorem searchFinds_of_mem (h : f ∈ allFinds d g target u source node) :
    SearchFinds d g target u node f := by
  rw [allFinds, List.mem_append, List.mem_flatMap, mem_findsIn hfit htarget hdeclared hc] at h
  rcases h with hf | ⟨v, hv, hf⟩
  · exact ⟨u, by rwa [if_pos rfl]⟩
  · refine ⟨v, ?_⟩
    rw [if_neg (Analysis.mem_unitsToSearch.1 hv).2.2]
    exact (mem_findsOf hfit htarget hdeclared (hall v hv)).1 hf

/-- A search comes across the mentions in all units that compile: the others are not searched because
they mention nothing of this owner. -/
theorem mem_of_searchFinds (hfree : CollisionFree (projectPaths d g))
    (h : SearchFinds d g target u node f) : f ∈ allFinds d g target u source node := by
  rw [allFinds, List.mem_append, List.mem_flatMap, mem_findsIn hfit htarget hdeclared hc]
  obtain ⟨v, hf⟩ := h
  by_cases heq : v = u
  · subst heq
    rw [if_pos rfl] at hf
    exact .inl hf
  · rw [if_neg heq] at hf
    obtain ⟨source', n, t, s, hc', hmention, hid, -⟩ := id hf
    have hreaches := (name_of_mention hfit htarget hdeclared hfree hc' hmention hid).2.2.2
    have hv := Analysis.mem_unitsToSearch.2 ⟨hc'.listed, hreaches, heq⟩
    exact .inr ⟨v, hv, (mem_findsOf hfit htarget hdeclared (hall v hv)).2 hf⟩

end

/-- A search succeeds if every unit to search compiles. -/
theorem exists_occurrencesIn_iff (hfit : d.Fit g) {r : Resolved} :
    (∃ o, Analysis.occurrencesIn d g r = .ok o) ↔
      ∀ v ∈ (Analysis.ofGraph g).unitsToSearch r.symbol.owner r.unit,
        ∃ source, Compiles d g v source := by
  have hunits : ∀ v ∈ (Analysis.ofGraph g).unitsToSearch r.symbol.owner r.unit, g.Lists v :=
    fun v hv => (Analysis.mem_unitsToSearch.1 hv).1
  rw [Analysis.occurrencesIn]
  constructor
  · rintro ⟨o, ho⟩
    obtain ⟨found, hgather, -⟩ := Except.map_eq_ok.1 ho
    exact ((gatherIn_eq_ok_iff hfit hunits).1 hgather).1
  · intro hall
    rw [(gatherIn_eq_ok_iff hfit hunits).2 ⟨hall, rfl⟩]
    exact ⟨_, rfl⟩

/-- The occurrences that a search which starts at a node of a unit has found, and the one under the
cursor. -/
structure Found (d : Documents) (g : ModuleGraph) (target : Symbol) (start : UnitId)
    (node : NodeId) (o : Occurrences) (fs : List Find) (c : Find) : Prop where
  filed : Filed o fs
  sites : (fs.map Find.site).Nodup
  cursor : fs.filter (fun f => f.isCursor) = [c]
  sound : ∀ f ∈ fs, SearchFinds d g target start node f

/-- Whether a search has found every occurrence of the symbol in the project. -/
structure Complete (d : Documents) (g : ModuleGraph) (target : Symbol) (start : UnitId)
    (node : NodeId) (o : Occurrences) (fs : List Find) (c : Find) : Prop
    extends Found d g target start node o fs c where
  complete : ∀ f, SearchFinds d g target start node f → f ∈ fs

theorem Complete.mem {target : Symbol} {start : UnitId} {node : NodeId} {o : Occurrences}
    {fs : List Find} {c : Find} (h : Complete d g target start node o fs c) (f : Find) :
    f ∈ fs ↔ SearchFinds d g target start node f :=
  ⟨h.sound f, h.complete f⟩

/-- **A search misses nothing and finds nothing else:** it comes across nodes that mention the symbol
only, and if paths of symbols do not collide across all of them in the units of the project that
compile. -/
theorem exists_found (hfit : d.Fit g) {source : String} {position : Position} {r : Resolved}
    (hc : Compiles d g u source)
    (hr : (boundUnit d g u source).resolve u position .strict = .ok r)
    (hdeclared : r.symbol.declaration.isSome) {o : Occurrences}
    (ho : Analysis.occurrencesIn d g r = .ok o) :
    ∃ n t fs, AtCursor d g u source position r.token n t r.symbol ∧
      Found d g r.symbol u n.id o fs (findOf u source (some n.id) n t r.symbol) ∧
      (CollisionFree (projectPaths d g) → ∀ f, SearchFinds d g r.symbol u n.id f → f ∈ fs) := by
  obtain ⟨n, t, hat, hunit, hfirst⟩ := resolve_eq_ok hfit hc hr
  have htarget := (hat.mention.known hfit hc).1
  rw [Analysis.occurrencesIn, hunit] at ho
  generalize r.symbol = target at *
  obtain ⟨found, hgather, rfl⟩ := Except.map_eq_ok.1 ho
  have hunits : ∀ v ∈ (Analysis.ofGraph g).unitsToSearch target.owner u, g.Lists v :=
    fun v hv => (Analysis.mem_unitsToSearch.1 hv).1
  obtain ⟨hall, hfound⟩ := (gatherIn_eq_ok_iff hfit hunits).1 hgather
  rw [hfirst, ← List.foldl_append] at hfound
  have hsites : ((allFinds d g target u source n.id).map Find.site).Nodup :=
    nodup_allFinds hfit htarget hdeclared hc hall
  have hsound : ∀ f ∈ allFinds d g target u source n.id, SearchFinds d g target u n.id f :=
    fun f => searchFinds_of_mem hfit htarget hdeclared hc hall
  have hcursor : (allFinds d g target u source n.id).filter (fun f => f.isCursor) =
      [findOf u source (some n.id) n t target] := by
    rw [allFinds, List.filter_append, filter_isCursor hfit hc hat.mention hdeclared]
    rw [List.filter_eq_nil_iff.2, List.append_nil]
    intro f hf
    obtain ⟨v, hv, hf⟩ := List.mem_flatMap.1 hf
    obtain ⟨source', n', t', s', -, -, -, rfl⟩ :=
      (mem_findsOf hfit htarget hdeclared (hall v hv)).1 hf
    simp [findOf]
  have hfiled : Filed found (allFinds d g target u source n.id) := by
    rw [hfound]
    exact Filed.empty.foldl_put hsites
  have hprune := hfiled.prune_eq hcursor fun f hf => by
    obtain ⟨v, source', n', t', s', -, -, hid, rfl⟩ := hsound f hf
    exact (isEquivalent_iff htarget hdeclared).2 hid
  rw [hprune]
  exact ⟨n, t, _, hat, ⟨hfiled, hsites, hcursor, hsound⟩, fun hfree f =>
    mem_of_searchFinds hfit htarget hdeclared hc hall hfree⟩

theorem exists_complete (hfit : d.Fit g) (hfree : CollisionFree (projectPaths d g))
    {source : String} {position : Position} {r : Resolved} (hc : Compiles d g u source)
    (hr : (boundUnit d g u source).resolve u position .strict = .ok r)
    (hdeclared : r.symbol.declaration.isSome) {o : Occurrences}
    (ho : Analysis.occurrencesIn d g r = .ok o) :
    ∃ n t fs, AtCursor d g u source position r.token n t r.symbol ∧
      Complete d g r.symbol u n.id o fs (findOf u source (some n.id) n t r.symbol) := by
  obtain ⟨n, t, fs, hat, hfound, hcomplete⟩ := exists_found hfit hc hr hdeclared ho
  exact ⟨n, t, fs, hat, hfound, hcomplete hfree⟩

end Occurrences

end Xref
