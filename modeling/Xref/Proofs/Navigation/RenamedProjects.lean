import Xref.Proofs.Binding.Rebinding
import Xref.Proofs.Navigation.Searches

/-!
# Projects in which a symbol has a new name

In a project the tokens that name a symbol give way to a new name that no identifier has
(`Renamed`). The project is then what it was, up to this name: the documents fit the graph
(`Renamed.fit'`), the modules declare what they declared (`Renamed.scope`), and the units mention
what they mentioned (`Renamed.mentions`).
-/

namespace Xref

open Binding

/-- Where a token stands in other documents that stands at an offset. -/
def movedStart (d d' : Documents) (m : ModuleId) (u : String) (offset : Nat) : Nat :=
  (((d.textOf? ⟨m, u⟩).bind fun source =>
    (sourceTokens source).find? fun t => t.span.start == offset).bind fun t =>
      (d'.textOf? ⟨m, u⟩).bind fun source =>
        (sourceTokens source).find? fun t' => t'.id == t.id).elim 0 fun t' => t'.span.start

/-- A token stands where it has moved. -/
theorem movedStart_eq {d d' : Documents} {m : ModuleId} {u source source' : String} {t t' : Token}
    (htext : d.textOf? ⟨m, u⟩ = some source) (htext' : d'.textOf? ⟨m, u⟩ = some source')
    (ht : t ∈ sourceTokens source) (ht' : t' ∈ sourceTokens source') (hid : t'.id = t.id) :
    movedStart d d' m u t.span.start = t'.span.start := by
  have hfind : (sourceTokens source).find? (fun k => k.span.start == t.span.start) = some t := by
    have hsome : ((sourceTokens source).find? fun k => k.span.start == t.span.start).isSome :=
      List.find?_isSome.2 ⟨t, ht, beq_self_eq_true _⟩
    obtain ⟨k, hk⟩ := Option.isSome_iff_exists.1 hsome
    rw [hk, eq_of_start_eq (List.mem_of_find?_eq_some hk) ht (by simpa using List.find?_some hk)]
  have hfind' : (sourceTokens source').find? (fun k => k.id == t.id) = some t' := by
    have hsome : ((sourceTokens source').find? fun k => k.id == t.id).isSome :=
      List.find?_isSome.2 ⟨t', ht', by simpa using hid⟩
    obtain ⟨k, hk⟩ := Option.isSome_iff_exists.1 hsome
    have hkid : k.id = t.id := by simpa using List.find?_some hk
    rw [hk, eq_of_id_eq (List.mem_of_find?_eq_some hk) ht' (hkid.trans hid.symm)]
  rw [movedStart, htext, Option.bind_some, hfind, Option.bind_some, htext', Option.bind_some, hfind']
  rfl

/-- Whether `p` holds of the tokens of a project that name a symbol, and of no others. -/
def Names (d : Documents) (g : ModuleGraph) (s : Symbol) (p : UnitId → Token → Bool) : Prop :=
  ∀ u source, g.Lists u → d.textOf? u = some source → ∀ t ∈ sourceTokens source,
    (p u t ↔ ∃ n s', Mentions d g u source n t s' ∧ s'.id = s.id)

/-- Whether documents are those of a project in which tokens have given way to a name. -/
structure Replaced (d d' : Documents) (g : ModuleGraph) (p : UnitId → Token → Bool)
    (new : String) : Prop where
  texts : ∀ u source, g.Lists u → d.textOf? u = some source →
    d'.textOf? u = some (replaceTokens (p u) new source)
  absent : ∀ path, d.get? path = none → d'.get? path = none
  unlocked : d'.locks.held = []

/-- Whether offsets can count the bytes of every text of a project. -/
def AllSized (d : Documents) (g : ModuleGraph) : Prop := ∀ m, Sized d g m

theorem AllSized.of_text {d : Documents} {g : ModuleGraph} {u : UnitId} {source : String}
    (h : AllSized d g) (hu : g.Lists u) (htext : d.textOf? u = some source) :
    source.utf8ByteSize ≤ Span.maxOffset :=
  h u.module u.unit hu source htext

theorem allSized_iff {d : Documents} {g : ModuleGraph} : AllSized d g ↔ ∀ m ∈ g.modules,
    ∀ unit ∈ m.units, ∀ text ∈ d.textOf? ⟨m.id, unit⟩, text.utf8ByteSize ≤ Span.maxOffset := by
  constructor
  · exact fun h m hm unit hunit text htext =>
      h.of_text (ModuleGraph.lists_iff.2 ⟨m, hm, rfl, hunit⟩) htext
  · intro h id unit hunit
    obtain ⟨m, hm, rfl, hmem⟩ := ModuleGraph.lists_iff.1 (lists_of_mem_unitsOf hunit)
    exact h m hm unit hmem

instance (d : Documents) (g : ModuleGraph) : Decidable (AllSized d g) :=
  decidable_of_iff _ allSized_iff.symm

/-- Whether documents are those of a project in which the symbol at a path has a new name that no
identifier had. -/
structure Renamed (d d' : Documents) (g : ModuleGraph) (path : SymbolPath) (s : Symbol)
    (p : UnitId → Token → Bool) (new : String) : Prop extends Replaced d d' g p new where
  fit : d.Fit g
  sized : AllSized d g
  sized' : AllSized d' g
  free : CollisionFree (projectPaths d g)
  mem : path ∈ projectPaths d g
  symbol : s.At path
  declared : s.declaration.isSome
  named : Names d g s p
  word : isWord new
  kind : wordKind new = .identifier
  fresh : ∀ u source, g.Lists u → d.textOf? u = some source → ∀ t ∈ sourceTokens source,
    t.kind = .identifier → t.text ≠ new

namespace Renamed

variable {d d' : Documents} {g : ModuleGraph} {s : Symbol} {p : UnitId → Token → Bool}
  {new : String} {path : SymbolPath} {u : UnitId} {source : String} {t : Token} {n : Node}

/-- The change of the name of the symbol. -/
def change (_ : Renamed d d' g path s p new) : Change := ⟨path, new, movedStart d d'⟩

theorem target_eq (h : Renamed d d' g path s p new) : h.change.target = s.id := h.symbol.id.symm

theorem known (h : Renamed d d' g path s p new) : KnownIn d g path.owner s :=
  ⟨path, h.mem, h.symbol, fun _ => .inl rfl⟩

theorem sized_of_text (h : Renamed d d' g path s p new) (hu : g.Lists u)
    (htext : d.textOf? u = some source) : source.utf8ByteSize ≤ Span.maxOffset :=
  h.sized.of_text hu htext

theorem sized_after (h : Renamed d d' g path s p new) (hu : g.Lists u)
    (htext : d.textOf? u = some source) :
    (replaceTokens (p u) new source).utf8ByteSize ≤ Span.maxOffset :=
  h.sized'.of_text hu (h.texts u source hu htext)

/-! ## Tokens that name the symbol -/

section
variable (h : Renamed d d' g path s p new) (hu : g.Lists u) (htext : d.textOf? u = some source)

include h hu htext

/-- A symbol with the identity of the one that is renamed has its name and is declared. -/
theorem known_of_mentions {s' : Symbol} (hmention : Mentions d g u source n t s')
    (hid : s'.id = s.id) : s'.declaration.isSome ∧ t.kind = .identifier ∧ t.text = s.name := by
  obtain ⟨hknown, hname⟩ := hmention.known_of_text h.fit hu htext (h.sized_of_text hu htext)
  obtain ⟨hsame, hsome, -⟩ := known_of_id_eq h.fit h.free hknown h.known hid h.declared
  obtain ⟨hkind, htextEq⟩ := hname hsome
  exact ⟨hsome, hkind, htextEq.trans hsame⟩

/-- The tokens that are replaced are identifiers with the name of the symbol. -/
theorem name (ht : t ∈ sourceTokens source) (hp : p u t) :
    t.kind = .identifier ∧ t.text = s.name := by
  obtain ⟨n, s', hmention, hid⟩ := (h.named u source hu htext t ht).1 hp
  exact (h.known_of_mentions hu htext hmention hid).2

theorem alike_change : (Tree.ofSource source).root.Alike
    (h.change.RenamesToken u.module u.unit (p u))
    (Tree.ofSource (replaceTokens (p u) new source)).root := by
  refine (Tree.alike_replaceTokens (fun t ht hp => (h.name hu htext ht hp).1) h.word h.kind).imp
    fun t ht t' ht' hrenamed => ?_
  rw [Tree.tokens_root] at ht ht'
  exact ⟨hrenamed, movedStart_eq htext (h.texts u source hu htext) ht ht' hrenamed.id⟩

theorem alike : (Tree.ofSource source).root.Alike (Token.Renamed (p u) new)
    (Tree.ofSource (replaceTokens (p u) new source)).root :=
  (h.alike_change hu htext).imp fun _ _ _ _ ht => ht.renamed

/-- **The tokens that are replaced are marked** for the change. -/
theorem marks : h.change.Marks (contextIn d g u source) source (p u) := by
  constructor
  · rintro ⟨node, symbol, name⟩ ha t ht hid
    obtain ⟨n, t', rfl, hid', hmention⟩ :=
      Mentions.exists_of_text h.fit hu htext (h.sized_of_text hu htext) (mention?_iff.2 ha)
    obtain rfl := eq_of_id_eq ht hmention.mem_sourceTokens (hid.trans hid'.symm)
    rw [h.named u source hu htext t ht, h.target_eq]
    constructor
    · rintro ⟨n', s', hmention', hid⟩
      obtain ⟨-, rfl⟩ := hmention.node_unique hmention'
      exact hid
    · exact fun hid => ⟨n, symbol, hmention, hid⟩
  · intro t ht hp
    obtain ⟨n, s', hmention, hid⟩ := (h.named u source hu htext t ht).1 hp
    exact ⟨n, hmention.node, hmention.token, s', mention?_iff.1 hmention.mention,
      hid.trans h.target_eq.symm⟩
  · rintro ⟨node, symbol, name⟩ ha hid
    obtain ⟨n, t', rfl, -, hmention⟩ :=
      Mentions.exists_of_text h.fit hu htext (h.sized_of_text hu htext) (mention?_iff.2 ha)
    exact (h.known_of_mentions hu htext hmention (hid.trans h.target_eq)).1
  · intro t ht hp
    obtain ⟨hkind, hname⟩ := h.name hu htext ht hp
    exact ⟨hkind, hname.trans h.symbol.name⟩
  · exact h.fresh u source hu htext
  · intro heq
    have hkind := h.kind
    rw [← show "record" = new from heq] at hkind
    revert hkind
    decide
  · intro q hq hid
    exact eq_of_ofPath_eq h.fit h.free
      (mem_projectPaths.2 ⟨u, source, hu, htext, hq⟩) h.mem hid

/-! ## Units after the change -/

/-- A unit imports what it imported. -/
theorem importsOf_eq :
    importsOf (.ofSource (replaceTokens (p u) new source)) = importsOf (.ofSource source) := by
  refine importsOf_eq_of_alike (h.alike hu htext) (fun _ _ ht => ht.kind) ?_
  intro n hn hkind t t' ht hrenamed
  obtain ⟨v, hv, rfl⟩ := exists_visit (c := contextIn d g u source) (Node.mem_preorder_child hn)
  exact Change.Marks.text_eq (ρ := h.change) hrenamed
    ((h.marks hu htext).import_unmarked hv hkind ht).1

/-- A unit compiles if it did. -/
theorem unknownToken?_eq_none :
    unknownToken? (.ofSource (replaceTokens (p u) new source)) = none ↔
      unknownToken? (.ofSource source) = none := by
  rcases rel_cases (unknownToken?_rel (h.alike hu htext) fun _ _ ht => ht.kind) with
    ⟨ht, ht'⟩ | ⟨t, t', ht, ht', -⟩
  · rw [ht, ht']
  · rw [ht, ht']
    simp

end

/-- The modules declare what they declared. -/
theorem scope (h : Renamed d d' g path s p new) (k : ModuleId) :
    h.change.RenamesScope (scopeOf d g) k (scopeOf d g k) (scopeOf d' g k) := by
  refine ⟨rfl, rfl, ?_, ?_⟩
  · refine List.rel_flatMap (R := fun x y => x = y ∧ x ∈ g.unitsOf k)
      (List.forall₂_same.2 fun _ hx => ⟨rfl, hx⟩) ?_
    rintro unit _ ⟨rfl, hunit⟩
    have hu : g.Lists ⟨k, unit⟩ := hunit
    obtain ⟨source, htext⟩ := h.fit.text ⟨k, unit⟩ hu
    rw [itemsIn, itemsIn, htext, h.texts ⟨k, unit⟩ source hu htext]
    refine List.rel_filterMap (fun n n' hn => ?_) (forall₂_mem (h.alike hu htext).children)
    exact (h.marks hu htext).itemOf?_renames (fun _ => rfl) (Node.mem_preorder_child hn.1) hn.2.2
  · -- The identity of a declaration is that of its module and its name.
    have hid : ∀ item ∈ (scopeOf d g k).items,
        item.symbol.id = .ofPath (.item k item.symbol.name) := by
      intro item hitem
      obtain ⟨unit, hunit, hitem⟩ := List.mem_flatMap.1 hitem
      obtain ⟨source, htext⟩ := h.fit.text ⟨k, unit⟩ hunit
      rw [itemsIn, htext] at hitem
      obtain ⟨n, -, hitem⟩ := List.mem_filterMap.1 hitem
      obtain ⟨kind, name, -, -, -, -, -, hsymbol⟩ := itemOf?_eq_some hitem
      rw [hsymbol]
      rfl
    intro item hitem item' hitem' hname
    rw [hid item hitem, hid item' hitem', hname]

/-- **A unit mentions the symbol where it mentioned it,** and it mentions nothing that it did not
mention. -/
theorem mentions (h : Renamed d d' g path s p new) (hu : g.Lists u)
    (htext : d.textOf? u = some source) :
    h.change.RenamesMentions (bindTree (contextIn d g u source) (.ofSource source))
      (bindTree (contextIn d' g u (replaceTokens (p u) new source))
        (.ofSource (replaceTokens (p u) new source))) := by
  have himports : importedModules g u.module (.ofSource (replaceTokens (p u) new source)) =
      importedModules g u.module (.ofSource source) := by
    rw [importedModules, importedModules, h.importsOf_eq hu htext]
  have hcontext : contextIn d' g u (replaceTokens (p u) new source) =
      Change.contextSeeing (scopeOf d' g) u.module u.unit
        (importedModules g u.module (.ofSource source)) := by
    rw [← himports]
    rfl
  rw [hcontext]
  exact Change.bindTree_renames (h.marks hu htext) h.scope (h.alike_change hu htext)

/-- The documents fit the graph. -/
theorem fit' (h : Renamed d d' g path s p new) : d'.Fit g := by
  refine ⟨h.fit.wellNamed, ?_, ?_, ?_, h.unlocked⟩
  · intro u hu
    obtain ⟨source, htext⟩ := h.fit.text u hu
    exact ⟨_, h.texts u source hu htext⟩
  · intro q text htext
    cases hq : d.get? q with
    | none => rw [h.absent q hq] at htext; cases htext
    | some source => exact h.fit.listed q source hq
  · intro u text hu htext _
    obtain ⟨source, hsource⟩ := h.fit.text u hu
    obtain rfl := Option.some.inj ((h.texts u source hu hsource).symm.trans htext)
    rw [h.importsOf_eq hu hsource]
    exact h.fit.imports u source hu hsource (h.sized_of_text hu hsource)

theorem compiles (h : Renamed d d' g path s p new) (hc : Compiles d g u source) :
    Compiles d' g u (replaceTokens (p u) new source) :=
  ⟨⟨(h.unknownToken?_eq_none hc.listed hc.text).2 hc.known, h.sized' _, fun m _ => h.sized' m⟩,
    hc.listed, h.texts u source hc.listed hc.text⟩

end Renamed

end Xref
