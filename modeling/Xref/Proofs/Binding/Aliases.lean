import Xref.Proofs.Binding.Forms
import Xref.Workspace

/-!
# Records of one shape

Records that are written in place are aliases of each other exactly if they have the same fields, in
the same order and with the same types, wherever they are written and however the types in them are
qualified (`aliases_merge`). Identities are hashes, so this holds as far as the paths of a workspace
and the shapes of its records have different identities if they are different.
-/

namespace Xref

open Binding

namespace Workspace

/-! ## Paths of a workspace -/

/-- Whether the current text of a unit compiles to a bound unit. -/
def CompilesTo (w : Workspace) (u : UnitId) (b : BoundUnit) : Prop :=
  ∃ source, w.text? u = some source ∧
    w.compiler.compile w.session.documents w.graph u source = .ok b

/-- The paths that a unit introduces, and those of the shapes of its records if it compiles. -/
def pathsIn (w : Workspace) (u : UnitId) : List SymbolPath :=
  match w.text? u with
  | none => []
  | some source =>
    unitPaths u.module u.unit (.ofSource source) ++
      match w.compiler.compile w.session.documents w.graph u source with
      | .ok b => b.records.map fun n => .shape (b.typeForm n).text
      | .error _ => []

/-- The paths of the units that a workspace lists, and of some more units. -/
def symbolPaths (w : Workspace) (us : List UnitId) : List SymbolPath :=
  ((w.graph.modules.flatMap fun m => m.units.map (UnitId.mk m.id)) ++ us).flatMap w.pathsIn

variable {w : Workspace} {u : UnitId} {us : List UnitId} {b b' : BoundUnit} {source : String}
  {p : SymbolPath}

theorem pathsIn_of_text (htext : w.text? u = some source)
    (hp : p ∈ unitPaths u.module u.unit (.ofSource source)) : p ∈ w.pathsIn u := by
  rw [pathsIn, htext]
  exact List.mem_append_left _ hp

theorem mem_symbolPaths (hu : u ∈ us ∨ w.graph.Lists u) (hp : p ∈ w.pathsIn u) :
    p ∈ w.symbolPaths us := by
  refine List.mem_flatMap.2 ⟨u, ?_, hp⟩
  rcases hu with hu | hlisted
  · exact List.mem_append_right _ hu
  · obtain ⟨m, hm, hid, hunit⟩ := ModuleGraph.exists_module_of_lists hlisted
    refine List.mem_append_left _ (List.mem_flatMap.2 ⟨m, hm, List.mem_map.2 ⟨u.unit, hunit, ?_⟩⟩)
    rw [hid]

/-- Whether the current text of a unit compiles to what a walk in a context binds. Modules with words
for names own what the unit sees, and it is at paths of the workspace as the symbols of the unit
are. -/
structure BoundBy (w : Workspace) (us : List UnitId) (u : UnitId) (b : BoundUnit) (c : Context)
    (source : String) : Prop where
  isWord : u.module.IsWord
  text : w.text? u = some source
  compiles : w.compiler.compile w.session.documents w.graph u source = .ok b
  module : c.module = u.module
  unit : c.unit = u.unit
  bound : b = c.bound source
  owners : c.visible.Good fun s => s.owner.IsWord
  known : c.visible.Good fun s => ∃ p ∈ w.symbolPaths us, s.At p
  paths : unitPaths c.module c.unit (.ofSource source) ⊆ w.symbolPaths us
  shapes : ∀ n ∈ b.records, SymbolPath.shape (b.typeForm n).text ∈ w.symbolPaths us

theorem CompilesTo.exists_boundBy (hword : u.module.IsWord) (hu : u ∈ us)
    (hb : w.CompilesTo u b) : ∃ c source, w.BoundBy us u b c source := by
  obtain ⟨source, htext, hcompile⟩ := hb
  obtain ⟨c, hmodule, hunit, hvisible, hbound⟩ := exists_context_of_compile hcompile
  refine ⟨c, source, hword, htext, hcompile, hmodule, hunit, ?_, hvisible _ ?_, hvisible _ ?_,
    ?_, ?_⟩
  · rw [hbound, Context.bound, hmodule, hunit]
  · intro v text hreads n hn p hp s hs
    rw [hs.owner, owner_of_mem_itemPaths hp]
    cases hreads with
    | own => exact hword
    | listed hmodule =>
      rcases hmodule with hsame | himported
      · exact hsame ▸ hword
      · exact isWord_of_imported himported
  · intro v text hreads n hn p hp s hs
    refine ⟨p, ?_, hs⟩
    have hpath : p ∈ unitPaths v.module v.unit (.ofSource text) := itemPaths_subset hn hp
    cases hreads with
    | own => exact mem_symbolPaths (.inl hu) (pathsIn_of_text htext hpath)
    | listed _ hlisted htext => exact mem_symbolPaths (.inr hlisted) (pathsIn_of_text htext hpath)
  · rw [hmodule, hunit]
    exact fun p hp => mem_symbolPaths (.inl hu) (pathsIn_of_text htext hp)
  · intro n hn
    refine mem_symbolPaths (.inl hu) ?_
    rw [pathsIn, htext]
    dsimp only
    rw [hcompile]
    exact List.mem_append_right _ (List.mem_map_of_mem hn)

/-! ## Records of one shape -/

/-- The token that a record starts with tells it apart from the other nodes of the unit. -/
theorem node_eq_of_start {n n' : Node} {keyword keyword' : Token}
    (hn : n ∈ (Tree.ofSource source).root.preorder)
    (hn' : n' ∈ (Tree.ofSource source).root.preorder)
    (hkeyword : n.slots.head?.bind Slot.token? = some keyword)
    (hkeyword' : n'.slots.head?.bind Slot.token? = some keyword')
    (h : keyword.span.start = keyword'.span.start) : n = n' := by
  have hmem := mem_childTokens_of_first hkeyword
  have hmem' := mem_childTokens_of_first hkeyword'
  obtain rfl := eq_of_start_eq (Change.Marks.mem_of_childToken hn hmem)
    (Change.Marks.mem_of_childToken hn' hmem') h
  exact Node.parent_unique (Change.Marks.nodup_tokens (Node.self_mem_preorder _)) hn hn' hmem hmem'
    rfl

section
variable {u' : UnitId} {c c' : Context} {source' : String} {n n' : Node} {a a' : Mention}
  (hc : w.BoundBy us u b c source) (hc' : w.BoundBy us u' b' c' source')
  (hfree : CollisionFree (w.symbolPaths us)) (hn : n ∈ b.records) (ha : b.mention? n.id = some a)
include hc hc' hfree hn ha

/-- Records with one identity are the same record, so they have one form. -/
theorem typeForm_eq_of_id (hn' : n' ∈ b'.records) (ha' : b'.mention? n'.id = some a')
    (h : a.symbol.id = a'.symbol.id) : b.typeForm n = b'.typeForm n' := by
  obtain ⟨hmem, -⟩ := BoundUnit.mem_records.1 hn
  obtain ⟨hmem', -⟩ := BoundUnit.mem_records.1 hn'
  rw [hc.bound] at hn ha hmem
  rw [hc'.bound] at hn' ha' hmem'
  obtain ⟨v, -, -, keyword, hkeyword, hsymbol, hpath⟩ := mention_record hn ha
  obtain ⟨v', -, -, keyword', hkeyword', hsymbol', hpath'⟩ := mention_record hn' ha'
  rw [hsymbol, hsymbol'] at h
  have htext := hfree _ (hc.paths hpath) _ (hc'.paths hpath') h
  rw [hc.module, hc.unit, hc'.module, hc'.unit] at htext
  obtain ⟨hmodule, hunit, hstart⟩ :=
    SymbolPath.record_text_injective hc.isWord hc'.isWord htext
  obtain rfl : u = u' := by
    cases u
    cases u'
    rw [UnitId.mk.injEq]
    exact ⟨hmodule, hunit⟩
  -- A unit has one text, so the records are in one tree, and they start with the same token.
  obtain rfl := Option.some.inj (hc.text.symm.trans hc'.text)
  obtain rfl := Except.ok.inj (hc.compiles.symm.trans hc'.compiles)
  rw [node_eq_of_start hmem hmem' hkeyword hkeyword' hstart]

/-- Records of one form are equivalent, and no others are. -/
theorem isEquivalent_iff_typeForm (hfound : b.ResolvesQualified n) (hn' : n' ∈ b'.records)
    (ha' : b'.mention? n'.id = some a') (hfound' : b'.ResolvesQualified n') :
    a.symbol.isEquivalent a'.symbol ↔ b.typeForm n = b'.typeForm n' := by
  have hid := typeForm_eq_of_id hc hc' hfree hn ha hn' ha'
  have hshape := hfree _ (hc.shapes n hn) _ (hc'.shapes n' hn')
  obtain ⟨hmem, hkind, -⟩ := BoundUnit.mem_records.1 hn
  obtain ⟨hmem', hkind', -⟩ := BoundUnit.mem_records.1 hn'
  rw [hc.bound] at hn ha hfound hid hshape ⊢
  rw [hc'.bound] at hn' ha' hfound' hid hshape ⊢
  obtain ⟨v, hv, rfl, keyword, -, hsymbol, -⟩ := mention_record hn ha
  obtain ⟨v', hv', rfl, keyword', -, hsymbol', -⟩ := mention_record hn' ha'
  have hform := shape_of_visit hc.owners hv hkind hfound keyword
  have hform' := shape_of_visit hc'.owners hv' hkind' hfound' keyword'
  rw [hsymbol, hsymbol'] at hid ⊢
  rw [Symbol.isEquivalent_of_shapes rfl rfl, hform.text, hform'.text]
  constructor
  · rintro (h | h)
    -- Two records of one identity are one record; otherwise the text of the shape decides.
    · exact hid h
    · have htext := hshape h
      simp only [SymbolPath.text, String.append_left_inj, String.append_right_inj] at htext
      exact TypeForm.text_injective hform.formed hform'.formed htext
  · intro h
    rw [h]
    exact .inr rfl

/-- What is no record written in place is not equivalent to one. -/
theorem not_isEquivalent_other (hn' : n' ∈ b'.tree.root.preorder)
    (hkind : n'.kind ≠ .recordTypeDescriptor) (ha' : b'.mention? n'.id = some a') :
    ¬ a.symbol.isEquivalent a'.symbol := by
  rw [hc.bound] at hn ha
  rw [hc'.bound] at hn' ha'
  obtain ⟨v, -, -, keyword, -, hsymbol, hpath⟩ := mention_record hn ha
  obtain ⟨p, hp, hat, hrecord, hlast⟩ := mention_other hc'.known hc'.paths hn' hkind ha'
  rw [Symbol.isEquivalent_of_no_shape (hat.shape hrecord), hsymbol, hat.id]
  intro h
  have htext := hfree _ (hc.paths hpath) _ hp h
  rw [hc.module] at htext
  exact SymbolPath.text_ne_record hrecord hlast hc.isWord _ _ htext.symm

end

/-- **Records written in place are equivalent exactly if they have the same fields,** in order,
with the same names and types; and no other symbol is equivalent to one of them. Two types are the
same if they are found as symbols of one owner and name, are records with the same fields, are not
found and have one name, or are both left out. -/
theorem aliases_merge {u' : UnitId} (hu : u.module.IsWord) (hu' : u'.module.IsWord)
    (hb : w.CompilesTo u b) (hb' : w.CompilesTo u' b')
    (hfree : CollisionFree (w.symbolPaths [u, u'])) {n : Node} (hn : n ∈ b.records) {a : Mention}
    (ha : b.mention? n.id = some a) :
    (b.ResolvesQualified n → ∀ n' ∈ b'.records, b'.ResolvesQualified n' →
      ∀ a', b'.mention? n'.id = some a' →
        (a.symbol.isEquivalent a'.symbol ↔ b.typeForm n = b'.typeForm n')) ∧
    ∀ n' ∈ b'.tree.root.preorder, n'.kind ≠ .recordTypeDescriptor →
      ∀ a', b'.mention? n'.id = some a' →
        ¬ a.symbol.isEquivalent a'.symbol ∧ ¬ a'.symbol.isEquivalent a.symbol := by
  obtain ⟨c, source, hc⟩ : ∃ c source, w.BoundBy [u, u'] u b c source :=
    hb.exists_boundBy hu (by simp)
  obtain ⟨c', source', hc'⟩ : ∃ c source, w.BoundBy [u, u'] u' b' c source :=
    hb'.exists_boundBy hu' (by simp)
  constructor
  · intro hfound n' hn' hfound' a' ha'
    exact isEquivalent_iff_typeForm hc hc' hfree hn ha hfound hn' ha' hfound'
  · intro n' hn' hkind a' ha'
    have hnot := not_isEquivalent_other hc hc' hfree hn ha hn' hkind ha'
    exact ⟨hnot, Symbol.isEquivalent_comm a'.symbol _ ▸ hnot⟩

/-- Two units that write the same record type: one in the module of the type in it, the other with
the name of this module. -/
def aliasFiles : List SourceFile :=
  [⟨⟨⟨"lib"⟩, "lib.nav"⟩,
      "type T = record { };\nlet a: record { t: T; r: record { k: int; }; u: V; };\n"⟩,
    ⟨⟨.current, "main.nav"⟩,
      "import lib;\nlet b: record {t: lib:T; r: record {k: int;}; u: V;};\n"⟩]

theorem aliases_merge_aliasFiles : ∃ b b' n n' a a',
    (ofFiles aliasFiles).CompilesTo ⟨⟨"lib"⟩, "lib.nav"⟩ b ∧
    (ofFiles aliasFiles).CompilesTo ⟨.current, "main.nav"⟩ b' ∧
    n ∈ b.records ∧ b.mention? n.id = some a ∧ n' ∈ b'.records ∧ b'.mention? n'.id = some a' ∧
    b.typeForm n = .record [("t", .named ⟨"lib"⟩ "T"),
      ("r", .record [("k", .named .language "int")]), ("u", .unresolved "V")] ∧
    a.symbol.isEquivalent a'.symbol ∧
    ∃ m ∈ b'.tree.root.preorder, ∃ other, b'.mention? m.id = some other ∧
      ¬ a.symbol.isEquivalent other.symbol := by
  have hlib : ((ofFiles aliasFiles).compiler.compile (ofFiles aliasFiles).session.documents
      (ofFiles aliasFiles).graph ⟨⟨"lib"⟩, "lib.nav"⟩
      "type T = record { };\nlet a: record { t: T; r: record { k: int; }; u: V; };\n").toOption.any
      fun b => decide (∃ n ∈ b.records, b.ResolvesQualified n ∧
        b.typeForm n = .record [("t", .named ⟨"lib"⟩ "T"),
          ("r", .record [("k", .named .language "int")]), ("u", .unresolved "V")]) := by
    decide +kernel
  have hmain : ((ofFiles aliasFiles).compiler.compile (ofFiles aliasFiles).session.documents
      (ofFiles aliasFiles).graph ⟨.current, "main.nav"⟩
      "import lib;\nlet b: record {t: lib:T; r: record {k: int;}; u: V;};\n").toOption.any
      fun b => decide ((∃ n ∈ b.records, b.ResolvesQualified n ∧
        b.typeForm n = .record [("t", .named ⟨"lib"⟩ "T"),
          ("r", .record [("k", .named .language "int")]), ("u", .unresolved "V")]) ∧
        ∃ m ∈ b.tree.root.preorder, m.kind ≠ .recordTypeDescriptor ∧ (b.mention? m.id).isSome) := by
    decide +kernel
  obtain ⟨b, hcompile, hrecord⟩ := exists_ok_of_any hlib
  obtain ⟨n, hn, hfound, hform⟩ := of_decide_eq_true hrecord
  obtain ⟨b', hcompile', hrecord'⟩ := exists_ok_of_any hmain
  obtain ⟨⟨n', hn', hfound', hform'⟩, m, hm, hkind, hmention⟩ := of_decide_eq_true hrecord'
  obtain ⟨-, -, a, ha⟩ := BoundUnit.mem_records.1 hn
  obtain ⟨-, -, a', ha'⟩ := BoundUnit.mem_records.1 hn'
  obtain ⟨other, hother⟩ := Option.isSome_iff_exists.1 hmention
  have hb : (ofFiles aliasFiles).CompilesTo ⟨⟨"lib"⟩, "lib.nav"⟩ b :=
    ⟨_, by decide +kernel, hcompile⟩
  have hb' : (ofFiles aliasFiles).CompilesTo ⟨.current, "main.nav"⟩ b' :=
    ⟨_, by decide +kernel, hcompile'⟩
  obtain ⟨hrecords, hothers⟩ := aliases_merge (.inr (show isWord "lib" by decide)) (.inl rfl) hb hb'
    (by decide +kernel) hn ha
  exact ⟨b, b', n, n', a, a', hb, hb', hn, ha, hn', ha', hform,
    (hrecords hfound n' hn' hfound' a' ha').2 (hform.trans hform'.symm), m, hm, other, hother,
    (hothers m hm hkind other hother).1⟩

end Workspace

end Xref
