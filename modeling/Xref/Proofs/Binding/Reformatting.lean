import Xref.Proofs.Binding.Inputs
import Xref.Proofs.Binding.MatchingWalks
import Xref.Workspace

/-!
# Reformatting

Blanks, newlines and comments do not change what names mean. A unit compiles with one text exactly
if it compiles with another of the same words (`Binding.exists_compile_of_words`). The trees are
alike, the same nodes are annotated with symbols of the same names, kinds and owners, and two nodes
have equivalent symbols in one if and only if they have in the other
(`Binding.compile_reformatted`). The identities of symbols may be different, since records written in
place, and what they hold, are at other offsets.
-/

namespace Xref

namespace Binding

/-- Whether symbols have the same name, kind and owner, and tokens with one number name them. -/
structure Mention.Same (a a' : Mention) : Prop where
  token : a'.name = a.name
  name : a'.symbol.name = a.symbol.name
  kind : a'.symbol.kind = a.symbol.kind
  owner : a'.symbol.owner = a.symbol.owner

/-! ## Paths that a unit sees -/

section
variable (l : Layout) (d : Documents) (g : ModuleGraph) (u : UnitId) (source : String)

/-- The paths of the declarations in a unit as the documents have it. -/
def declaredPaths (m : ModuleId) (unit : String) : List SymbolPath :=
  match d.get? (l.pathOf ⟨m, unit⟩) with
  | some text => (Tree.ofSource text).root.children.flatMap (itemPaths m)
  | none => []

/-- The paths that occur when a unit is compiled with a text: its own, and those of the declarations
in the other units of its module and in the modules that it imports. -/
def seenPaths : List SymbolPath :=
  unitPaths u.module u.unit (.ofSource source) ++
    (u.module :: importedModules g u.module (.ofSource source)).flatMap fun m =>
      ((g.unitsOf m).filter fun unit => ⟨m, unit⟩ ≠ u).flatMap (declaredPaths l d m)

end

variable {l : Layout} {d : Documents} {g : ModuleGraph} {u : UnitId} {source source' text : String}
  {m : ModuleId} {unit : String} {n : Node} {p : SymbolPath} {b b' : BoundUnit}

theorem itemPaths_subset_seenPaths
    (hm : m = u.module ∨ m ∈ importedModules g u.module (.ofSource source))
    (hunit : unit ∈ g.unitsOf m) (hother : ⟨m, unit⟩ ≠ u)
    (htext : d.get? (l.pathOf ⟨m, unit⟩) = some text)
    (hn : n ∈ (Tree.ofSource text).root.children) : itemPaths m n ⊆ seenPaths l d g u source := by
  intro p hp
  refine List.mem_append_right _ (List.mem_flatMap.2 ⟨m, List.mem_cons.2 hm, ?_⟩)
  refine List.mem_flatMap.2 ⟨unit, List.mem_filter.2 ⟨hunit, decide_eq_true hother⟩, ?_⟩
  rw [declaredPaths, htext]
  exact List.mem_flatMap.2 ⟨n, hn, hp⟩

/-- Paths that a unit sees are of the forms that can arise. -/
theorem arises_of_mem_seenPaths (hp : p ∈ seenPaths l d g u source) :
    p.Arises (fun k => k = u.module ∨ k.IsWord) u.module u.unit := by
  rcases List.mem_append.1 hp with hp | hp
  · exact arises_of_mem_unitPaths (.inl rfl) hp
  · obtain ⟨m, hm, hp⟩ := List.mem_flatMap.1 hp
    obtain ⟨unit, -, hp⟩ := List.mem_flatMap.1 hp
    rw [declaredPaths] at hp
    split at hp
    · obtain ⟨n, hn, hp⟩ := List.mem_flatMap.1 hp
      refine arises_of_mem_itemPaths ?_ (Node.mem_preorder_child hn) hp
      exact (List.mem_cons.1 hm).imp_right isWord_of_imported
    · cases hp

/-! ## What two texts see -/

namespace Comparison

/-- Two texts of the same words, compiled as one unit. -/
def ofUnit (l : Layout) (d : Documents) (g : ModuleGraph) (u : UnitId) (ρ : Reformat) :
    Comparison where
  toReformat := ρ
  module := u.module
  unit := u.unit
  paths := seenPaths l d g u ρ.before
  paths' := seenPaths l d g u ρ.after
  covers := List.subset_append_left _ _
  covers' := List.subset_append_left _ _
  resolved := ∀ b, compile l d g u ρ.before = .ok b → ∀ n ∈ b.records, b.ResolvesQualified n

variable {ρ : Comparison} {S S' T : ModuleScope} {item : Item}

theorem matchesItem_self (hsymbol : ρ.Matches item.symbol item.symbol)
    (hfields : ∀ f ∈ item.fields, ρ.Matches f.symbol f.symbol) : ρ.MatchesItem item item :=
  ⟨rfl, hsymbol, rfl, List.forall₂_same.2 fun f hf => ⟨rfl, rfl, hfields f hf, rfl⟩⟩

theorem matchesScope_self (h : GoodScope (fun s => ρ.Matches s s) S) : ρ.MatchesScope S S :=
  ⟨rfl, List.forall₂_same.2 fun item hitem => matchesItem_self (h item hitem).1 (h item hitem).2⟩

theorem itemOf?_self (h : Covers (fun s => ρ.Matches s s) (itemPaths m n)) :
    Option.Rel ρ.MatchesItem (itemOf? m unit n) (itemOf? m unit n) := by
  cases hitem : itemOf? m unit n with
  | none => exact .none
  | some item =>
    obtain ⟨⟨p, hp, hsymbol⟩, hfields⟩ := itemOf?_at hitem
    refine .some (matchesItem_self (h p hp _ hsymbol) fun f hf => ?_)
    obtain ⟨q, hq, hfield⟩ := hfields f hf
    exact h q hq _ hfield

/-- Scopes that match still match when declarations that match are added. -/
theorem addUnits_matches {read read' : String → Except CompileError Tree} {units : List String}
    (hS : ρ.MatchesScope S S')
    (hread : ∀ unit ∈ units, ∀ t, read unit = .ok t → ∃ t', read' unit = .ok t' ∧
      List.Forall₂ (fun n n' => Option.Rel ρ.MatchesItem (itemOf? S.module unit n)
        (itemOf? S.module unit n')) t.root.children t'.root.children)
    (h : addUnits read S units = .ok T) :
    ∃ T', addUnits read' S' units = .ok T' ∧ ρ.MatchesScope T T' := by
  induction units generalizing S S' with
  | nil =>
    cases h
    exact ⟨S', rfl, hS⟩
  | cons unit units ih =>
    rw [addUnits] at h
    obtain ⟨t, ht, h⟩ := Except.bind_eq_ok.1 h
    rw [List.forall_mem_cons] at hread
    obtain ⟨t', ht', hitems⟩ := hread.1 t ht
    have hadd : ρ.MatchesScope (S.addUnit unit t) (S'.addUnit unit t') := by
      refine ⟨hS.module, List.rel_append hS.items ?_⟩
      rw [hS.module]
      exact List.rel_filterMap (fun _ _ hn => hn) hitems
    obtain ⟨T', hT', hT⟩ := ih hadd hread.2 h
    exact ⟨T', Except.bind_eq_ok.2 ⟨t', ht', hT'⟩, hT⟩

end Comparison

variable {ρ : Reformat} {own : ModuleScope} {imports : List ModuleScope}

/-- A unit imports the same modules. -/
theorem importedModules_eq (ρ : Reformat) : importedModules g m (.ofSource ρ.after) =
    importedModules g m (.ofSource ρ.before) := by
  have himports : importsOf (.ofSource ρ.after) = importsOf (.ofSource ρ.before) :=
    importsOf_eq_of_alike ρ.alike (fun _ _ ht => ht.kind) fun _ _ _ _ _ _ ht => ht.text
  rw [importedModules, importedModules, himports]

/-- What another unit declares matches itself. -/
theorem covers_itemPaths
    (hm : m = u.module ∨ m ∈ importedModules g u.module (.ofSource ρ.before))
    (hunit : unit ∈ g.unitsOf m) (hother : ⟨m, unit⟩ ≠ u)
    (htext : d.get? (l.pathOf ⟨m, unit⟩) = some text)
    (hn : n ∈ (Tree.ofSource text).root.children) :
    Covers (fun s => (Comparison.ofUnit l d g u ρ).Matches s s) (itemPaths m n) := by
  intro p hp s hs
  have hpath := itemPaths_subset_seenPaths hm hunit hother htext hn hp
  have hpath' := itemPaths_subset_seenPaths (by rwa [importedModules_eq ρ]) hunit hother htext hn hp
  exact .refl hs hpath hpath' (isOnRecord_of_mem_itemPaths hp)

theorem moduleScopeWith_matches (h : moduleScopeWith l d g u (.ofSource ρ.before) = .ok own) :
    ∃ own', moduleScopeWith l d g u (.ofSource ρ.after) = .ok own' ∧
      (Comparison.ofUnit l d g u ρ).MatchesScope own own' := by
  refine Comparison.addUnits_matches ⟨rfl, .nil⟩ (fun unit hunit t ht => ?_) h
  by_cases hown : unit = u.unit
  · subst hown
    rw [if_pos rfl] at ht ⊢
    cases ht
    refine ⟨_, rfl, (forall₂_mem ρ.alike.children).imp fun n n' hn => ?_⟩
    have hpaths := itemPaths_subset (m := u.module) (u := u.unit) hn.1
    have hpaths' := itemPaths_subset (m := u.module) (u := u.unit) hn.2.1
    exact Comparison.itemOf?_matches hn.2.2
      (List.Subset.trans hpaths (Comparison.ofUnit l d g u ρ).covers)
      (List.Subset.trans hpaths' (Comparison.ofUnit l d g u ρ).covers')
  · rw [if_neg hown] at ht ⊢
    refine ⟨t, ht, List.forall₂_same.2 fun n hn => Comparison.itemOf?_self ?_⟩
    obtain ⟨text, htext, -, rfl⟩ := readTree_eq_ok_iff.1 ht
    exact covers_itemPaths (.inl rfl) (mem_unitsOf_of_ne hunit hown)
      (fun heq => hown (congrArg UnitId.unit heq)) htext hn

/-- What a unit imports matches itself. -/
theorem moduleScopes_matches
    (h : moduleScopes l d g (importedModules g u.module (.ofSource ρ.before)) = .ok imports) :
    List.Forall₂ (Comparison.ofUnit l d g u ρ).MatchesScope imports imports := by
  refine List.forall₂_same.2 fun S hS => Comparison.matchesScope_self ?_
  refine moduleScopes_good (fun m hm unit hunit text htext n hn => ?_) h S hS
  have hne : m ≠ u.module := by
    have hcondition := (List.mem_filter.1 hm).2
    simpa using (Bool.and_eq_true_iff.1 hcondition).2
  exact covers_itemPaths (.inr hm) hunit (fun heq => hne (congrArg UnitId.module heq)) htext hn

/-! ## Compiling two texts -/

/-- **A unit compiles if it does with another text of the same words,** and what it sees matches. -/
theorem exists_compile_of_words (ρ : Reformat) (hsize : ρ.after.utf8ByteSize ≤ Span.maxOffset)
    (h : compile l d g u ρ.before = .ok b) :
    ∃ seen seen', b = ((Comparison.ofUnit l d g u ρ).seeing seen).bound ρ.before ∧
      compile l d g u ρ.after =
        .ok (((Comparison.ofUnit l d g u ρ).seeing seen').bound ρ.after) ∧
      (Comparison.ofUnit l d g u ρ).MatchesVisible seen seen' := by
  obtain ⟨-, hknown, own, imports, hown, himports, rfl⟩ := compile_eq_ok.1 h
  obtain ⟨own', hown', hmatches⟩ := moduleScopeWith_matches hown
  have hknown' : unknownToken? (.ofSource ρ.after) = none := by
    rcases rel_cases (unknownToken?_rel ρ.alike fun _ _ ht => ht.kind) with
      ⟨-, ht'⟩ | ⟨t, -, ht, -, -⟩
    · exact ht'
    · rw [hknown] at ht
      cases ht
  refine ⟨⟨own, imports⟩, ⟨own', imports⟩, rfl, compile_eq_ok.2 ⟨hsize, hknown', own', imports, hown',
    ?_, rfl⟩, hmatches, moduleScopes_matches himports⟩
  rwa [importedModules_eq ρ]

namespace Comparison

variable {ρ : Comparison} {seen seen' : Visible} {s₁ s₁' s₂ s₂' : Symbol}

/-- What a node mentions matches what it mentions in the other text. -/
theorem mention?_matches (hseen : ρ.MatchesVisible seen seen')
    (hresolved : ρ.resolved → ∀ n ∈ ((ρ.seeing seen).bound ρ.before).records, ρ.Found seen n)
    (id : NodeId) : Option.Rel (fun a a' => a'.name = a.name ∧ ρ.Matches a.symbol a'.symbol)
      (((ρ.seeing seen).bound ρ.before).mention? id)
      (((ρ.seeing seen').bound ρ.after).mention? id) := by
  rw [Context.bound, Context.bound, BoundUnit.mention?_ofList, BoundUnit.mention?_ofList]
  have hfind := find?_rel (p := fun a => a.1 == id) (q := fun a => a.1 == id)
    (List.rel_reverse (bindTree_matches hseen hresolved)) fun _ _ ha => by rw [ha.node]
  rcases rel_cases hfind with ⟨ha, ha'⟩ | ⟨a, a', ha, ha', hrel⟩
  · rw [ha, ha']
    exact .none
  · rw [ha, ha']
    exact .some ⟨hrel.name, hrel.symbol⟩

section
variable (hM : ∀ p ∈ ρ.paths, p.Arises (fun k => k = ρ.module ∨ k.IsWord) ρ.module ρ.unit)
  (hM' : ∀ p ∈ ρ.paths', p.Arises (fun k => k = ρ.module ∨ k.IsWord) ρ.module ρ.unit)
  (hfree : CollisionFree ρ.paths) (hfree' : CollisionFree ρ.paths')
  (h₁ : ρ.Matches s₁ s₁') (h₂ : ρ.Matches s₂ s₂')

include hM hM' hfree hfree' h₁ h₂

/-- Symbols have one identity exactly if those that match them have one. -/
theorem Matches.id_eq_iff : s₁.id = s₂.id ↔ s₁'.id = s₂'.id := by
  obtain ⟨p, hp, p', hp', hmoves₁, hat₁, hat₁'⟩ := h₁.path
  obtain ⟨q, hq, q', hq', hmoves₂, hat₂, hat₂'⟩ := h₂.path
  rw [hat₁.id, hat₂.id, hat₁'.id, hat₂'.id]
  constructor
  · intro hid
    exact congrArg SymbolId.ofText (SymbolPath.Moves.text_eq (fun _ _ _ h h' => h.unique h')
      (fun _ hk => hk) (hM p hp) (hM q hq) hmoves₁ hmoves₂ (hfree p hp q hq hid))
  · intro hid
    exact congrArg SymbolId.ofText (SymbolPath.Moves.text_eq
      (fun _ _ _ h h' => h.flip.unique h'.flip) (fun _ hk => hk) (hM' p' hp') (hM' q' hq')
      hmoves₁.flip hmoves₂.flip (hfree' p' hp' q' hq' hid))

/-- **Symbols are equivalent** exactly if those that match them are, where shapes are the same. -/
theorem Matches.isEquivalent_iff (hresolved : ρ.resolved) :
    s₁.isEquivalent s₂ ↔ s₁'.isEquivalent s₂' := by
  have hids : (s₁.id == s₂.id) = (s₁'.id == s₂'.id) := by
    rw [Bool.eq_iff_iff, beq_iff_eq, beq_iff_eq]
    exact Matches.id_eq_iff hM hM' hfree hfree' h₁ h₂
  rw [Symbol.isEquivalent, Symbol.isEquivalent, hids, h₁.shape hresolved, h₂.shape hresolved]

end

end Comparison

/-- What nodes with one number mention matches. -/
theorem mention?_of_compile (ρ : Reformat) (hb : compile l d g u ρ.before = .ok b)
    (hb' : compile l d g u ρ.after = .ok b') (id : NodeId) :
    Option.Rel
      (fun a a' => a'.name = a.name ∧ (Comparison.ofUnit l d g u ρ).Matches a.symbol a'.symbol)
      (b.mention? id) (b'.mention? id) := by
  obtain ⟨seen, seen', rfl, hcompile', hseen⟩ :=
    exists_compile_of_words ρ (compile_eq_ok.1 hb').1 hb
  obtain rfl := Except.ok.inj (hb'.symm.trans hcompile')
  exact Comparison.mention?_matches hseen (fun hfound => hfound _ hb) id

theorem tree_of_compile (h : compile l d g u source = .ok b) : b.tree = .ofSource source := by
  obtain ⟨-, -, own, imports, -, -, rfl⟩ := compile_eq_ok.1 h
  rfl

/-- Nodes have equivalent symbols with one text if and only if they have with the other. -/
theorem isEquivalent_of_compile (ρ : Reformat) (hb : compile l d g u ρ.before = .ok b)
    (hb' : compile l d g u ρ.after = .ok b') (hfound : ∀ n ∈ b.records, b.ResolvesQualified n)
    (hfree : CollisionFree (seenPaths l d g u ρ.before))
    (hfree' : CollisionFree (seenPaths l d g u ρ.after)) {i j : NodeId} {a₁ a₂ a₁' a₂' : Mention}
    (h₁ : b.mention? i = some a₁) (h₂ : b.mention? j = some a₂) (h₁' : b'.mention? i = some a₁')
    (h₂' : b'.mention? j = some a₂') :
    a₁.symbol.isEquivalent a₂.symbol ↔ a₁'.symbol.isEquivalent a₂'.symbol := by
  have hmatches : ∀ {id a a'}, b.mention? id = some a → b'.mention? id = some a' →
      (Comparison.ofUnit l d g u ρ).Matches a.symbol a'.symbol := by
    intro id a a' ha ha'
    obtain ⟨a'', ha'', -, hrel⟩ := exists_of_rel (mention?_of_compile ρ hb hb' id) ha
    obtain rfl := Option.some.inj (ha'.symm.trans ha'')
    exact hrel
  refine Comparison.Matches.isEquivalent_iff (fun p hp => arises_of_mem_seenPaths hp)
    (fun p hp => arises_of_mem_seenPaths hp) hfree hfree' (hmatches h₁ h₁') (hmatches h₂ h₂') ?_
  intro b₁ hb₁
  obtain rfl := Except.ok.inj (hb.symm.trans hb₁)
  exact hfound

/-- **Reformatting does not change what names mean.** Of two texts of the same words one compiles
exactly if the other does, if offsets can count the bytes of both. The trees are alike, and nodes
with one number are annotated with the same tokens and with symbols of the same names, kinds and
owners. If all types with a qualifier in records written in place are found and no paths collide, two
nodes have equivalent symbols with one text if and only if they have with the other. -/
theorem compile_reformatted
    (hwords : (lex source').map Lexeme.word = (lex source).map Lexeme.word) :
    (source.utf8ByteSize ≤ Span.maxOffset → source'.utf8ByteSize ≤ Span.maxOffset →
      ((compile l d g u source).isOk ↔ (compile l d g u source').isOk)) ∧
    ∀ b b', compile l d g u source = .ok b → compile l d g u source' = .ok b' →
      b.tree.root.Alike Token.SameWord b'.tree.root ∧
      (∀ id, Option.Rel Mention.Same (b.mention? id) (b'.mention? id)) ∧
      ((∀ n ∈ b.records, b.ResolvesQualified n) →
        CollisionFree (seenPaths l d g u source) → CollisionFree (seenPaths l d g u source') →
        ∀ {i j a₁ a₂ a₁' a₂'}, b.mention? i = some a₁ → b.mention? j = some a₂ →
          b'.mention? i = some a₁' → b'.mention? j = some a₂' →
            (a₁.symbol.isEquivalent a₂.symbol ↔ a₁'.symbol.isEquivalent a₂'.symbol)) := by
  have hcompiles : ∀ (ρ : Reformat), ρ.after.utf8ByteSize ≤ Span.maxOffset →
      (compile l d g u ρ.before).isOk → (compile l d g u ρ.after).isOk := by
    intro ρ hsize hok
    cases hcompile : compile l d g u ρ.before with
    | error e => rw [hcompile] at hok; cases hok
    | ok b =>
      obtain ⟨-, seen', -, hcompile', -⟩ := exists_compile_of_words ρ hsize hcompile
      rw [hcompile']
      rfl
  refine ⟨fun hsize hsize' => ⟨hcompiles ⟨source, source', hwords⟩ hsize',
    hcompiles ⟨source', source, hwords.symm⟩ hsize⟩, ?_⟩
  intro b b' hb hb'
  let ρ : Reformat := ⟨source, source', hwords⟩
  refine ⟨?_, fun id => ?_, isEquivalent_of_compile ρ hb hb'⟩
  · rw [tree_of_compile hb, tree_of_compile hb']
    exact ρ.alike.imp fun _ _ _ _ ht => ht.toSameWord
  · rcases rel_cases (mention?_of_compile ρ hb hb' id) with
      ⟨ha, ha'⟩ | ⟨a, a', ha, ha', htoken, hmatches⟩
    · rw [ha, ha']
      exact .none
    · rw [ha, ha']
      exact .some ⟨htoken, hmatches.name, hmatches.kind, hmatches.owner⟩

open Workspace (documentsOf graphOf usualLayout)

/-- A text with two records of one shape. -/
def compactText : String :=
  "import lib; fn f(p: record { t: lib:T; }, q: record { t: lib:T; }) { return p.t.k; }"

/-- The same words in another format. -/
def spacedText : String :=
  "import lib; // for T\nfn f(\n  p: record\x7bt:lib : T;\x7d,\n  q: record \x7b\n    t: lib:T;\n" ++
    "  \x7d\n) \x7b\n  return p . t . k;\n\x7d\n"

/-- A project with a unit in the first format. -/
def compactFiles : List SourceFile :=
  [⟨⟨⟨"lib"⟩, "lib.nav"⟩, "type T = record { k: int; };"⟩,
    ⟨⟨.current, "main.nav"⟩, compactText⟩]

theorem compile_reformatted_compactFiles :
    (lex spacedText).map Lexeme.word = (lex compactText).map Lexeme.word ∧
    ∃ b b', compile usualLayout (documentsOf usualLayout compactFiles) (graphOf compactFiles)
        ⟨.current, "main.nav"⟩ compactText = .ok b ∧
      compile usualLayout (documentsOf usualLayout compactFiles) (graphOf compactFiles)
        ⟨.current, "main.nav"⟩ spacedText = .ok b' ∧
      ∃ n ∈ b.records, ∃ m ∈ b.records, ∃ a₁ a₂ a₁' a₂', b.mention? n.id = some a₁ ∧
        b.mention? m.id = some a₂ ∧ a₁.symbol.id ≠ a₂.symbol.id ∧
        b'.mention? n.id = some a₁' ∧ b'.mention? m.id = some a₂' ∧
        a₁.symbol.isEquivalent a₂.symbol ∧ a₁'.symbol.isEquivalent a₂'.symbol := by
  have hwords : (lex spacedText).map Lexeme.word = (lex compactText).map Lexeme.word := by
    decide +kernel
  have hchecked : (compile usualLayout (documentsOf usualLayout compactFiles)
      (graphOf compactFiles) ⟨.current, "main.nav"⟩ compactText).toOption.any fun b =>
      decide ((∀ n ∈ b.records, b.ResolvesQualified n) ∧
        ∃ n ∈ b.records, ∃ m ∈ b.records, ∃ a₁ ∈ b.mention? n.id, ∃ a₂ ∈ b.mention? m.id,
          a₁.symbol.id ≠ a₂.symbol.id ∧ a₁.symbol.isEquivalent a₂.symbol) := by
    decide +kernel
  have hfree : CollisionFree (seenPaths usualLayout (documentsOf usualLayout compactFiles)
      (graphOf compactFiles) ⟨.current, "main.nav"⟩ compactText) := by
    decide +kernel
  have hfree' : CollisionFree (seenPaths usualLayout (documentsOf usualLayout compactFiles)
      (graphOf compactFiles) ⟨.current, "main.nav"⟩ spacedText) := by
    decide +kernel
  obtain ⟨b, hb, hchecked⟩ := exists_ok_of_any hchecked
  obtain ⟨hfound, n, hn, m, hm, a₁, h₁, a₂, h₂, hne, hequivalent⟩ := of_decide_eq_true hchecked
  obtain ⟨hok, hmeans⟩ := compile_reformatted (l := usualLayout)
    (d := documentsOf usualLayout compactFiles) (g := graphOf compactFiles)
    (u := ⟨.current, "main.nav"⟩) hwords
  cases hb' : compile usualLayout (documentsOf usualLayout compactFiles) (graphOf compactFiles)
      ⟨.current, "main.nav"⟩ spacedText with
  | error e =>
    have hok := hok (by decide +kernel) (by decide +kernel)
    rw [hb, hb'] at hok
    cases hok.1 rfl
  | ok b' =>
    obtain ⟨-, hmentions, hsame⟩ := hmeans b b' hb hb'
    obtain ⟨a₁', h₁', -⟩ := exists_of_rel (hmentions n.id) h₁
    obtain ⟨a₂', h₂', -⟩ := exists_of_rel (hmentions m.id) h₂
    exact ⟨hwords, b, b', hb, rfl, n, hn, m, hm, a₁, a₂, a₁', a₂', h₁, h₂, hne, h₁', h₂',
      hequivalent, (hsame hfound hfree hfree' h₁ h₂ h₁' h₂').1 hequivalent⟩

end Binding

end Xref
