import Xref.Proofs.Navigation.Cursors
import Xref.Proofs.Navigation.RenamedProjects
import Xref.Proofs.Navigation.Symmetry

/-!
# Renaming and back

After a symbol has got a name that nothing had, the same token is on the same symbol
(`Renamed.cursor`), and the tokens that name it are those that named it (`Renamed.names_back`). So a
rename to the old name from there restores every document (`rename_back`).
-/

namespace Xref

open Binding
open Workspace (usualLayout)

section
variable {d d₁ : Documents} {g : ModuleGraph} {target : Symbol} {start u : UnitId}
  {source newName : String} {n : Node} {t token : Token} {s : Symbol} {m : ModuleId} {uri : Uri}
  {position : Position}

/-- The tokens that a complete search has found are those that name the symbol. -/
theorem Occurrences.Complete.names (hfit : d.Fit g) (hsized : AllSized d g)
    (hfree : CollisionFree (projectPaths d g))
    (htarget : KnownIn d g m target) (hdeclared : target.declaration.isSome)
    (hstart : ∃ source, Compiles d g start source)
    (hothers : ∀ u ∈ (Analysis.ofGraph g).unitsToSearch target.owner start,
      ∃ source, Compiles d g u source) {node : NodeId} {o : Occurrences} {fs : List Find} {c : Find}
    (h : Complete d g target start node o fs c) : Names d g target (isNamedBy fs) := by
  intro u source hu htext t ht
  by_cases hc : Compiles d g u source
  · exact h.isNamedBy_iff hc ht
  · have hfound : u ∉ unitsOf o.toRename := by
      intro hmem
      obtain ⟨source', hc'⟩ := h.exists_compiles hmem
      obtain rfl := Option.some.inj (htext.symm.trans hc'.text)
      exact hc hc'
    rw [h.isNamedBy_eq_false hfound]
    refine ⟨(fun hfalse => nomatch hfalse), ?_⟩
    rintro ⟨n, s, hmention, hid⟩
    exact absurd (compiles_of_mentions hfit hfree htarget hdeclared hstart hothers hu htext
      (hsized.of_text hu htext) hmention hid) hc

/-- **From a mention under the cursor** all names of the symbol are replaced. -/
theorem RenameStart.exists_replaced (hfit : d.Fit g) (hsized : AllSized d g)
    (hfree : CollisionFree (projectPaths d g))
    (h : RenameStart d g uri position u source token n t s) (hword : isWord newName)
    (hfiles : d₁.files = d.files) (hunlocked : d₁.locks.held = []) (timeout : Duration) :
    ∃ e p count d', Analysis.renameIn d g uri position newName = .ok e ∧
      d₁.edit e timeout = (.ok count, d') ∧ Names d g s p ∧ Replaced d d' g p newName := by
  obtain ⟨r, o, fs, c, -, rfl, -, hcomplete, hrename⟩ := h.exists_rename hfit hfree
  obtain ⟨hknown, -⟩ := h.cursor.mention.known hfit h.compiles
  obtain ⟨d', hedit, hunlocked', htexts, habsent⟩ := hcomplete.edit_renameEdit hfit hfree hknown
    h.declared hfiles hunlocked newName timeout
  exact ⟨_, _, _, d', hrename newName hword, hedit,
    hcomplete.names hfit hsized hfree hknown h.declared ⟨source, h.compiles⟩ h.others,
    ⟨htexts, habsent, hunlocked'⟩⟩

end

namespace Renamed

variable {d d' : Documents} {g : ModuleGraph} {s s' : Symbol} {p p' : UnitId → Token → Bool}
  {new : String} {path : SymbolPath} {u : UnitId} {source : String} {t t' token token' : Token}
  {n n' : Node} {position position' : Position} {m : ModuleId} {uri : Uri}

/-! ## The token under the cursor -/

section
variable (h : Renamed d d' g path s p new) (hu : g.Lists u) (htext : d.textOf? u = some source)

include h hu htext

/-- A node that mentions the symbol mentions it after the change. -/
theorem mention?_kept {node : NodeId} {a : Mention}
    (ha : (boundUnit d g u source).mention? node = some a) (hid : a.symbol.id = s.id) :
    ∃ a', (boundUnit d' g u (replaceTokens (p u) new source)).mention? node = some a' ∧
      a'.name = a.name ∧ h.change.Renames a.symbol a'.symbol := by
  obtain ⟨⟨node', a'⟩, ha', hnode, hname, hsymbol⟩ :=
    (h.mentions hu htext).kept (node, a) (mention?_iff.1 ha) (hid.trans h.target_eq.symm)
  obtain rfl : node' = node := hnode
  exact ⟨a', mention?_iff.2 ha', hname, hsymbol⟩

/-- A node mentions something after the change only if it did before. -/
theorem mention?_made {node : NodeId} {a' : Mention}
    (ha' : (boundUnit d' g u (replaceTokens (p u) new source)).mention? node = some a') :
    ∃ a, (boundUnit d g u source).mention? node = some a ∧ a'.name = a.name ∧
      h.change.Renames a.symbol a'.symbol := by
  obtain ⟨⟨node', a⟩, ha, hnode, hname, hsymbol⟩ :=
    (h.mentions hu htext).made (node, a') (mention?_iff.1 ha')
  obtain rfl : node = node' := hnode
  exact ⟨a, mention?_iff.2 ha, hname, hsymbol⟩

/-- The innermost mention above a token is where it was, if it is one of the symbol. -/
theorem innermost?_kept {ancestors ancestors' : List Node}
    (halike : List.Forall₂ (Node.Alike (Token.Renamed (p u) new)) ancestors ancestors')
    (hinner : (boundUnit d g u source).innermost? ⟨ancestors, token⟩ = some (n, ⟨s, t.id⟩)) :
    ∃ n' s', (boundUnit d' g u (replaceTokens (p u) new source)).innermost? ⟨ancestors', token'⟩ =
        some (n', ⟨s', t.id⟩) ∧
      (boundUnit d' g u (replaceTokens (p u) new source)).mention? n'.id = some ⟨s', t.id⟩ ∧
      n' ∈ ancestors' ∧ n.Alike (Token.Renamed (p u) new) n' ∧ h.change.Renames s s' := by
  have hreverse := List.rel_reverse halike
  have hmem : ∀ m, m ∈ ancestors'.reverse → m ∈ ancestors' := fun m => List.mem_reverse.1
  unfold BoundUnit.innermost? TokenPath.innermostFirst at hinner ⊢
  dsimp only at hinner ⊢
  generalize ancestors.reverse = l at hreverse hinner
  generalize ancestors'.reverse = l' at hreverse hmem
  induction hreverse with
  | nil => cases hinner
  | @cons k k' l l' hk _ ih =>
    rw [List.findSome?_cons] at hinner ⊢
    cases ha : (boundUnit d g u source).mention? k.id with
    | none =>
      have ha' : (boundUnit d' g u (replaceTokens (p u) new source)).mention? k'.id = none := by
        by_contra hne
        obtain ⟨a', ha'⟩ := Option.ne_none_iff_exists'.1 hne
        obtain ⟨a, hsome, -⟩ := h.mention?_made hu htext ha'
        rw [hk.id_eq, ha] at hsome
        cases hsome
      rw [ha] at hinner
      rw [ha']
      exact ih hinner fun m hm => hmem m (List.mem_cons_of_mem _ hm)
    | some a =>
      rw [ha] at hinner
      obtain ⟨rfl, rfl⟩ := Prod.mk.inj (Option.some.inj hinner)
      obtain ⟨⟨s', name⟩, ha', hname, hsymbol⟩ := h.mention?_kept hu htext ha rfl
      obtain rfl : name = t.id := hname
      rw [← hk.id_eq] at ha'
      rw [ha']
      exact ⟨k', s', rfl, ha', hmem k' List.mem_cons_self, hk, hsymbol⟩

/-- **The same token is on the same symbol.** -/
theorem cursor (hcursor : AtCursor d g u source position token n t s) {offset : Nat}
    {ancestors' : List Node}
    (hoffset : (LineIndex.ofText (replaceTokens (p u) new source)).offset? position' = some offset)
    (hleads : (Tree.ofSource (replaceTokens (p u) new source)).root.Leads ancestors' token')
    (hcovers : token'.Covers offset) (hid : token'.id = token.id) :
    ∃ n' t' s', AtCursor d' g u (replaceTokens (p u) new source) position' token' n' t' s' ∧
      h.change.Renames s s' := by
  obtain ⟨-, ancestors, -, hleads₀, -, hinner⟩ := hcursor.path
  obtain ⟨path', k', hpath', hk, halike⟩ := (h.alike hu htext).leads hleads₀
  -- The tokens of one number are the same, and so are the nodes above them.
  have hids : ((Tree.ofSource (replaceTokens (p u) new source)).root.tokens.map Token.id).Nodup := by
    rw [Tree.tokens_root]
    exact nodup_ids_sourceTokens
  obtain ⟨rfl, rfl⟩ := hpath'.unique hids hleads (hk.id.trans hid.symm)
  obtain ⟨n', s', hinner', hmention', hmem, hn', hsymbol⟩ :=
    h.innermost?_kept hu htext halike hinner
  obtain ⟨t', ht', hrenamed⟩ := exists_right_of_forall₂ hn'.childTokens hcursor.mention.token
  rw [← hrenamed.id] at hmention' hinner'
  exact ⟨n', t', s', ⟨⟨hleads.mem_preorder hmem, ht', hmention'⟩,
    offset, path', hoffset, hleads, hcovers, hinner'⟩, hsymbol⟩

end

/-! ## The names of the symbol -/

/-- **The tokens that name the symbol** are those that named it. -/
theorem names_back (h : Renamed d d' g path s p new) (hfree' : CollisionFree (projectPaths d' g))
    (hs' : h.change.Renames s s') (hknown' : KnownIn d' g m s') (hnames : Names d' g s' p')
    (hu : g.Lists u) (htext : d.textOf? u = some source) (ht : t ∈ sourceTokens source)
    (ht' : t' ∈ sourceTokens (replaceTokens (p u) new source)) (hid : t'.id = t.id) :
    p' u t' = p u t := by
  obtain ⟨-, hname', htarget'⟩ := hs'.target h.target_eq.symm
  have hdeclared' : s'.declaration.isSome := hs'.declaration ▸ h.declared
  have htext' := h.texts u source hu htext
  have hsize' := h.sized_after hu htext
  rw [Bool.eq_iff_iff, hnames u _ hu htext' t' ht', h.named u source hu htext t ht]
  constructor
  · rintro ⟨n', s₁', hmention', hid'⟩
    obtain ⟨a, ha, hname₁, hsymbol⟩ := h.mention?_made hu htext hmention'.mention
    obtain ⟨n, t₁, -, hid₁, hmention⟩ :=
      Mentions.exists_of_text h.fit hu htext (h.sized_of_text hu htext) ha
    obtain rfl : t₁ = t :=
      eq_of_id_eq hmention.mem_sourceTokens ht (hid₁.trans (hname₁.symm.trans hid))
    refine ⟨n, a.symbol, hmention, by_contra fun hne => ?_⟩
    -- A symbol with another identity keeps its name, which is not the new one.
    have hknown₁' := (hmention'.known_of_text h.fit' hu htext' hsize').1
    have hsame := (known_of_id_eq h.fit' hfree' hknown₁' hknown' hid' hdeclared').1
    rw [hsymbol.other fun heq => hne (heq.trans h.target_eq), hname'] at hsame
    exact hsymbol.fresh hsame
  · rintro ⟨n, s₁, hmention, hid₁⟩
    obtain ⟨a', ha', hname₁, hsymbol⟩ := h.mention?_kept hu htext hmention.mention hid₁
    obtain ⟨n', t₁', -, hid₁', hmention'⟩ := Mentions.exists_of_text h.fit' hu htext' hsize' ha'
    obtain rfl : t₁' = t' :=
      eq_of_id_eq hmention'.mem_sourceTokens ht' (hid₁'.trans (hname₁.trans hid.symm))
    refine ⟨n', a'.symbol, hmention', ?_⟩
    rw [htarget', (hsymbol.target (hid₁.trans h.target_eq.symm)).2.2]

/-! ## The way back -/

/-- A rename of the symbol can start from the same token. -/
theorem renameStart (h : Renamed d d' g path s p new)
    (hstart : RenameStart d g uri position u source token n t s) {offset : Nat} {place : TokenPath}
    (hoffset : (LineIndex.ofText (replaceTokens (p u) new source)).offset? position' = some offset)
    (hlocate : (Tree.ofSource (replaceTokens (p u) new source)).locate offset = .ok place)
    (hid : place.token.id = token.id) : ∃ n' t' s', h.change.Renames s s' ∧
      RenameStart d' g uri position' u (replaceTokens (p u) new source) place.token n' t' s' := by
  have hu := hstart.compiles.listed
  have htext := hstart.compiles.text
  obtain ⟨hleads, hcovers⟩ := Tree.locate_eq_ok_iff.1 hlocate
  obtain ⟨n', t', s', hcursor, hsymbol⟩ :=
    h.cursor hu htext hstart.cursor hoffset hleads hcovers hid
  obtain ⟨-, ancestors, -, hleads₀, -, -⟩ := hstart.cursor.path
  have htoken : token ∈ sourceTokens source := by
    rw [← Tree.tokens_root]
    exact hleads₀.mem_tokens
  have htoken' : place.token ∈ sourceTokens (replaceTokens (p u) new source) := by
    rw [← Tree.tokens_root]
    exact hleads.mem_tokens
  have hrenamed := renamed_of_id (fun _ ht hp => (h.name hu htext ht hp).1) h.word h.kind htoken
    htoken' hid
  refine ⟨n', t', s', hsymbol, hstart.file, h.compiles hstart.compiles, hcursor,
    hrenamed.kind.trans hstart.identifier, hsymbol.declaration ▸ hstart.declared, fun v hv => ?_⟩
  rw [hsymbol.owner] at hv
  obtain ⟨source', hc⟩ := hstart.others v hv
  exact ⟨_, h.compiles hc⟩

/-- If the tokens that name the symbol get the old name back, all documents are what they were. -/
theorem get?_back (h : Renamed d d' g path s p new) (hfree' : CollisionFree (projectPaths d' g))
    (hs' : h.change.Renames s s') (hknown' : KnownIn d' g m s') (hnames : Names d' g s' p')
    {d'' : Documents} (hreplaced : Replaced d' d'' g p' s.name) (q : FilePath) :
    d''.get? q = d.get? q := by
  cases hq : d.get? q with
  | none => exact hreplaced.absent q (h.absent q hq)
  | some source =>
    obtain ⟨v, hv, hsteps⟩ := h.fit.listed q source hq
    have hwell := h.fit.wellNamed v hv
    have htext : d.textOf? v = some source := (Documents.get?_of_steps hwell hsteps).symm.trans hq
    rw [Documents.get?_of_steps hwell hsteps, hreplaced.texts v _ hv (h.texts v source hv htext)]
    refine congrArg some (replaceTokens_back (fun _ ht hp => (h.name hv htext ht hp).1) h.word h.kind
      (fun _ ht hp => (h.name hv htext ht hp).2) fun _ ht _ ht' hid => ?_)
    exact h.names_back hfree' hs' hknown' hnames hv htext ht ht' hid

/-- **A rename to the old name from the same token** restores every document. -/
theorem exists_rename_back (h : Renamed d d' g path s p new)
    (hfree' : CollisionFree (projectPaths d' g))
    (hstart : RenameStart d g uri position u source token n t s) {offset : Nat} {place : TokenPath}
    (hoffset : (LineIndex.ofText (replaceTokens (p u) new source)).offset? position' = some offset)
    (hlocate : (Tree.ofSource (replaceTokens (p u) new source)).locate offset = .ok place)
    (hid : place.token.id = token.id) {d₁ : Documents} (hfiles : d₁.files = d'.files)
    (hunlocked : d₁.locks.held = []) (timeout : Duration) :
    ∃ e count d'', Analysis.renameIn d' g uri position' s.name = .ok e ∧
      d₁.edit e timeout = (.ok count, d'') ∧ ∀ q, d''.get? q = d.get? q := by
  obtain ⟨n', t', s', hs', hstart'⟩ := h.renameStart hstart hoffset hlocate hid
  obtain ⟨hkind, htext⟩ := h.known_of_mentions hstart.compiles.listed hstart.compiles.text
    hstart.cursor.mention rfl |>.2
  have hword : isWord s.name := htext ▸ (isWord_of_mem hstart.cursor.mention.mem_sourceTokens hkind).1
  obtain ⟨e, p', count, d'', he, hedit, hnames, hreplaced⟩ :=
    hstart'.exists_replaced h.fit' h.sized' hfree' hword hfiles hunlocked timeout
  obtain ⟨hknown', -⟩ := hstart'.cursor.mention.known h.fit' hstart'.compiles
  exact ⟨e, count, d'', he, hedit, h.get?_back hfree' hs' hknown' hnames hreplaced⟩

/-- The token under the cursor is found again at its start. -/
theorem exists_position (h : Renamed d d' g path s p new) (hu : g.Lists u)
    (htext : d.textOf? u = some source) (ht : token ∈ sourceTokens source)
    (hkind : token.kind = .identifier) : ∃ position' offset place,
      (LineIndex.ofText (replaceTokens (p u) new source)).offset? position' = some offset ∧
      (Tree.ofSource (replaceTokens (p u) new source)).locate offset = .ok place ∧
      place.token.id = token.id := by
  obtain ⟨token', ht', hrenamed⟩ := exists_renamed (fun _ ht hp => (h.name hu htext ht hp).1) h.word
    h.kind ht
  have hkind' : token'.kind = .identifier := hrenamed.kind.trans hkind
  have hfile : token'.kind ≠ .endOfFile := by
    rw [hkind']
    decide
  have hmem := ht'
  rw [← Tree.tokens_root] at hmem
  obtain ⟨ancestors, hleads⟩ := Node.Leads.of_mem_tokens hmem
  have hwithin := span_in_fullSpan token'
  have hcovers : token'.Covers token'.span.start :=
    ⟨hwithin.1, Nat.lt_of_lt_of_le (span_start_lt ht' hfile) hwithin.2.1, hfile⟩
  exact ⟨_, _, ⟨ancestors, token'⟩,
    (offset?_position (h.sized_after hu htext) ht' (isWord_of_mem ht' hkind').1).1,
    Tree.locate_eq_ok_iff.2 ⟨hleads, hcovers⟩, hrenamed.id⟩

end Renamed

/-! ## Which texts there are after a rename -/

section
variable {d d' : Documents} {g : ModuleGraph} {s : Symbol} {p : UnitId → Token → Bool} {new : String}

/-- The paths of a project depend on the texts of its units alone. -/
theorem Binding.projectPaths_congr (h : ∀ m ∈ g.modules, ∀ unit ∈ m.units,
    d.textOf? ⟨m.id, unit⟩ = d'.textOf? ⟨m.id, unit⟩) : projectPaths d g = projectPaths d' g :=
  List.flatMap_congr fun m hm => List.flatMap_congr fun unit hunit => by rw [h m hm unit hunit]

/-- Whether a token of a unit is one by which a node mentions the symbol with the given identity. -/
def isNameOf (d : Documents) (g : ModuleGraph) (id : SymbolId) (u : UnitId) (t : Token) : Bool :=
  (d.textOf? u).any fun source => (bindTree (contextIn d g u source) (.ofSource source)).any fun a =>
    decide (a.2.symbol.id = id) && decide (a.2.name = t.id)

theorem names_isNameOf (hfit : d.Fit g) (hsized : AllSized d g) :
    Names d g s (isNameOf d g s.id) := by
  intro u source hu htext t ht
  rw [isNameOf, htext, Option.any_some, List.any_eq_true]
  simp only [Bool.and_eq_true, decide_eq_true_eq]
  constructor
  · rintro ⟨⟨node, a⟩, ha, hid, hname⟩
    obtain ⟨n, t', -, hid', hmention⟩ := Mentions.exists_of_text hfit hu htext
      (hsized.of_text hu htext) (mention?_iff.2 ha)
    obtain rfl := eq_of_id_eq hmention.mem_sourceTokens ht (hid'.trans hname)
    exact ⟨n, a.symbol, hmention, hid⟩
  · rintro ⟨n, s', hmention, hid⟩
    exact ⟨_, mention?_iff.1 hmention.mention, hid, rfl⟩

/-- The tokens that name a symbol have given way to a new name. -/
theorem Replaced.textOf?_eq (h : Replaced d d' g p new) (hfit : d.Fit g) (hsized : AllSized d g)
    (hnames : Names d g s p) {u : UnitId} (hu : g.Lists u) :
    d'.textOf? u = (d.textOf? u).map (replaceTokens (isNameOf d g s.id u) new) := by
  obtain ⟨source, htext⟩ := hfit.text u hu
  rw [h.texts u source hu htext, htext, Option.map_some]
  refine congrArg some (replaceTokens_congr fun t ht => ?_)
  rw [Bool.eq_iff_iff, hnames u source hu htext t ht,
    names_isNameOf hfit hsized u source hu htext t ht]

end

/-! ## Renames in a workspace -/

namespace Workspace

/-- Carries out an edit of the documents of a workspace. -/
def apply (w : Workspace) (e : WorkspaceEdit) (timeout : Duration) :
    Except DocumentError Nat × Workspace :=
  let done := w.session.documents.edit e timeout
  (done.1, { w with session := { w.session with documents := done.2 } })

/-- Whether an identifier in a unit of a workspace has the given text. -/
def usesName (w : Workspace) (name : String) : Bool :=
  w.graph.modules.any fun m => m.units.any fun unit =>
    (w.text? ⟨m.id, unit⟩).any fun source => (lex source).any fun l =>
      l.isIdentifier && l.text == name

/-- Whether cursors in a file, one before and one after a change of the workspace, are on tokens of
one number. -/
def SameToken (w w' : Workspace) (uri : Uri) (position position' : Position) : Prop :=
  ∃ found found', w.underCursor? uri position = some found ∧
    w'.underCursor? uri position' = some found' ∧ found'.2.2.token.id = found.2.2.token.id

variable {w : Workspace} {files : List SourceFile}

theorem underCursor?_eq_some {uri : Uri} {position : Position} {path : FilePath} {source : String}
    {place : TokenPath} : w.underCursor? uri position = some (path, source, place) ↔
      uri.toFile? = some path ∧ w.session.documents.get? path = some source ∧
        source.utf8ByteSize ≤ Span.maxOffset ∧
        ∃ offset, (LineIndex.ofText source).offset? position = some offset ∧
          (Tree.ofSource source).locate offset = .ok place := by
  simp only [underCursor?, Option.bind_eq_some_iff, Option.map_eq_some_iff, Prod.mk.injEq,
    Except.toOption_eq_some, parse_eq_ok_iff]
  constructor
  · rintro ⟨_, hfile, _, htext, offset, hoffset, _, ⟨_, ⟨hsize, rfl⟩, hplace⟩, rfl, rfl, rfl⟩
    exact ⟨hfile, htext, hsize, offset, hoffset, hplace⟩
  · rintro ⟨hfile, htext, hsize, offset, hoffset, hplace⟩
    exact ⟨path, hfile, source, htext, offset, hoffset, place, ⟨_, ⟨hsize, rfl⟩, hplace⟩, rfl, rfl,
      rfl⟩

theorem text_ne_of_usesName {x : String} (hx : w.usesName x = false) {u : UnitId}
    {source : String} (hu : w.graph.Lists u) (htext : w.text? u = some source) {t : Token}
    (ht : t ∈ sourceTokens source) (hkind : t.kind = .identifier) : t.text ≠ x := by
  intro heq
  obtain ⟨m, hm, hid, hunit⟩ := ModuleGraph.lists_iff.1 hu
  have hlexeme : t.lexeme ∈ lex source := List.mem_of_getElem? (lexeme_of_mem ht).1
  have hused : w.usesName x := by
    refine List.any_eq_true.2 ⟨m, hm, List.any_eq_true.2 ⟨u.unit, hunit, ?_⟩⟩
    rw [hid, htext, Option.any_some]
    refine List.any_eq_true.2 ⟨t.lexeme, hlexeme, ?_⟩
    rw [Bool.and_eq_true, beq_iff_eq]
    exact ⟨by rw [Lexeme.isIdentifier, show t.lexeme.kind = .identifier from hkind]; rfl, heq⟩
  rw [hx] at hused
  cases hused

section
variable (hfiles : ∀ f ∈ files, f.unit.WellNamed)
  (hfree : CollisionFree (projectPaths (ofFiles files).session.documents (ofFiles files).graph))
  {uri : Uri} {position : Position} {newName : String} {e : WorkspaceEdit}
  (he : ((ofFiles files).serve ((ofFiles files).analysis.rename uri position newName)).1 = .ok e)

include hfiles hfree he

/-- The edit of a rename can be carried out and replaces all names of the symbol. -/
theorem exists_replaced (hsized : AllSized (ofFiles files).session.documents (ofFiles files).graph)
    (timeout : Duration) : ∃ u source token n t s p count,
    isWord newName ∧
    RenameStart (ofFiles files).session.documents (ofFiles files).graph uri position u source token
      n t s ∧
    (((ofFiles files).serve ((ofFiles files).analysis.rename uri position newName)).2.apply e
      timeout).1 = .ok count ∧
    Names (ofFiles files).session.documents (ofFiles files).graph s p ∧
    Replaced (ofFiles files).session.documents
      (((ofFiles files).serve ((ofFiles files).analysis.rename uri position newName)).2.apply e
        timeout).2.session.documents (ofFiles files).graph p newName := by
  have hfit := fit_ofFiles hfiles
  have husual := isUsual_ofFiles files
  obtain ⟨hkept, hheld⟩ := husual.rename_holds uri position newName
  rw [husual.serve_rename] at he
  obtain ⟨hword, u, source, token, n, t, s, hstart⟩ := exists_renameStart hfit he
  obtain ⟨e', p, count, d', he', hedit, hnames, hreplaced⟩ :=
    hstart.exists_replaced hfit hsized hfree hword hkept hheld timeout
  obtain rfl := Except.ok.inj (he.symm.trans he')
  have happly : ((ofFiles files).serve ((ofFiles files).analysis.rename uri position
      newName)).2.session.documents.edit e timeout = (.ok count, d') := hedit
  refine ⟨u, source, token, n, t, s, p, count, hword, hstart, ?_, hnames, ?_⟩
  · rw [apply, happly]
  · rw [apply, happly]
    exact hreplaced

/-- **Renaming and back restores every document.** After a rename to a name that no identifier has,
the rename of the same token to the old name is found and carried out, and gives every document the
text that it had, if offsets can count the bytes of all texts before and after. -/
theorem rename_back (hsized : AllSized (ofFiles files).session.documents (ofFiles files).graph)
    (hkeyword : newName ∉ keywords) (hliteral : newName ∉ literalWords)
    (hfresh : (ofFiles files).usesName newName = false) (timeout : Duration) {w' : Workspace}
    (hw' : w' = (((ofFiles files).serve
      ((ofFiles files).analysis.rename uri position newName)).2.apply e timeout).2)
    (hsized' : AllSized w'.session.documents w'.graph)
    (hfree' : CollisionFree (projectPaths w'.session.documents w'.graph)) :
    ∃ r count,
      ((ofFiles files).serve ((ofFiles files).analysis.resolveStrict uri position)).1 = .ok r ∧
      (((ofFiles files).serve ((ofFiles files).analysis.rename uri position newName)).2.apply e
        timeout).1 = .ok count ∧
      (∃ position', SameToken (ofFiles files) w' uri position position') ∧
      ∀ position', SameToken (ofFiles files) w' uri position position' → ∃ e' count',
        (w'.serve (w'.analysis.rename uri position' r.symbol.name)).1 = .ok e' ∧
        ((w'.serve (w'.analysis.rename uri position' r.symbol.name)).2.apply e' timeout).1 =
          .ok count' ∧
        ∀ path, ((w'.serve (w'.analysis.rename uri position' r.symbol.name)).2.apply e'
          timeout).2.session.documents.get? path = (ofFiles files).session.documents.get? path := by
  have hfit := fit_ofFiles hfiles
  obtain ⟨u, source, token, n, t, s, p, count, hword, hstart, hcount, hnames, hreplaced⟩ :=
    exists_replaced hfiles hfree he hsized timeout
  rw [← hw'] at hreplaced
  obtain ⟨path, hpath, hsymbol, hreaches⟩ := (hstart.cursor.mention.known hfit hstart.compiles).1
  have hgraph' : w'.graph = (ofFiles files).graph := by
    rw [hw']
    rfl
  rw [hgraph'] at hsized' hfree'
  have hrenamed : Renamed (ofFiles files).session.documents w'.session.documents
      (ofFiles files).graph path s p newName :=
    ⟨hreplaced, hfit, hsized, hsized', hfree, hpath, hsymbol, hstart.declared, hnames, hword,
      wordKind_eq_identifier hkeyword hliteral,
      fun v text hv htext t ht hkind => text_ne_of_usesName hfresh hv htext ht hkind⟩
  obtain ⟨r, -, -, -, hr, rfl, -⟩ := hstart.exists_rename hfit hfree
  obtain ⟨file, hfile, hsteps⟩ := hstart.file
  have hu := hstart.compiles.listed
  have htext := hstart.compiles.text
  have hwell := hfit.wellNamed u hu
  have hget : (ofFiles files).session.documents.get? file = some source :=
    (Documents.get?_of_steps hwell hsteps).trans htext
  have hget' : w'.session.documents.get? file = some (replaceTokens (p u) newName source) :=
    (Documents.get?_of_steps hwell hsteps).trans (hreplaced.texts u source hu htext)
  obtain ⟨-, offset, ancestors, hoffset, hleads, hcovers, -⟩ := hstart.cursor
  have hunder : (ofFiles files).underCursor? uri position =
      some (file, source, ⟨ancestors, token⟩) :=
    underCursor?_eq_some.2 ⟨hfile, hget, hstart.compiles.sized, offset, hoffset,
      Tree.locate_eq_ok_iff.2 ⟨hleads, hcovers⟩⟩
  have htoken : token ∈ sourceTokens source := by
    rw [← Tree.tokens_root]
    exact hleads.mem_tokens
  refine ⟨r, count, ?_, hcount, ?_, ?_⟩
  · exact (isUsual_ofFiles files).serve_resolveStrict.trans hr
  · obtain ⟨position', offset', place, hoffset', hlocate', hid⟩ :=
      hrenamed.exists_position hu htext htoken hstart.identifier
    exact ⟨position', _, _, hunder,
      underCursor?_eq_some.2 ⟨hfile, hget', hrenamed.sized_after hu htext, offset', hoffset',
        hlocate'⟩, hid⟩
  · rintro position' ⟨found, ⟨file', source', place⟩, hfound, hfound', hid⟩
    obtain rfl := Option.some.inj (hunder.symm.trans hfound)
    obtain ⟨hfile', hsource', -, offset', hoffset', hlocate'⟩ := underCursor?_eq_some.1 hfound'
    obtain rfl := Option.some.inj (hfile.symm.trans hfile')
    obtain rfl := Option.some.inj (hget'.symm.trans hsource')
    have husual' : w'.IsUsual := ⟨by rw [hw']; rfl, hrenamed.fit'.unlocked⟩
    obtain ⟨hkept', hheld'⟩ := husual'.rename_holds uri position' r.symbol.name
    obtain ⟨e', count', d'', he', hedit', hback⟩ := hrenamed.exists_rename_back hfree' hstart hoffset'
      hlocate' hid hkept' hheld' timeout
    have happly : (w'.serve (w'.analysis.rename uri position'
        r.symbol.name)).2.session.documents.edit e' timeout = (.ok count', d'') := hedit'
    refine ⟨e', count', ?_, ?_, ?_⟩
    · rw [husual'.serve_rename, hgraph']
      exact he'
    · rw [apply, happly]
    · rw [apply, happly]
      exact hback

end

/-- The files of `callFiles` after a rename of the function. -/
def renamedCallFiles : List SourceFile :=
  [⟨⟨⟨"lib"⟩, "lib.nav"⟩, "fn build() { build(); }\n"⟩,
    ⟨⟨.current, "main.nav"⟩, "import lib;\nfn main() { lib:build(); }\n"⟩]

theorem rename_back_callFiles : ∃ e count w',
    ((ofFiles callFiles).serve ((ofFiles callFiles).analysis.rename
      ⟨"file:///workspace/main.nav"⟩ ⟨1, 17⟩ "build")).1 = .ok e ∧
    ((ofFiles callFiles).serve ((ofFiles callFiles).analysis.rename
      ⟨"file:///workspace/main.nav"⟩ ⟨1, 17⟩ "build")).2.apply e ⟨100⟩ = (.ok count, w') ∧
    ∃ position' e' count' w'',
      SameToken (ofFiles callFiles) w' ⟨"file:///workspace/main.nav"⟩ ⟨1, 17⟩ position' ∧
      (w'.serve (w'.analysis.rename ⟨"file:///workspace/main.nav"⟩ position' "make")).1 = .ok e' ∧
      (w'.serve (w'.analysis.rename ⟨"file:///workspace/main.nav"⟩ position' "make")).2.apply e'
        ⟨100⟩ = (.ok count', w'') ∧
      ∀ path, w''.session.documents.get? path =
        (ofFiles callFiles).session.documents.get? path := by
  have hfiles : ∀ f ∈ callFiles, f.unit.WellNamed := by decide
  have hfit := fit_ofFiles hfiles
  have hresolve : ((ofFiles callFiles).serve ((ofFiles callFiles).analysis.resolveStrict
      ⟨"file:///workspace/main.nav"⟩ ⟨1, 17⟩)).1.toOption.any fun r =>
        decide (r.symbol.name = "make" ∧
          ∀ m ∈ (ofFiles callFiles).graph.modules, ∀ unit ∈ m.units,
            ((ofFiles callFiles).session.documents.textOf? ⟨m.id, unit⟩).map (replaceTokens
              (isNameOf (ofFiles callFiles).session.documents (ofFiles callFiles).graph r.symbol.id
                ⟨m.id, unit⟩) "build") =
              (ofFiles renamedCallFiles).session.documents.textOf? ⟨m.id, unit⟩) := by
    decide +kernel
  have hrenamedFree : CollisionFree (projectPaths (ofFiles renamedCallFiles).session.documents
      (ofFiles callFiles).graph) := by decide +kernel
  have hsized : AllSized (ofFiles callFiles).session.documents (ofFiles callFiles).graph := by
    decide +kernel
  have hrenamedSized : AllSized (ofFiles renamedCallFiles).session.documents
      (ofFiles callFiles).graph := by decide +kernel
  obtain ⟨r, hr, hproperties⟩ := exists_ok_of_any hresolve
  obtain ⟨hname, htexts⟩ := of_decide_eq_true hproperties
  obtain ⟨e, he⟩ := exists_rename_callFiles
  -- The paths after the rename are those of the renamed files.
  obtain ⟨u, source, token, n, t, s, p, -, -, hstart, -, hnames, hreplaced⟩ :=
    exists_replaced hfiles collisionFree_callFiles he hsized ⟨100⟩
  obtain ⟨r', -, -, -, hr', rfl, -⟩ := hstart.exists_rename hfit collisionFree_callFiles
  have hr' := (isUsual_ofFiles callFiles).serve_resolveStrict.trans hr'
  obtain rfl := Except.ok.inj (hr'.symm.trans hr)
  have htexts := fun m hm unit hunit => (hreplaced.textOf?_eq hfit hsized hnames
    (ModuleGraph.lists_iff.2 ⟨m, hm, rfl, hunit⟩)).trans (htexts m hm unit hunit)
  have hpaths := projectPaths_congr htexts
  have hsized' := allSized_iff.2 fun m hm unit hunit text htext =>
    allSized_iff.1 hrenamedSized m hm unit hunit text (htexts m hm unit hunit ▸ htext)
  obtain ⟨r, count, hr, hcount, ⟨position', hposition'⟩, hback⟩ :=
    rename_back hfiles collisionFree_callFiles he hsized (by decide) (by decide) (by decide +kernel)
      ⟨100⟩ rfl hsized' (hpaths ▸ hrenamedFree)
  obtain rfl := Except.ok.inj (hr'.symm.trans hr)
  obtain ⟨e', count', he', hcount', hrestored⟩ := hback position' hposition'
  rw [hname] at he' hcount' hrestored
  exact ⟨e, count, _, he, Prod.ext hcount rfl, position', e', count', _, hposition', he',
    Prod.ext hcount' rfl, hrestored⟩

end Workspace

end Xref
