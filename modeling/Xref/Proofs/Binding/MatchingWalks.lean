import Xref.Proofs.Binding.Forms
import Xref.Proofs.Binding.Matching
import Xref.Proofs.Binding.Rebinding
import Xref.Proofs.Binding.VisitPaths

/-!
# Walks of two formats

The walks of two texts of the same words go side by side: at every node they know the same
(`Comparison.MatchesState`), and the node means the same (`Comparison.MatchesMeaning`), up to symbols
that match. Texts of types flow into the shapes of records. A type name is written in a shape as it
stands in the text only if nothing of this name is found, so shapes are the same where all names with
a qualifier are found. So the two units mention symbols that match, at the same nodes and in the same
order (`Comparison.bindTree_matches`).
-/

namespace Xref.Binding

namespace Comparison

variable (ρ : Comparison)

/-- The unit that is compiled, if it sees the given declarations. -/
def seeing (v : Visible) : Context := ⟨ρ.module, ρ.unit, v⟩

/-- Whether all names with a qualifier below a node are found. -/
abbrev Found (seen : Visible) (n : Node) : Prop :=
  ((ρ.seeing seen).bound ρ.before).ResolvesQualified n

/-! ## States and meanings side by side -/

structure MatchesLocal (l l' : Local) : Prop where
  symbol : ρ.Matches l.symbol l'.symbol
  type : Option.Rel ρ.MatchesType l.type l'.type

structure MatchesMention (a a' : NodeId × Mention) : Prop where
  node : a'.1 = a.1
  name : a'.2.name = a.2.name
  symbol : ρ.Matches a.2.symbol a'.2.symbol

structure MatchesState (s s' : State) : Prop where
  scopes : List.Forall₂ (List.Forall₂ ρ.MatchesLocal) s.scopes s'.scopes
  function : s'.function = s.function
  declared : s'.declared = s.declared
  mentions : List.Forall₂ ρ.MatchesMention s.mentions s'.mentions

/-- Whether written types match. They add the same to the shape of a record if `found` holds. -/
structure MatchesWritten (found : Prop) (w w' : WrittenType) : Prop where
  record : Option.Rel ρ.MatchesType w.record w'.record
  shape : found → w'.shape = w.shape

structure MatchesWrittenField (found : Prop) (w w' : Context.WrittenField) : Prop where
  node : w'.node.id = w.node.id
  name : ρ.SameToken w.name w'.name
  symbol : ρ.Matches w.symbol w'.symbol
  type : Option.Rel (ρ.MatchesWritten found) w.type w'.type

structure MatchesMeaning (found : Prop) (a a' : Meaning) : Prop where
  value : Option.Rel ρ.MatchesType a.value a'.value
  result : Option.Rel ρ.MatchesType a.result a'.result
  written : Option.Rel (ρ.MatchesWritten found) a.written a'.written

/-- Whether nodes are alike and mean the same. -/
structure MatchesBelow (seen : Visible) (below below' : Node × Meaning) : Prop where
  alike : below.1.Alike ρ.SameToken below'.1
  meaning : ρ.MatchesMeaning (ρ.Found seen below.1) below.2 below'.2

/-- Whether the walks of two nodes go side by side. -/
structure MatchesWalk (found : Prop) (x x' : Meaning × State) : Prop where
  meaning : ρ.MatchesMeaning found x.1 x'.1
  state : ρ.MatchesState x.2 x'.2

/-- Whether two visits are of nodes that are alike. -/
structure Paired (seen seen' : Visible) (v v' : Visit) : Prop where
  mem : v ∈ unitVisits (ρ.seeing seen) ρ.before
  mem' : v' ∈ unitVisits (ρ.seeing seen') ρ.after
  alike : v.node.Alike ρ.SameToken v'.node
  isBody : v'.isBody = v.isBody

variable {ρ} {seen seen' : Visible} {s s' : State} {n n' : Node} {t t' : Token}
  {symbol symbol' : Symbol} {found : Prop} {as as' : List (NodeId × Mention)}

namespace MatchesState

theorem start : ρ.MatchesState .start .start := ⟨.nil, rfl, rfl, .nil⟩

theorem functionName_eq (hs : ρ.MatchesState s s') : s'.functionName = s.functionName := by
  rw [State.functionName, State.functionName, hs.function]

theorem withMentions (hs : ρ.MatchesState s s') (h : List.Forall₂ ρ.MatchesMention as as') :
    ρ.MatchesState { s with mentions := as ++ s.mentions }
      { s' with mentions := as' ++ s'.mentions } :=
  ⟨hs.scopes, hs.function, hs.declared, List.rel_append h hs.mentions⟩

theorem mention (hs : ρ.MatchesState s s') (hn : n'.id = n.id) (ht : t'.id = t.id)
    (hsymbol : ρ.Matches symbol symbol') :
    ρ.MatchesState (s.mention n t symbol) (s'.mention n' t' symbol') :=
  ⟨hs.scopes, hs.function, hs.declared, .cons ⟨hn, ht, hsymbol⟩ hs.mentions⟩

theorem openScope (hs : ρ.MatchesState s s') : ρ.MatchesState s.openScope s'.openScope :=
  ⟨.cons .nil hs.scopes, hs.function, hs.declared, hs.mentions⟩

theorem closeScope (hs : ρ.MatchesState s s') : ρ.MatchesState s.closeScope s'.closeScope :=
  ⟨tail_rel hs.scopes, hs.function, hs.declared, hs.mentions⟩

theorem bind {l l' : Local} (hs : ρ.MatchesState s s') (hl : ρ.MatchesLocal l l') :
    ρ.MatchesState (s.bind l) (s'.bind l') := by
  rw [State.bind_eq, State.bind_eq]
  exact ⟨modifyHead_rel hs.scopes fun _ _ hblock => .cons hl hblock, hs.function, hs.declared,
    hs.mentions⟩

/-- A name means the local variable that it means in the other text. -/
theorem local?_matches (hs : ρ.MatchesState s s') (x : String) :
    Option.Rel ρ.MatchesLocal (s.local? x) (s'.local? x) := by
  unfold State.local?
  rw [← List.find?_flatten, ← List.find?_flatten]
  exact find?_rel (List.rel_flatten hs.scopes) fun _ _ hl => by rw [hl.symbol.name]

end MatchesState

namespace MatchesMeaning

variable {r r' : Option RecordType}

theorem none : ρ.MatchesMeaning found .none .none := ⟨.none, .none, .none⟩

theorem ofValue (h : Option.Rel ρ.MatchesType r r') :
    ρ.MatchesMeaning found (.ofValue r) (.ofValue r') := ⟨h, .none, .none⟩

theorem ofWritten {w w' : WrittenType} (h : ρ.MatchesWritten found w w') :
    ρ.MatchesMeaning found (.ofWritten w) (.ofWritten w') := ⟨.none, .none, .some h⟩

end MatchesMeaning

/-! ## What lies below a node -/

section
variable {below below' : Meanings} (h : List.Forall₂ (ρ.MatchesBelow seen) below below')

include h

theorem writtenType?_matches (hfound : ∀ m ∈ below, found → ρ.Found seen m.1) :
    Option.Rel (ρ.MatchesWritten found) below.writtenType? below'.writtenType? := by
  refine bind_rel (find?_rel (forall₂_mem h) fun _ _ hm => by rw [hm.2.2.alike.kind_eq]) ?_
  rintro m m' ⟨hm, -, hrel⟩
  rcases rel_cases hrel.meaning.written with ⟨hw, hw'⟩ | ⟨w, w', hw, hw', hwritten⟩
  · rw [hw, hw']
    exact .none
  · rw [hw, hw']
    exact .some ⟨hwritten.record, fun hall => hwritten.shape (hfound m hm hall)⟩

theorem writtenRecord_matches : Option.Rel ρ.MatchesType
    (below.writtenType?.bind WrittenType.record) (below'.writtenType?.bind WrittenType.record) := by
  have hwritten : Option.Rel (ρ.MatchesWritten False) below.writtenType? below'.writtenType? :=
    writtenType?_matches h fun _ _ hfalse => hfalse.elim
  exact bind_rel hwritten fun _ _ hw => hw.record

theorem firstValue?_matches :
    Option.Rel ρ.MatchesType below.firstValue? below'.firstValue? :=
  bind_rel (head?_rel h) fun _ _ hab => hab.meaning.value

theorem result_matches : Option.Rel ρ.MatchesType (below.head?.bind (·.2.result))
    (below'.head?.bind (·.2.result)) :=
  bind_rel (head?_rel h) fun _ _ hab => hab.meaning.result

theorem lastValue?_matches : Option.Rel ρ.MatchesType below.lastValue? below'.lastValue? :=
  bind_rel (getLast?_rel (filter_rel h fun _ _ hab => by rw [hab.alike.kind_eq]))
    fun _ _ hab => hab.meaning.value

end

/-! ## References -/

/-- What names mean side by side. -/
abbrev MatchesReference (ρ : Comparison) (found : Prop) (a a' : Meaning × Symbol) : Prop :=
  ρ.MatchesMeaning found a.1 a'.1 ∧ ρ.Matches a.2 a'.2

theorem refer_matches {o o' : Option (Meaning × Symbol)} (hn : n'.id = n.id) (ht : t'.id = t.id)
    (hs : ρ.MatchesState s s') (h : Option.Rel (ρ.MatchesReference found) o o') :
    ρ.MatchesWalk found (s.refer n t o) (s'.refer n' t' o') := by
  cases h with
  | none => exact ⟨.none, hs⟩
  | some h => exact ⟨h.1, hs.mention hn ht h.2⟩

section
variable (hseen : ρ.MatchesVisible seen seen')

include hseen

theorem itemMeaning_matches {S S' : ModuleScope} {item item' : Item} (hS : ρ.MatchesScope S S')
    (hitem : ρ.MatchesItem item item') : ρ.MatchesReference found
      ((ρ.seeing seen).itemMeaning S item) ((ρ.seeing seen').itemMeaning S' item') := by
  have htype := recordType?_matches hseen hS item.type
  refine ⟨⟨?_, ?_, .none⟩, hitem.symbol⟩
  · dsimp only [Context.itemMeaning, Visible.valueType?, seeing]
    rw [hitem.symbol.kind, hitem.type]
    split
    · exact htype
    · exact .none
  · dsimp only [Context.itemMeaning, Visible.resultType?, seeing]
    rw [hitem.symbol.kind, hitem.type]
    split
    · exact htype
    · exact .none

/-- A bare name means the variable, the declaration or the part of the language that it means in the
other text. -/
theorem bare?_matches (hs : ρ.MatchesState s s') {x : String}
    (hbuiltin : ∀ symbol, builtin? x = some symbol → ρ.Matches symbol symbol) :
    Option.Rel (ρ.MatchesReference found) ((ρ.seeing seen).bare? s x)
      ((ρ.seeing seen').bare? s' x) := by
  unfold Context.bare?
  rcases rel_cases (hs.local?_matches x) with ⟨hl, hl'⟩ | ⟨l, l', hl, hl', hrel⟩
  · rw [hl, hl']
    dsimp only [seeing]
    rcases rel_cases (hseen.own.get?_matches x) with ⟨hi, hi'⟩ | ⟨item, item', hi, hi', hitem⟩
    · rw [hi, hi']
      dsimp only
      cases hsymbol : builtin? x with
      | none => exact .none
      | some symbol => exact .some ⟨.none, hbuiltin symbol hsymbol⟩
    · rw [hi, hi']
      exact .some (itemMeaning_matches hseen hseen.own hitem)
  · rw [hl, hl']
    exact .some ⟨.ofValue hrel.type, hrel.symbol⟩

theorem qualified?_matches (q x : String) : Option.Rel (ρ.MatchesReference found)
    ((ρ.seeing seen).qualified? q x) ((ρ.seeing seen').qualified? q x) := by
  refine bind_rel (hseen.imported?_matches q) fun S S' hS => ?_
  rcases rel_cases (hS.get?_matches x) with ⟨hi, hi'⟩ | ⟨item, item', hi, hi', hitem⟩
  · rw [hi, hi']
    exact .none
  · rw [hi, hi']
    exact .some (itemMeaning_matches hseen hS hitem)

theorem ofField?_matches {r r' : Option RecordType} (hr : Option.Rel ρ.MatchesType r r')
    (x : String) : Option.Rel (ρ.MatchesReference found) ((ρ.seeing seen).ofField? r x)
      ((ρ.seeing seen').ofField? r' x) := by
  have hfield := bind_rel hr fun r r' hr => field?_matches hseen hr x
  unfold Context.ofField?
  rcases rel_cases hfield with ⟨hf, hf'⟩ | ⟨f, f', hf, hf', hrel⟩
  · dsimp only [seeing]
    rw [hf, hf']
    exact .none
  · dsimp only [seeing]
    rw [hf, hf']
    exact .some ⟨.ofValue hrel.2, hrel.1⟩

end

/-! ## Paths of what is mentioned -/

section
variable {v v' : Visit} (h : ρ.Paired seen seen' v v')

include h

/-- What the language provides matches itself. -/
theorem builtin?_matches (hkind : v.node.kind ≠ .modulePart) (ht : t ∈ v.node.childTokens)
    (ht' : t' ∈ v'.node.childTokens) (hidentifier : t.kind = .identifier)
    (hsame : ρ.SameToken t t') (hsymbol : builtin? t.text = some symbol) :
    ρ.Matches symbol symbol := by
  obtain ⟨hat, hsome⟩ := builtin?_at hsymbol
  have hkind' : v'.node.kind ≠ .modulePart := by rwa [h.alike.kind_eq]
  have hpath := builtin_mem h.mem hkind ht hidentifier hsome
  have hpath' := builtin_mem h.mem' hkind' ht' (hsame.kind.trans hidentifier) (hsame.text ▸ hsome)
  rw [hsame.text] at hpath'
  exact .refl hat (ρ.covers hpath) (ρ.covers' hpath') rfl

/-! ## On the way down -/

theorem bindImport_matches (hkind : v.node.kind = .importDeclaration) (hs : ρ.MatchesState s s') :
    ρ.MatchesState (Context.bindImport v.node s) (Context.bindImport v'.node s') := by
  unfold Context.bindImport
  rcases rel_cases (identifier_same h.alike 1) with ⟨ht, ht'⟩ | ⟨t, t', ht, ht', hsame⟩
  · rw [ht, ht']
    exact hs
  · have hpath := module_mem h.mem hkind ht
    have hpath' := module_mem h.mem' (by rw [h.alike.kind_eq, hkind]) ht'
    rw [hsame.text] at hpath'
    have hsymbol : ρ.Matches (moduleSymbol t.text) (moduleSymbol t.text) :=
      .refl (moduleSymbol_at t.text) (ρ.covers hpath) (ρ.covers' hpath') rfl
    rw [ht, ht']
    dsimp only
    rw [hsame.text]
    exact hs.mention h.alike.id_eq hsame.id hsymbol

theorem declareItem_matches (hs : ρ.MatchesState s s') :
    ρ.MatchesState ((ρ.seeing seen).declareItem v.node s)
      ((ρ.seeing seen').declareItem v'.node s') := by
  have hpaths := fun p hp => itemPaths_mem (p := p) h.mem hp
  have hpaths' := fun p hp => itemPaths_mem (p := p) h.mem' hp
  have hitem : Option.Rel ρ.MatchesItem (itemOf? ρ.module ρ.unit v.node)
      (itemOf? ρ.module ρ.unit v'.node) := itemOf?_matches h.alike
    (fun p hp => ρ.covers (hpaths p hp)) fun p hp => ρ.covers' (hpaths' p hp)
  rw [declareItem_eq, declareItem_eq]
  refine hs.withMentions ?_
  dsimp only [seeing]
  generalize itemOf? ρ.module ρ.unit v.node = o at hitem
  generalize itemOf? ρ.module ρ.unit v'.node = o' at hitem
  cases hitem with
  | none => exact .nil
  | some hitem =>
    refine .cons ⟨h.alike.id_eq, hitem.name, hitem.symbol⟩ (List.rel_reverse ?_)
    exact List.rel_map (fun _ _ hf => ⟨hf.node, hf.name, hf.symbol⟩) hitem.fields

/-- What is known when the slots of a node are entered. -/
theorem enter_matches (hs : ρ.MatchesState s s') :
    ρ.MatchesState ((ρ.seeing seen).enter v.node s) ((ρ.seeing seen').enter v'.node s') := by
  have hdeclare := declareItem_matches h hs
  unfold Context.enter
  rw [h.alike.kind_eq]
  cases hkind : v.node.kind
  case importDeclaration => exact bindImport_matches h hkind hs
  case functionDefinition =>
    refine MatchesState.openScope ⟨hdeclare.scopes, ?_, rfl, hdeclare.mentions⟩
    rcases rel_cases (identifier_same h.alike 1) with ⟨ht, ht'⟩ | ⟨t, t', ht, ht', hsame⟩
    · rw [ht, ht']
    · rw [ht, ht', Option.map_some, Option.map_some, hsame.text]
  case typeDefinition => exact hdeclare
  case moduleVariableDeclaration => exact hdeclare
  case functionBody => exact hs.openScope
  case blockStatement => exact hs.openScope
  all_goals exact hs

/-! ## On the way back: declarations -/

section
variable (hbelow : List.Forall₂ (ρ.MatchesBelow seen) v.below v'.below)

include hbelow

omit hbelow in
/-- What lies below a node is found if everything below the node is. -/
theorem found_below : ∀ m ∈ v.below, ρ.Found seen v.node → ρ.Found seen m.1 :=
  fun _ hm hfound => resolvesQualified_child hfound (mem_below_of_visit h.mem hm)

/-- The fields of a record written in place. -/
theorem writtenFields_matches (hkind : v.node.kind = .recordTypeDescriptor)
    (hbody : v.isBody = false) (hkeyword : v.node.slots.head?.bind Slot.token? = some t)
    (hkeyword' : v'.node.slots.head?.bind Slot.token? = some t') (hsame : ρ.SameToken t t') :
    List.Forall₂ (ρ.MatchesWrittenField (ρ.Found seen v.node))
      ((ρ.seeing seen).writtenFields v.below t) ((ρ.seeing seen').writtenFields v'.below t') := by
  refine List.rel_filterMap (fun field field' hfield => ?_) (forall₂_mem hbelow)
  obtain ⟨hmem, hmem', hfield⟩ := hfield
  have hkind' : v'.node.kind = .recordTypeDescriptor := by rw [h.alike.kind_eq, hkind]
  unfold Context.writtenField?
  rcases rel_cases (identifier_same hfield.alike 0) with ⟨hk, hk'⟩ | ⟨k, k', hk, hk', hname⟩
  · rw [hk, hk']
    exact .none
  · have hpath := recordPaths_mem h.mem hkind hbody (by
      rw [recordPaths, hkind, hkeyword]
      exact List.mem_cons_of_mem _ (field_mem_fieldPaths (mem_below_of_visit h.mem hmem) hk))
    have hpath' := recordPaths_mem h.mem' hkind' (h.isBody.trans hbody) (by
      rw [recordPaths, hkind', hkeyword']
      exact List.mem_cons_of_mem _ (field_mem_fieldPaths (mem_below_of_visit h.mem' hmem') hk'))
    rw [hk, hk']
    refine .some ⟨hfield.alike.id_eq, hname, ?_, ?_⟩
    · refine declaredSymbol_matches (ρ.covers hpath) (ρ.covers' hpath') ?_ hname rfl rfl rfl
      rw [hname.text]
      exact .field (.record ⟨t, t', hsame, rfl, rfl⟩)
    · dsimp only
      rcases rel_cases hfield.meaning.written with ⟨hw, hw'⟩ | ⟨w, w', hw, hw', hwritten⟩
      · rw [hw, hw']
        exact .none
      · rw [hw, hw']
        exact .some ⟨hwritten.record, fun hfound =>
          hwritten.shape (found_below h field hmem hfound)⟩

omit h hbelow in
/-- Fields that match make one shape. -/
theorem shapeOf_eq {fields fields' : List Context.WrittenField}
    (hfields : List.Forall₂ (ρ.MatchesWrittenField found) fields fields') (hfound : found) :
    Context.shapeOf fields' = Context.shapeOf fields := by
  unfold Context.shapeOf
  rw [map_eq_of_forall₂ hfields fun w w' hw => ?_]
  rw [hw.name.text]
  rcases rel_cases hw.type with ⟨hw, hw'⟩ | ⟨w, w', hw, hw', hwritten⟩
  · rw [hw, hw']
  · rw [hw, hw', Option.elim_some, Option.elim_some, hwritten.shape hfound]

/-- **A record written in place has the same shape,** if everything with a qualifier in it is
found. -/
theorem declareRecord_matches
    (hresolved : ρ.resolved → ∀ n ∈ ((ρ.seeing seen).bound ρ.before).records, ρ.Found seen n)
    (hs : ρ.MatchesState v.state v'.state) (hkind : v.node.kind = .recordTypeDescriptor)
    (hbody : v.isBody = false) : ρ.MatchesWalk (ρ.Found seen v.node)
      ((ρ.seeing seen).declareRecord v.node v.below v.state)
      ((ρ.seeing seen').declareRecord v'.node v'.below v'.state) := by
  have hkind' : v'.node.kind = .recordTypeDescriptor := by rw [h.alike.kind_eq, hkind]
  rcases rel_cases h.alike.firstToken with ⟨ht, ht'⟩ | ⟨t, t', ht, ht', hsame⟩
  · rw [Context.declareRecord, Context.declareRecord, ht, ht']
    exact ⟨.ofWritten ⟨.none, fun _ => rfl⟩, hs⟩
  · have hfields := writtenFields_matches h hbelow hkind hbody ht ht' hsame
    have hpath := recordPaths_mem h.mem hkind hbody (by
      rw [recordPaths, hkind, ht]
      exact List.mem_cons_self)
    have hpath' := recordPaths_mem h.mem' hkind' (h.isBody.trans hbody) (by
      rw [recordPaths, hkind', ht']
      exact List.mem_cons_self)
    have hsymbol : ρ.Matches ((ρ.seeing seen).recordSymbol v.node v.below t)
        ((ρ.seeing seen').recordSymbol v'.node v'.below t') := by
      refine ⟨rfl, fun hall => ?_, _, ρ.covers hpath, _, ρ.covers' hpath',
        .record ⟨t, t', hsame, rfl, rfl⟩, recordSymbol_at _ _ _ _, recordSymbol_at _ _ _ _⟩
      have hfound := hresolved hall _ (mem_records_of_visit h.mem hkind hbody ht)
      rw [Context.recordSymbol, Context.recordSymbol, shapeOf_eq hfields hfound]
    rw [declareRecord_eq _ ht, declareRecord_eq _ ht']
    refine ⟨.ofWritten ⟨.some (matchesType_written.2 ?_), shapeOf_eq hfields⟩, hs.withMentions
      (.cons ⟨h.alike.id_eq, hsame.id, hsymbol⟩ (List.rel_reverse ?_))⟩
    · exact List.rel_map (fun w w' hw => ⟨hw.symbol, bind_rel hw.type fun _ _ hwritten =>
        hwritten.record⟩) hfields
    · exact List.rel_map (fun w w' hw => ⟨hw.node, hw.name.id, hw.symbol⟩) hfields

theorem declareParameter_matches (hs : ρ.MatchesState v.state v'.state)
    (hkind : v.node.kind = .requiredParameter) : ρ.MatchesState
      ((ρ.seeing seen).declareParameter v.node v.below v.state)
      ((ρ.seeing seen').declareParameter v'.node v'.below v'.state) := by
  rcases rel_cases (identifier_same h.alike 0) with ⟨ht, ht'⟩ | ⟨t, t', ht, ht', hsame⟩
  · rw [Context.declareParameter, Context.declareParameter, ht, ht']
    exact hs
  · have hpath := parameter_mem h.mem hkind ht
    have hpath' := parameter_mem h.mem' (by rw [h.alike.kind_eq, hkind]) ht'
    rw [hsame.text, hs.functionName_eq] at hpath'
    have hsymbol : ρ.Matches ((ρ.seeing seen).parameterSymbol v.node t v.state)
        ((ρ.seeing seen').parameterSymbol v'.node t' v'.state) := by
      unfold Context.parameterSymbol
      rw [hsame.text, hs.functionName_eq]
      exact declaredSymbol_matches (ρ.covers hpath) (ρ.covers' hpath') (.other rfl) hsame rfl rfl rfl
    rw [Context.declareParameter_eq ht, Context.declareParameter_eq ht']
    exact (hs.mention h.alike.id_eq hsame.id hsymbol).bind ⟨hsymbol, writtenRecord_matches hbelow⟩

theorem declareVariable_matches (hs : ρ.MatchesState v.state v'.state)
    (hkind : v.node.kind = .variableDeclaration) : ρ.MatchesState
      ((ρ.seeing seen).declareVariable v.node v.below v.state)
      ((ρ.seeing seen').declareVariable v'.node v'.below v'.state) := by
  rcases rel_cases (identifier_same h.alike 1) with ⟨ht, ht'⟩ | ⟨t, t', ht, ht', hsame⟩
  · rw [Context.declareVariable, Context.declareVariable, ht, ht']
    exact hs
  · have hpath := localVar_mem h.mem hkind ht
    have hpath' := localVar_mem h.mem' (by rw [h.alike.kind_eq, hkind]) ht'
    rw [hsame.text, hs.functionName_eq, hs.declared] at hpath'
    have hsymbol : ρ.Matches ((ρ.seeing seen).variableSymbol v.node t v.state)
        ((ρ.seeing seen').variableSymbol v'.node t' v'.state) := by
      unfold Context.variableSymbol
      rw [hsame.text, hs.functionName_eq, hs.declared]
      exact declaredSymbol_matches (ρ.covers hpath) (ρ.covers' hpath') (.other rfl) hsame rfl rfl rfl
    have hdeclared : ρ.MatchesState
        { v.state with declared := t.text :: v.state.declared }
        { v'.state with declared := t'.text :: v'.state.declared } :=
      ⟨hs.scopes, hs.function, by rw [hsame.text, hs.declared], hs.mentions⟩
    rw [Context.declareVariable_eq ht, Context.declareVariable_eq ht',
      hasType_eq hbelow fun _ _ hm => hm.alike.kind_eq]
    refine (hdeclared.mention h.alike.id_eq hsame.id hsymbol).bind ⟨hsymbol, ?_⟩
    dsimp only
    split
    · exact writtenRecord_matches hbelow
    · exact lastValue?_matches hbelow

end

/-! ## On the way back: references -/

section
variable (hseen : ρ.MatchesVisible seen seen')

include hseen

/-- A type name adds the same to the shape of a record, if it is found or has no qualifier. -/
theorem bindType_matches (hs : ρ.MatchesState v.state v'.state)
    (hkind : v.node.kind = .typeReference) : ρ.MatchesWalk (ρ.Found seen v.node)
      ((ρ.seeing seen).bindType v.node v.state) ((ρ.seeing seen').bindType v'.node v'.state) := by
  have hn := mem_preorder_of_visit h.mem
  have hn' := mem_preorder_of_visit h.mem'
  have hkind' : v'.node.kind = .typeReference := by rw [h.alike.kind_eq, hkind]
  obtain ⟨name, qualifier, hname, hword, htn, hslots⟩ := exists_typeName hn hkind
  obtain ⟨name', qualifier', hname', hword', htn', hslots'⟩ := exists_typeName hn' hkind'
  have hsame : ρ.SameToken name name' := by
    have hlast := getLast?_rel (h.alike.identifiers fun _ _ ht => ht.kind)
    rw [hname, hname'] at hlast
    cases hlast with
    | some hsame => exact hsame
  have hqualifier : qualifier' = qualifier := by
    have heq := ofNode?_eq h.alike
    rw [htn, htn'] at heq
    exact (congrArg TypeName.qualifier (Option.some.inj heq)).symm
  obtain ⟨hchild, hidentifier, -⟩ := typeName_last htn hname
  have hresolved := resolve?_matches (t := ⟨qualifier, name.text⟩) hseen hseen.own fun symbol =>
    builtin?_matches h (by rw [hkind]; decide) hchild (typeName_last htn' hname').1 hidentifier hsame
  rw [Context.bindType, Context.bindType, Context.namedType, Context.namedType, htn, htn', hname,
    hname', hqualifier, hsame.text, Option.bind_some, Option.bind_some]
  dsimp only [seeing]
  rcases rel_cases hresolved with ⟨hr, hr'⟩ | ⟨r, r', hr, hr', hrel⟩
  · rw [hr, hr']
    refine ⟨.ofWritten ⟨.none, fun hfound => ?_⟩, hs⟩
    -- Only here the shape has a name as it is written, and this name is one word.
    have hbare : qualifier = none := qualifier_eq_none hn hkind hfound htn hname hr
    dsimp only
    rw [header_typeName (hslots hbare) hword,
      header_typeName (hslots' (hqualifier.trans hbare)) hword', hsame.text]
  · rw [hr, hr']
    refine ⟨.ofWritten ⟨hrel.2, fun _ => ?_⟩, hs.mention h.alike.id_eq hsame.id hrel.1⟩
    dsimp only
    rw [hrel.1.owner, hrel.1.name]

theorem bindName_matches (hs : ρ.MatchesState v.state v'.state)
    (hkind : v.node.kind = .simpleNameReference) : ρ.MatchesWalk found
      ((ρ.seeing seen).bindName v.node v.state) ((ρ.seeing seen').bindName v'.node v'.state) := by
  rcases rel_cases (identifier_same h.alike 0) with ⟨ht, ht'⟩ | ⟨t, t', ht, ht', hsame⟩
  · rw [Context.bindName, Context.bindName, ht, ht']
    exact ⟨.none, hs⟩
  · obtain ⟨hchild, hidentifier⟩ := identifierAt?_eq_some ht
    rw [Context.bindName_eq ht, Context.bindName_eq ht', hsame.text]
    exact refer_matches h.alike.id_eq hsame.id hs <| bare?_matches hseen hs fun symbol =>
      builtin?_matches h (by rw [hkind]; decide) hchild (identifierAt?_eq_some ht').1 hidentifier
        hsame

theorem bindQualifiedName_matches (hs : ρ.MatchesState v.state v'.state) : ρ.MatchesWalk found
    ((ρ.seeing seen).bindQualifiedName v.node v.state)
    ((ρ.seeing seen').bindQualifiedName v'.node v'.state) := by
  rcases rel_cases (identifier_same h.alike 0) with ⟨hk, hk'⟩ | ⟨k, k', hk, hk', hqualifier⟩
  · rw [Context.bindQualifiedName, Context.bindQualifiedName, hk, hk']
    exact ⟨.none, hs⟩
  rcases rel_cases (identifier_same h.alike 2) with ⟨ht, ht'⟩ | ⟨t, t', ht, ht', hsame⟩
  · rw [Context.bindQualifiedName, Context.bindQualifiedName, hk, hk', ht, ht']
    exact ⟨.none, hs⟩
  · rw [Context.bindQualifiedName_eq hk ht, Context.bindQualifiedName_eq hk' ht', hsame.text,
      hqualifier.text]
    exact refer_matches h.alike.id_eq hsame.id hs (qualified?_matches hseen _ _)

theorem bindField_matches (hbelow : List.Forall₂ (ρ.MatchesBelow seen) v.below v'.below)
    (hs : ρ.MatchesState v.state v'.state) : ρ.MatchesWalk found
      ((ρ.seeing seen).bindField v.node v.below v.state)
      ((ρ.seeing seen').bindField v'.node v'.below v'.state) := by
  rcases rel_cases (identifier_same h.alike 2) with ⟨ht, ht'⟩ | ⟨t, t', ht, ht', hsame⟩
  · rw [Context.bindField, Context.bindField, ht, ht']
    exact ⟨.none, hs⟩
  · rw [Context.bindField_eq ht, Context.bindField_eq ht', hsame.text]
    exact refer_matches h.alike.id_eq hsame.id hs
      (ofField?_matches hseen (firstValue?_matches hbelow) _)

/-! ## The walk -/

/-- **A node means the same,** up to symbols that match. -/
theorem leave_matches
    (hresolved : ρ.resolved → ∀ n ∈ ((ρ.seeing seen).bound ρ.before).records, ρ.Found seen n)
    (hbelow : List.Forall₂ (ρ.MatchesBelow seen) v.below v'.below)
    (hs : ρ.MatchesState v.state v'.state) : ρ.MatchesWalk (ρ.Found seen v.node)
      ((ρ.seeing seen).leave v.node v.isBody v.below v.state)
      ((ρ.seeing seen').leave v'.node v'.isBody v'.below v'.state) := by
  unfold Context.leave
  rw [h.alike.kind_eq, h.isBody]
  cases hkind : v.node.kind
  case functionDefinition =>
    have hclosed := hs.closeScope
    exact ⟨.none, hclosed.scopes, rfl, hclosed.declared, hclosed.mentions⟩
  case functionBody => exact ⟨.none, hs.closeScope⟩
  case blockStatement => exact ⟨.none, hs.closeScope⟩
  case recordTypeDescriptor =>
    dsimp only
    cases hbody : v.isBody with
    | true => exact ⟨.none, hs⟩
    | false => exact declareRecord_matches h hbelow hresolved hs hkind hbody
  case recordField =>
    exact ⟨⟨.none, .none, writtenType?_matches hbelow (found_below h)⟩, hs⟩
  case requiredParameter => exact ⟨.none, declareParameter_matches h hbelow hs hkind⟩
  case variableDeclaration => exact ⟨.none, declareVariable_matches h hbelow hs hkind⟩
  case typeReference => exact bindType_matches h hseen hs hkind
  case simpleNameReference => exact bindName_matches h hseen hs hkind
  case qualifiedNameReference => exact bindQualifiedName_matches h hseen hs
  case functionCall => exact ⟨.ofValue (result_matches hbelow), hs⟩
  case fieldAccess => exact bindField_matches h hseen hbelow hs
  case bracedExpression => exact ⟨.ofValue (firstValue?_matches hbelow), hs⟩
  all_goals exact ⟨.none, hs⟩

end

end

mutual

/-- The walks of nodes that are alike go side by side. -/
theorem bindNode_matches (hseen : ρ.MatchesVisible seen seen')
    (hresolved : ρ.resolved → ∀ n ∈ ((ρ.seeing seen).bound ρ.before).records, ρ.Found seen n) :
    ∀ (n n' : Node) (isBody : Bool) (s s' : State),
    (∀ v ∈ visits (ρ.seeing seen) isBody n s, v ∈ unitVisits (ρ.seeing seen) ρ.before) →
    (∀ v ∈ visits (ρ.seeing seen') isBody n' s', v ∈ unitVisits (ρ.seeing seen') ρ.after) →
    n.Alike ρ.SameToken n' → ρ.MatchesState s s' →
    ρ.MatchesWalk (ρ.Found seen n) (bindNode (ρ.seeing seen) isBody n s)
      (bindNode (ρ.seeing seen') isBody n' s')
  | ⟨id, kind, full, ends, slots⟩, ⟨id', kind', full', ends', slots'⟩, isBody, s, s', hvisits,
      hvisits', halike, hs => by
    have hpaired : ρ.Paired seen seen' _ _ :=
      ⟨hvisits _ List.mem_cons_self, hvisits' _ List.mem_cons_self, halike, rfl⟩
    have henter := enter_matches hpaired hs
    obtain rfl : kind' = kind := halike.2.1
    obtain ⟨hbelow, hstate⟩ := bindSlots_matches hseen hresolved slots slots'
      (kind' == .typeDefinition) _ _ (fun v hv => hvisits v (List.mem_cons_of_mem _ hv))
      (fun v hv => hvisits' v (List.mem_cons_of_mem _ hv)) halike.2.2 henter
    exact leave_matches hpaired hseen hresolved hbelow hstate

/-- The walks of slots that are alike go side by side. -/
theorem bindSlots_matches (hseen : ρ.MatchesVisible seen seen')
    (hresolved : ρ.resolved → ∀ n ∈ ((ρ.seeing seen).bound ρ.before).records, ρ.Found seen n) :
    ∀ (slots slots' : List Child) (inType : Bool) (s s' : State),
    (∀ v ∈ visitsIn (ρ.seeing seen) inType slots s, v ∈ unitVisits (ρ.seeing seen) ρ.before) →
    (∀ v ∈ visitsIn (ρ.seeing seen') inType slots' s',
      v ∈ unitVisits (ρ.seeing seen') ρ.after) →
    Node.slotsAlike ρ.SameToken slots slots' → ρ.MatchesState s s' →
    List.Forall₂ (ρ.MatchesBelow seen) (bindSlots (ρ.seeing seen) inType slots s).1
        (bindSlots (ρ.seeing seen') inType slots' s').1 ∧
      ρ.MatchesState (bindSlots (ρ.seeing seen) inType slots s).2
        (bindSlots (ρ.seeing seen') inType slots' s').2
  | [], [], _, _, _, _, _, _, hs => ⟨.nil, hs⟩
  | .node n :: rest, .node n' :: rest', inType, s, s', hvisits, hvisits', halike, hs => by
    have hfirst := bindNode_matches hseen hresolved n n' inType s s'
      (fun v hv => hvisits v (List.mem_append_left _ hv))
      (fun v hv => hvisits' v (List.mem_append_left _ hv)) halike.1 hs
    obtain ⟨hothers, hstate⟩ := bindSlots_matches hseen hresolved rest rest' inType _ _
      (fun v hv => hvisits v (List.mem_append_right _ hv))
      (fun v hv => hvisits' v (List.mem_append_right _ hv)) halike.2 hfirst.state
    exact ⟨.cons ⟨halike.1, hfirst.meaning⟩ hothers, hstate⟩
  | .token _ :: rest, .token _ :: rest', inType, s, s', hvisits, hvisits', halike, hs =>
    bindSlots_matches hseen hresolved rest rest' inType s s' hvisits hvisits' halike.2 hs
  | .missing :: rest, .missing :: rest', inType, s, s', hvisits, hvisits', halike, hs =>
    bindSlots_matches hseen hresolved rest rest' inType s s' hvisits hvisits' halike hs

end

/-- **Both texts mention symbols that match,** at the same nodes and in the same order. -/
theorem bindTree_matches (hseen : ρ.MatchesVisible seen seen')
    (hresolved : ρ.resolved → ∀ n ∈ ((ρ.seeing seen).bound ρ.before).records, ρ.Found seen n) :
    List.Forall₂ ρ.MatchesMention (bindTree (ρ.seeing seen) (.ofSource ρ.before))
      (bindTree (ρ.seeing seen') (.ofSource ρ.after)) :=
  List.rel_reverse (bindNode_matches hseen hresolved _ _ false .start .start (fun _ hv => hv)
    (fun _ hv => hv) ρ.alike .start).state.mentions

end Comparison

end Xref.Binding
