import Xref.Proofs.Binding.Arising
import Xref.Proofs.Binding.Renaming
import Xref.Proofs.Syntax.Reformatting

/-!
# What the compilations of two formats see

Two texts of the same words are compiled as one unit. A symbol of one is matched with a symbol of the
other that has the same name, kind and owner and is at the same path, up to the offsets at which
records are written (`Comparison.Matches`). Names that are looked up in declarations that match mean
symbols that match.
-/

namespace Xref.Binding

/-- Two texts of the same words that are compiled as one unit, and paths at which there may be symbols
with one text and with the other. -/
structure Comparison extends Reformat where
  module : ModuleId
  unit : String
  paths : List SymbolPath
  paths' : List SymbolPath
  covers : unitPaths module unit (.ofSource before) ⊆ paths
  covers' : unitPaths module unit (.ofSource after) ⊆ paths'
  /-- Whether records have the same shapes. -/
  resolved : Prop

namespace Comparison

variable (ρ : Comparison)

/-- Whether symbols are at the same path, up to the offset of a record, and of one kind and shape. -/
structure Matches (s s' : Symbol) : Prop where
  kind : s'.kind = s.kind
  shape : ρ.resolved → s'.shape = s.shape
  path : ∃ p ∈ ρ.paths, ∃ p' ∈ ρ.paths', p.Moves ρ.Starts p' ∧ s.At p ∧ s'.At p'

structure MatchesField (f f' : Field) : Prop where
  node : f'.node = f.node
  name : f'.name = f.name
  symbol : ρ.Matches f.symbol f'.symbol
  type : f'.type = f.type

structure MatchesItem (item item' : Item) : Prop where
  name : item'.name = item.name
  symbol : ρ.Matches item.symbol item'.symbol
  type : item'.type = item.type
  fields : List.Forall₂ ρ.MatchesField item.fields item'.fields

structure MatchesScope (S S' : ModuleScope) : Prop where
  module : S'.module = S.module
  items : List.Forall₂ ρ.MatchesItem S.items S'.items

structure MatchesVisible (v v' : Visible) : Prop where
  own : ρ.MatchesScope v.own v'.own
  imports : List.Forall₂ ρ.MatchesScope v.imports v'.imports

/-- Whether types are of one name, or have fields that match, in order. -/
inductive MatchesType : RecordType → RecordType → Prop
  | named (m : ModuleId) (x : String) : MatchesType (.named m x) (.named m x)
  | written {fields fields' : List (Symbol × Option RecordType)} :
    List.Forall₂ ρ.Matches (fields.map Prod.fst) (fields'.map Prod.fst) →
    List.Forall₂ (Option.Rel MatchesType) (fields.map Prod.snd) (fields'.map Prod.snd) →
    MatchesType (.written fields) (.written fields')

/-- Whether fields of values, or what types mean, match. -/
abbrev MatchesTyped (f f' : Symbol × Option RecordType) : Prop :=
  ρ.Matches f.1 f'.1 ∧ Option.Rel ρ.MatchesType f.2 f'.2

variable {ρ} {s s' : Symbol} {S S' T T' : ModuleScope} {v v' : Visible} {x : String}

namespace Matches

theorem name (h : ρ.Matches s s') : s'.name = s.name := by
  obtain ⟨p, -, p', -, hmoves, hs, hs'⟩ := h.path
  rw [hs.name, hs'.name, hmoves.lastName_eq]

theorem owner (h : ρ.Matches s s') : s'.owner = s.owner := by
  obtain ⟨p, -, p', -, hmoves, hs, hs'⟩ := h.path
  rw [hs.owner, hs'.owner, hmoves.owner_eq]

/-- What is at a path that is not on a record matches itself. -/
theorem refl {p : SymbolPath} (hs : s.At p) (hp : p ∈ ρ.paths) (hp' : p ∈ ρ.paths')
    (hrecord : p.isOnRecord = false) : ρ.Matches s s :=
  ⟨rfl, fun _ => rfl, p, hp, p, hp', .other hrecord, hs, hs⟩

end Matches

/-- Symbols that are declared at paths that match. -/
theorem declaredSymbol_matches {p p' : SymbolPath} {t t' : Token} {kind : SymbolKind}
    {m : ModuleId} {u detail detail' : String} (hp : p ∈ ρ.paths) (hp' : p' ∈ ρ.paths')
    (hmoves : p.Moves ρ.Starts p') (ht : ρ.SameToken t t') (hname : p.lastName = t.text)
    (howner : p.owner = m) (hdeclared : p.isDeclared) :
    ρ.Matches (declaredSymbol p t kind m u detail) (declaredSymbol p' t' kind m u detail') := by
  refine ⟨rfl, fun _ => rfl, p, hp, p', hp', hmoves, declaredSymbol_at hname howner hdeclared, ?_⟩
  refine declaredSymbol_at ?_ (hmoves.owner_eq.trans howner) ?_
  · rw [hmoves.lastName_eq, hname, ht.text]
  · rwa [hmoves.isDeclared_eq]

theorem matchesType_written {fields fields' : List (Symbol × Option RecordType)} :
    ρ.MatchesType (.written fields) (.written fields') ↔
      List.Forall₂ ρ.MatchesTyped fields fields' := by
  constructor
  · intro h
    cases h with
    | written hsymbols htypes =>
      rw [List.forall₂_map_left_iff, List.forall₂_map_right_iff, List.forall₂_iff_zip]
        at hsymbols htypes
      exact List.forall₂_iff_zip.2 ⟨hsymbols.1, fun hmem => ⟨hsymbols.2 hmem, htypes.2 hmem⟩⟩
  · intro h
    refine .written ?_ ?_
    · rw [List.forall₂_map_left_iff, List.forall₂_map_right_iff]
      exact h.imp fun _ _ hf => hf.1
    · rw [List.forall₂_map_left_iff, List.forall₂_map_right_iff]
      exact h.imp fun _ _ hf => hf.2

/-! ## Declarations by name -/

theorem MatchesScope.get?_matches (h : ρ.MatchesScope S S') (x : String) :
    Option.Rel ρ.MatchesItem (S.get? x) (S'.get? x) :=
  find?_rel h.items fun _ _ hitem => by rw [hitem.symbol.name]

theorem MatchesScope.type?_matches (h : ρ.MatchesScope S S') (x : String) :
    Option.Rel ρ.MatchesItem (S.type? x) (S'.type? x) := by
  have hget := h.get?_matches x
  rw [ModuleScope.type?, ModuleScope.type?]
  generalize S.get? x = o at hget
  generalize S'.get? x = o' at hget
  cases hget with
  | none => exact .none
  | some hitem =>
    rw [Option.filter_some, Option.filter_some, hitem.symbol.kind]
    split
    · exact .some hitem
    · exact .none

theorem MatchesVisible.imported?_matches (h : ρ.MatchesVisible v v') (q : String) :
    Option.Rel ρ.MatchesScope (v.imported? q) (v'.imported? q) :=
  find?_rel h.imports fun _ _ hscope => by rw [hscope.module]

theorem MatchesVisible.scope?_matches (h : ρ.MatchesVisible v v') (m : ModuleId) :
    Option.Rel ρ.MatchesScope (v.scope? m) (v'.scope? m) := by
  rw [Visible.scope?, Visible.scope?, h.own.module]
  split
  · exact .some h.own
  · exact find?_rel h.imports fun _ _ hscope => by rw [hscope.module]

/-! ## Types by name -/

section
variable (h : ρ.MatchesVisible v v') (hS : ρ.MatchesScope S S')
include h hS

theorem recordType?_matches (t : Option TypeName) :
    Option.Rel ρ.MatchesType (v.recordType? S t) (v'.recordType? S' t) := by
  cases t with
  | none => exact .none
  | some t =>
    rw [Change.recordType?_eq, Change.recordType?_eq]
    have htarget : Option.Rel ρ.MatchesScope (t.qualifier.elim (some S) v.imported?)
        (t.qualifier.elim (some S') v'.imported?) := by
      cases t.qualifier with
      | none => exact .some hS
      | some q => exact h.imported?_matches q
    refine bind_rel htarget fun T T' hT => ?_
    have htype := hT.type?_matches t.name
    rw [hT.module]
    generalize T.type? t.name = o at htype
    generalize T'.type? t.name = o' at htype
    cases htype with
    | none => exact .none
    | some _ => exact .some (.named _ _)

/-- What a type name means, if what the language provides matches itself. -/
theorem resolve?_matches {t : TypeName}
    (hbuiltin : ∀ symbol, builtin? t.name = some symbol → ρ.Matches symbol symbol) :
    Option.Rel ρ.MatchesTyped (v.resolve? S t) (v'.resolve? S' t) := by
  unfold Visible.resolve?
  cases t.qualifier with
  | some q =>
    refine bind_rel (h.imported?_matches q) fun T T' hT => ?_
    have htype := hT.type?_matches t.name
    rw [hT.module]
    generalize T.type? t.name = o at htype
    generalize T'.type? t.name = o' at htype
    cases htype with
    | none => exact .none
    | some hitem => exact .some ⟨hitem.symbol, .some (.named _ _)⟩
  | none =>
    dsimp only
    have htype := hS.type?_matches t.name
    rw [hS.module]
    generalize S.type? t.name = o at htype
    generalize S'.type? t.name = o' at htype
    cases htype with
    | some hitem => exact .some ⟨hitem.symbol, .some (.named _ _)⟩
    | none =>
      dsimp only
      split
      · cases hsymbol : builtin? t.name with
        | none => exact .none
        | some symbol => exact .some ⟨hbuiltin symbol hsymbol, .none⟩
      · exact .none

omit hS

/-- Declared types are followed to records with fields that match. -/
theorem fieldsWithin_matches (k : Nat) (m : ModuleId) (x : String) :
    Option.Rel (fun found found' => ρ.MatchesScope found.1 found'.1 ∧
        List.Forall₂ ρ.MatchesField found.2 found'.2)
      (v.fieldsWithin k m x) (v'.fieldsWithin k m x) := by
  induction k generalizing m x with
  | zero => exact .none
  | succ k ih =>
    rw [Visible.fieldsWithin, Visible.fieldsWithin]
    refine bind_rel (h.scope?_matches m) fun T T' hT => ?_
    refine bind_rel (hT.type?_matches x) fun item item' hitem => ?_
    have hempty : item'.fields ≠ [] ↔ item.fields ≠ [] := by
      rw [← List.length_pos_iff, ← List.length_pos_iff, hitem.fields.length_eq]
    by_cases hfields : item.fields ≠ []
    · rw [if_pos hfields, if_pos (hempty.2 hfields)]
      exact .some ⟨hT, hitem.fields⟩
    · rw [if_neg hfields, if_neg (mt hempty.1 hfields), hitem.type]
      have htype := recordType?_matches h hT item.type
      generalize v.recordType? T item.type = o at htype
      generalize v'.recordType? T' item.type = o' at htype
      cases htype with
      | none => exact .none
      | some htype =>
        cases htype with
        | named m x => exact ih m x
        | written => exact .none

/-- **A field is found where it was found.** -/
theorem field?_matches {t t' : RecordType} (ht : ρ.MatchesType t t') (x : String) :
    Option.Rel ρ.MatchesTyped (v.field? t x) (v'.field? t' x) := by
  cases ht with
  | written hsymbols htypes =>
    exact find?_rel (matchesType_written.1 (.written hsymbols htypes)) fun _ _ hf => by
      rw [hf.1.name]
  | named m y =>
    refine bind_rel (fieldsWithin_matches h aliasLimit m y) fun found found' hfound => ?_
    have hfield := find?_rel (p := fun field => field.symbol.name == x)
      (q := fun field => field.symbol.name == x) hfound.2 fun _ _ hf => by rw [hf.symbol.name]
    generalize found.2.find? _ = o at hfield
    generalize found'.2.find? _ = o' at hfield
    cases hfield with
    | none => exact .none
    | some hf =>
      refine .some ⟨hf.symbol, ?_⟩
      dsimp only
      rw [hf.type]
      exact recordType?_matches h hfound.1 _

end

/-! ## Declarations in trees -/

section
variable {n n' : Node} (halike : n.Alike ρ.SameToken n')
include halike

theorem identifier_same (i : Nat) :
    Option.Rel ρ.SameToken (n.identifierAt? i) (n'.identifierAt? i) :=
  halike.identifierAt? (fun _ _ h => h.kind) i

/-- A type name is written in the same way. -/
theorem ofNode?_eq : TypeName.ofNode? n = TypeName.ofNode? n' := by
  have hidentifiers := halike.identifiers fun _ _ h => h.kind
  unfold TypeName.ofNode?
  rw [halike.kind_eq]
  generalize n.childTokens.filter (·.kind.isIdentifier) = l at hidentifiers
  generalize n'.childTokens.filter (·.kind.isIdentifier) = l' at hidentifiers
  split
  · cases hidentifiers with
    | nil => rfl
    | cons ht hl =>
      cases hl with
      | nil =>
        dsimp only
        rw [ht.text]
      | cons hname hl =>
        cases hl with
        | nil =>
          dsimp only
          rw [ht.text, hname.text]
        | cons => rfl
  · rfl

theorem below?_eq : TypeName.below? n = TypeName.below? n' :=
  rel_eq_iff.1 (findSome?_rel halike.children fun _ _ hn => rel_eq_iff.2 (ofNode?_eq hn))

theorem itemType?_eq : itemType? n = itemType? n' := by
  unfold itemType?
  rw [halike.kind_eq]
  split
  · have hreturn := find?_rel (p := fun child => child.kind == .returnTypeDescriptor)
      (q := fun child => child.kind == .returnTypeDescriptor) halike.children
      fun _ _ hn => by rw [hn.kind_eq]
    exact rel_eq_iff.1 (bind_rel hreturn fun _ _ hn => rel_eq_iff.2 (below?_eq hn))
  · exact rel_eq_iff.1 (bind_rel (head?_rel halike.children) fun _ _ hn =>
      rel_eq_iff.2 (ofNode?_eq hn))
  · exact below?_eq halike

variable {m : ModuleId} {u : String}

theorem fieldPaths_eq (owner : SymbolPath) : fieldPaths owner n' = fieldPaths owner n := by
  refine filterMap_eq_of_forall₂ halike.children fun c c' hc => ?_
  rcases rel_cases (identifier_same hc 0) with ⟨ht, ht'⟩ | ⟨t, t', ht, ht', hsame⟩
  · rw [ht, ht']
  · rw [ht, ht', Option.map_some, Option.map_some, hsame.text]

/-- A declaration introduces the same paths. -/
theorem itemPaths_eq : itemPaths m n' = itemPaths m n := by
  unfold itemPaths
  rw [halike.kind_eq]
  cases declaredKind? n.kind with
  | none => rfl
  | some kind =>
    rcases rel_cases (identifier_same halike 1) with ⟨ht, ht'⟩ | ⟨t, t', ht, ht', hsame⟩
    · rw [ht, ht']
    · rcases rel_cases (head?_rel halike.children) with ⟨hb, hb'⟩ | ⟨body, body', hb, hb', hbody⟩
      · rw [ht, ht', hb, hb']
        dsimp only
        rw [hsame.text]
      · rw [ht, ht', hb, hb']
        dsimp only
        rw [hsame.text]
        by_cases htype : n.kind = .typeDefinition
        · rw [htype]
          dsimp only
          rw [hbody.kind_eq, fieldPaths_eq hbody]
        · split
          · exact absurd ‹_› htype
          · split
            · exact absurd ‹_› htype
            · rfl

theorem fieldOf?_matches {path : SymbolPath} (hrecord : path.isOnRecord = false)
    (howner : path.owner = m)
    (hpaths : ∀ t ∈ n.identifierAt? 0, .field path t.text ∈ ρ.paths ∧ .field path t.text ∈ ρ.paths') :
    Option.Rel ρ.MatchesField (fieldOf? m u path n) (fieldOf? m u path n') := by
  unfold fieldOf?
  rcases rel_cases (identifier_same halike 0) with ⟨ht, ht'⟩ | ⟨t, t', ht, ht', hsame⟩
  · rw [ht, ht']
    exact .none
  · obtain ⟨hp, hp'⟩ := hpaths t ht
    rw [ht, ht', Option.map_some, Option.map_some, hsame.text]
    refine .some ⟨halike.id_eq, hsame.id, ?_, (below?_eq halike).symm⟩
    exact declaredSymbol_matches hp hp' (.other hrecord) hsame rfl howner rfl

theorem itemFields_matches {path : SymbolPath} (hrecord : path.isOnRecord = false)
    (howner : path.owner = m) (hpaths : n.kind = .typeDefinition → ∀ body,
      n.children.head? = some body → body.kind = .recordTypeDescriptor → ∀ c ∈ body.children,
        ∀ t ∈ c.identifierAt? 0, .field path t.text ∈ ρ.paths ∧ .field path t.text ∈ ρ.paths') :
    List.Forall₂ ρ.MatchesField (itemFields m u path n) (itemFields m u path n') := by
  rw [itemFields_eq, itemFields_eq, halike.kind_eq]
  by_cases hkind : n.kind = .typeDefinition
  · rw [if_pos hkind, if_pos hkind]
    rcases rel_cases (head?_rel halike.children) with ⟨hb, hb'⟩ | ⟨body, body', hb, hb', hbody⟩
    · rw [hb, hb']
      exact .nil
    · rw [hb, hb', Option.elim_some, Option.elim_some, hbody.kind_eq]
      split
      · rename_i hrecordKind
        refine List.rel_filterMap (fun c c' hc => ?_) (forall₂_mem hbody.children)
        exact fieldOf?_matches hc.2.2 hrecord howner (hpaths hkind body hb hrecordKind c hc.1)
      · exact .nil
  · rw [if_neg hkind, if_neg hkind]
    exact .nil

/-- **A declaration in the one tree matches that in the other,** with its fields. -/
theorem itemOf?_matches (hpaths : itemPaths m n ⊆ ρ.paths) (hpaths' : itemPaths m n' ⊆ ρ.paths') :
    Option.Rel ρ.MatchesItem (itemOf? m u n) (itemOf? m u n') := by
  rw [itemPaths_eq halike] at hpaths'
  unfold itemOf?
  rw [halike.kind_eq]
  cases hkind : declaredKind? n.kind with
  | none => exact .none
  | some kind =>
    rcases rel_cases (identifier_same halike 1) with ⟨ht, ht'⟩ | ⟨t, t', ht, ht', hsame⟩
    · rw [ht, ht']
      exact .none
    · rw [ht, ht']
      dsimp only
      have hitem := item_mem_itemPaths (m := m) hkind ht
      rw [hsame.text]
      refine .some ⟨hsame.id, ?_, (itemType?_eq halike).symm, ?_⟩
      · exact declaredSymbol_matches (hpaths hitem) (hpaths' hitem) (.other rfl) hsame rfl rfl rfl
      · refine itemFields_matches halike rfl rfl fun htype body hbody hrecord c hc k hk => ?_
        have hfield := field_mem_itemPaths (m := m) ht htype hbody hrecord hc hk
        exact ⟨hpaths hfield, hpaths' hfield⟩

end

end Comparison

end Xref.Binding
