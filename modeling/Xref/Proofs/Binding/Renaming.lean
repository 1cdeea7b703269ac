import Xref.Proofs.Binding.Mentions
import Xref.Proofs.Syntax.Likeness

/-!
# Scopes and types before and after a change of name

A change gives the symbol at one path a new name. Symbols, type names, items and record types before
and after it are related (`Change.Renames` and the relations named after it). A name that is looked
up after the change, in its new form if it means the symbol, means what it meant before
(`find?_renames`). There is one exception: a type name with a qualifier may stand in a unit that does
not import the module, where nothing takes it for the name of the type. Such a name keeps its form
and means nothing any more to the units that do import the module, so types can be lost where the
symbol is an item (`Change.Keeps`).
-/

namespace Xref.Binding

/-- A change of the name of the symbol at a path. -/
structure Change where
  path : SymbolPath
  new : String
  /-- Where a record written in place stands after the change, by its module, unit and offset. -/
  moved : ModuleId → String → Nat → Nat

namespace Change

/-- The identity of the symbol before the change. -/
def target (ρ : Change) : SymbolId := .ofPath ρ.path

/-- The name of the symbol before the change. -/
def old (ρ : Change) : String := ρ.path.lastName

/-- The path of the symbol after the change. The number of a variable counts those of its name, and
nothing had the new name before. -/
def newPath (ρ : Change) : SymbolPath :=
  match ρ.path with
  | .item m _ => .item m ρ.new
  | .field (.record m u offset) _ => .field (.record m u (ρ.moved m u offset)) ρ.new
  | .field owner _ => .field owner ρ.new
  | .parameter m u f _ => .parameter m u f ρ.new
  | .localVar m u f _ _ => .localVar m u f ρ.new 1
  | p => p

/-- Whether the symbol is declared at the top of a module. -/
def IsOfItem (ρ : Change) : Prop := ∃ m x, ρ.path = .item m x

/-- Whether a symbol, if it is the one that gets the new name, is no item. -/
def IsMember (ρ : Change) (s : Symbol) : Prop := s.id = ρ.target → ¬ ρ.IsOfItem

/-- Whether one symbol is another before the change, as far as requests tell. -/
structure Renames (ρ : Change) (s s' : Symbol) : Prop where
  fresh : s.name ≠ ρ.new
  kind : s'.kind = s.kind
  owner : s'.owner = s.owner
  declaration : s'.declaration.isSome = s.declaration.isSome
  target : s.id = ρ.target → s.name = ρ.old ∧ s'.name = ρ.new ∧ s'.id = .ofPath ρ.newPath
  other : s.id ≠ ρ.target → s'.name = s.name

variable {ρ : Change} {s s' : Symbol} {x : String}

theorem builtin?_declaration (h : builtin? x = some s) : s.declaration = none := by
  have hdeclaration : s.declaration.isSome = false := (builtin?_at h).1.declaration
  simpa using hdeclaration

theorem Renames.refl (hfresh : s.name ≠ ρ.new) (hid : s.id ≠ ρ.target) : ρ.Renames s s :=
  ⟨hfresh, rfl, rfl, rfl, fun h => absurd h hid, fun _ => rfl⟩

end Change

/-! ## Lookups by name -/

section
variable {ρ : Change} {α β : Type} {f : α → Symbol} {f' : β → Symbol} {R : α → β → Prop}
  {l : List α} {l' : List β} {x : String} (hR : ∀ a b, R a b → ρ.Renames (f a) (f' b))
  (h : List.Forall₂ R l l') (hx : x ≠ ρ.new)

include hR h hx

/-- **A name means what it meant,** if it has the new form exactly where it means the symbol that the
change is about. -/
theorem find?_renames {b : Bool} (hb : b → x = ρ.old)
    (hfound : ∀ a, (l.find? fun a => (f a).name == x) = some a → (b ↔ (f a).id = ρ.target)) :
    Option.Rel R (l.find? fun a => (f a).name == x)
      (l'.find? fun a => (f' a).name == if b then ρ.new else x) := by
  induction h with
  | nil => exact .none
  | @cons a a' l l' ha _ ih =>
    have hrenames := hR a a' ha
    by_cases hname : (f a).name = x
    · have hiff := hfound a (by rw [List.find?_cons_of_pos (by simpa using hname)])
      have hname' : (f' a').name = if b then ρ.new else x := by
        by_cases hid : (f a).id = ρ.target
        · rw [if_pos (hiff.2 hid), (hrenames.target hid).2.1]
        · rw [if_neg fun h => hid (hiff.1 h), hrenames.other hid, hname]
      rw [List.find?_cons_of_pos (by simpa using hname),
        List.find?_cons_of_pos (by simpa using hname')]
      exact .some ha
    · have hname' : (f' a').name ≠ if b then ρ.new else x := by
        by_cases hid : (f a).id = ρ.target
        · obtain ⟨hold, hnew, -⟩ := hrenames.target hid
          rw [if_neg fun h => hname (hold.trans (hb h).symm), hnew]
          exact hx.symm
        · rw [hrenames.other hid]
          split
          · exact hrenames.fresh
          · exact hname
      rw [List.find?_cons_of_neg (by simpa using hname),
        List.find?_cons_of_neg (by simpa using hname')]
      refine ih fun a ha => hfound a ?_
      rwa [List.find?_cons_of_neg (by simpa using hname)]

/-- A name that keeps the form in which it meant the symbol means nothing any more. -/
theorem find?_stale (hids : ∀ a ∈ l, (f a).name = x → (f a).id = ρ.target) :
    (l'.find? fun a => (f' a).name == x) = none := by
  rw [List.find?_eq_none]
  intro a' ha' hname
  obtain ⟨a, ha, haa'⟩ := exists_left_of_forall₂ h ha'
  have hrenames := hR a a' haa'
  have hname : (f' a').name = x := by simpa using hname
  by_cases hid : (f a).id = ρ.target
  · exact hx (hname.symm.trans (hrenames.target hid).2.1)
  · exact hid (hids a ha ((hrenames.other hid).symm.trans hname))

end

/-! ## Scopes and types -/

namespace Change

variable (ρ : Change) (scope : ModuleId → ModuleScope)

/-- Whether a name means in a scope the type that the change is about. -/
def Targets (S : ModuleScope) (x : String) : Prop :=
  ∃ item, S.type? x = some item ∧ item.symbol.id = ρ.target

/-- Whether a type name written in a module has the other form after the change. A name with a
qualifier may keep its form although it means the type. -/
structure RenamesName (m : ModuleId) (t t' : TypeName) : Prop where
  qualifier : t'.qualifier = t.qualifier
  fresh : t.name ≠ ρ.new
  name : ∃ b : Bool, t'.name = (if b then ρ.new else t.name) ∧
    (b → ρ.Targets (scope (t.qualifier.elim m ModuleId.mk)) t.name) ∧
    (t.qualifier = none → ρ.Targets (scope m) t.name → b)

structure RenamesField (m : ModuleId) (f f' : Field) : Prop where
  node : f'.node = f.node
  name : f'.name = f.name
  symbol : ρ.Renames f.symbol f'.symbol
  member : ρ.IsMember f.symbol
  type : Option.Rel (ρ.RenamesName scope m) f.type f'.type

structure RenamesItem (m : ModuleId) (item item' : Item) : Prop where
  name : item'.name = item.name
  symbol : ρ.Renames item.symbol item'.symbol
  ofItem : item.symbol.id = ρ.target → ρ.IsOfItem
  type : Option.Rel (ρ.RenamesName scope m) item.type item'.type
  fields : List.Forall₂ (ρ.RenamesField scope m) item.fields item'.fields

/-- Whether a module has the other declarations after the change. Of one name they are of one
identity. -/
structure RenamesScope (m : ModuleId) (S S' : ModuleScope) : Prop where
  module : S.module = m
  module' : S'.module = m
  items : List.Forall₂ (ρ.RenamesItem scope m) S.items S'.items
  ids : ∀ item ∈ S.items, ∀ item' ∈ S.items, item.symbol.name = item'.symbol.name →
    item.symbol.id = item'.symbol.id

/-- Whether something is there after the change if it was before, unless the symbol is an item, and
is related to what it was. -/
structure Keeps {α β : Type} (R : α → β → Prop) (o : Option α) (o' : Option β) : Prop where
  back : o'.isSome → o.isSome
  kept : o.isSome → ρ.IsOfItem ∨ o'.isSome
  rel : ∀ a b, o = some a → o' = some b → R a b

/-- Whether a record type has the other form after the change. -/
inductive RenamesType : RecordType → RecordType → Prop
  | named {m : ModuleId} {x : String} {b : Bool} (hx : x ≠ ρ.new)
    (hb : b ↔ ρ.Targets (scope m) x) :
    RenamesType (.named m x) (.named m (if b then ρ.new else x))
  | written {fields fields' : List (Symbol × Option RecordType)} :
    List.Forall₂ (fun f f' => ρ.Renames f.1 f'.1 ∧ ρ.IsMember f.1 ∧ GoodType ρ.IsMember f.2 ∧
      (f'.2.isSome → f.2.isSome) ∧ (f.2.isSome → ρ.IsOfItem ∨ f'.2.isSome)) fields fields' →
    (∀ p ∈ fields.zip fields', ∀ t t', p.1.2 = some t → p.2.2 = some t' → RenamesType t t') →
    RenamesType (.written fields) (.written fields')

/-- Whether a type is kept as far as there is one, and no field in it is an item. -/
structure KeepsType (t t' : Option RecordType) : Prop where
  keeps : ρ.Keeps (ρ.RenamesType scope) t t'
  members : GoodType ρ.IsMember t

/-- Whether a field of a value has the other form after the change. -/
structure RenamesMember (f f' : Symbol × Option RecordType) : Prop where
  symbol : ρ.Renames f.1 f'.1
  member : ρ.IsMember f.1
  type : ρ.KeepsType scope f.2 f'.2

variable {ρ scope}

namespace Keeps

variable {α β : Type} {R : α → β → Prop} {a : α} {b : β}

theorem none : ρ.Keeps R (Option.none : Option α) (Option.none : Option β) :=
  ⟨id, (fun h => nomatch h), fun _ _ h => nomatch h⟩

theorem some (h : R a b) : ρ.Keeps R (Option.some a) (Option.some b) :=
  ⟨fun _ => rfl, fun _ => .inr rfl, fun _ _ ha hb => Option.some.inj ha ▸ Option.some.inj hb ▸ h⟩

theorem lost {o : Option α} (h : ρ.IsOfItem) : ρ.Keeps R o (Option.none : Option β) :=
  ⟨(fun h => nomatch h), fun _ => .inl h, fun _ _ _ h => nomatch h⟩

theorem of_rel {o : Option α} {o' : Option β} (h : Option.Rel R o o') : ρ.Keeps R o o' := by
  cases h with
  | none => exact .none
  | some h => exact .some h

/-- What is kept, what is lost and what was never there. -/
theorem cases {o : Option α} {o' : Option β} (h : ρ.Keeps R o o') :
    (o = Option.none ∧ o' = Option.none) ∨ (∃ a, o = Option.some a ∧ o' = Option.none ∧ ρ.IsOfItem) ∨
      ∃ a b, o = Option.some a ∧ o' = Option.some b ∧ R a b := by
  cases o with
  | none =>
    cases o' with
    | none => exact .inl ⟨rfl, rfl⟩
    | some b => exact nomatch h.back rfl
  | some a =>
    cases o' with
    | none => exact .inr (.inl ⟨a, rfl, rfl, (h.kept rfl).resolve_right nofun⟩)
    | some b => exact .inr (.inr ⟨a, b, rfl, rfl, h.rel a b rfl rfl⟩)

end Keeps

theorem renamesType_written {fields fields' : List (Symbol × Option RecordType)} :
    ρ.RenamesType scope (.written fields) (.written fields') ↔
      List.Forall₂ (ρ.RenamesMember scope) fields fields' := by
  constructor
  · intro h
    cases h with
    | written hfields htypes =>
      rw [List.forall₂_iff_zip] at hfields ⊢
      refine ⟨hfields.1, fun {f f'} hmem => ?_⟩
      obtain ⟨hsymbol, hmember, hgood, hback, hkept⟩ := hfields.2 hmem
      exact ⟨hsymbol, hmember,
        ⟨⟨hback, hkept, fun t t' ht ht' => htypes (f, f') hmem t t' ht ht'⟩, hgood⟩⟩
  · intro h
    rw [List.forall₂_iff_zip] at h
    refine .written ?_ fun p hp t t' ht ht' => (h.2 hp).type.keeps.rel t t' ht ht'
    rw [List.forall₂_iff_zip]
    refine ⟨h.1, fun {f f'} hmem => ?_⟩
    have hmember := h.2 hmem
    exact ⟨hmember.symbol, hmember.member, hmember.type.members, hmember.type.keeps.back,
      hmember.type.keeps.kept⟩

theorem RenamesType.members {t t' : RecordType} (h : ρ.RenamesType scope t t') :
    t.All ρ.IsMember := by
  cases h with
  | named => exact .named _ _
  | written hfields htypes =>
    have hall := renamesType_written.1 (.written hfields htypes)
    refine .written (fun f hf => ?_) fun f hf => ?_
    · obtain ⟨_, -, hmember⟩ := exists_right_of_forall₂ hall hf
      exact hmember.member
    · obtain ⟨_, -, hmember⟩ := exists_right_of_forall₂ hall hf
      exact hmember.type.members

namespace KeepsType

variable {t t' : Option RecordType}

theorem none : ρ.KeepsType scope Option.none Option.none := ⟨.none, .none⟩

theorem of_rel (h : Option.Rel (ρ.RenamesType scope) t t') : ρ.KeepsType scope t t' :=
  ⟨.of_rel h, fun r hr => by
    subst hr
    cases h with
    | some h => exact h.members⟩

end KeepsType

variable {m : ModuleId} {S S' : ModuleScope} {x : String} {b : Bool}

/-! ## Declarations of a module -/

theorem RenamesScope.get?_eq (h : ρ.RenamesScope scope m S S') (hx : x ≠ ρ.new) (hb : b → x = ρ.old)
    (hfound : ∀ item, S.get? x = some item → (b ↔ item.symbol.id = ρ.target)) :
    Option.Rel (ρ.RenamesItem scope m) (S.get? x) (S'.get? (if b then ρ.new else x)) :=
  find?_renames (fun _ _ h => h.symbol) h.items hx hb hfound

/-- A name that keeps the form in which it meant the symbol means no declaration. -/
theorem RenamesScope.get?_stale (h : ρ.RenamesScope scope m S S') (hx : x ≠ ρ.new) {item : Item}
    (hitem : S.get? x = some item) (hid : item.symbol.id = ρ.target) : S'.get? x = none := by
  obtain ⟨hmem, hname⟩ := mem_of_get? hitem
  refine find?_stale (fun _ _ h => h.symbol) h.items hx fun other hother hsame => ?_
  rw [h.ids other hother item hmem (hsame.trans hname.symm), hid]

theorem type?_eq_some {item : Item} (h : S.type? x = some item) :
    S.get? x = some item ∧ item.symbol.kind = .type := by
  rw [ModuleScope.type?, Option.filter_eq_some_iff] at h
  exact ⟨h.1, by simpa using h.2⟩

theorem RenamesItem.old_eq {item item' : Item} (h : ρ.RenamesItem scope m item item')
    (hid : item.symbol.id = ρ.target) : item.symbol.name = ρ.old := (h.symbol.target hid).1

theorem RenamesScope.old_of_targets (h : ρ.RenamesScope scope m S S') (ht : ρ.Targets S x) :
    x = ρ.old ∧ ρ.IsOfItem := by
  obtain ⟨item, hitem, hid⟩ := ht
  obtain ⟨hmem, hname⟩ := mem_of_get? (type?_eq_some hitem).1
  obtain ⟨item', -, hrel⟩ := exists_right_of_forall₂ h.items hmem
  exact ⟨hname.symm.trans (hrel.old_eq hid), hrel.ofItem hid⟩

theorem type?_rel {x' : String} (h : Option.Rel (ρ.RenamesItem scope m) (S.get? x) (S'.get? x')) :
    Option.Rel (ρ.RenamesItem scope m) (S.type? x) (S'.type? x') := by
  rw [ModuleScope.type?, ModuleScope.type?]
  generalize S.get? x = o at h
  generalize S'.get? x' = o' at h
  cases h with
  | none => exact .none
  | some hitem =>
    rw [Option.filter_some, Option.filter_some, hitem.symbol.kind]
    split
    · exact .some hitem
    · exact .none

/-- A type name means the type that it meant, if it has the new form exactly where it means the
symbol. -/
theorem RenamesScope.type?_eq (h : ρ.RenamesScope scope m S S') (hx : x ≠ ρ.new)
    (hb : b ↔ ρ.Targets S x) :
    Option.Rel (ρ.RenamesItem scope m) (S.type? x) (S'.type? (if b then ρ.new else x)) := by
  have hold : b → x = ρ.old := fun hb' => (h.old_of_targets (hb.1 hb')).1
  cases hitem : S.get? x with
  | none => exact type?_rel (h.get?_eq hx hold (by rw [hitem]; exact fun _ h => nomatch h))
  | some item =>
    have htarget : ρ.Targets S x ↔ item.symbol.kind = .type ∧ item.symbol.id = ρ.target := by
      constructor
      · rintro ⟨item', htype, hid⟩
        obtain ⟨hget, hkind⟩ := type?_eq_some htype
        obtain rfl := Option.some.inj (hitem.symm.trans hget)
        exact ⟨hkind, hid⟩
      · rintro ⟨hkind, hid⟩
        exact ⟨item, by rw [ModuleScope.type?, hitem]; simp [hkind], hid⟩
    by_cases hid : item.symbol.id = ρ.target ∧ item.symbol.kind ≠ .type
    · -- The name means the symbol, but the symbol is no type.
      have hfalse : b = false := by
        rw [Bool.eq_false_iff]
        exact fun hb' => hid.2 (htarget.1 (hb.1 hb')).1
      have hnone : S.type? x = none := by
        rw [ModuleScope.type?, hitem]
        simp [hid.2]
      rw [hfalse, if_neg Bool.false_ne_true, hnone, ModuleScope.type?, h.get?_stale hx hitem hid.1]
      exact .none
    · refine type?_rel (h.get?_eq hx hold fun item' hget => ?_)
      obtain rfl := Option.some.inj (hitem.symm.trans hget)
      rw [hb, htarget]
      exact ⟨fun h => h.2, fun h => ⟨by_contra fun hne => hid ⟨h, hne⟩, h⟩⟩

/-- A type name that keeps the form in which it meant the symbol means no type. -/
theorem RenamesScope.type?_stale (h : ρ.RenamesScope scope m S S') (hx : x ≠ ρ.new)
    (ht : ρ.Targets S x) : S'.type? x = none := by
  obtain ⟨item, htype, hid⟩ := ht
  rw [ModuleScope.type?, h.get?_stale hx (type?_eq_some htype).1 hid]
  rfl

/-! ## What a unit sees -/

/-- What a unit of a module sees that imports the given modules. -/
def seen (scope : ModuleId → ModuleScope) (m : ModuleId) (imports : List ModuleId) : Visible :=
  ⟨scope m, imports.map scope⟩

/-- What a unit of a module is bound in that imports the given modules. -/
abbrev contextSeeing (scope : ModuleId → ModuleScope) (m : ModuleId) (u : String)
    (imports : List ModuleId) : Context := ⟨m, u, seen scope m imports⟩

section
variable {imports : List ModuleId} {own : ModuleId}

theorem find?_module (hscope : ∀ m, (scope m).module = m) (p : ModuleId → Bool) :
    ((imports.map scope).find? fun S => p S.module) = (imports.find? p).map scope := by
  rw [List.find?_map]
  refine congrArg (Option.map scope) (congrArg (List.find? · imports) (funext fun m => ?_))
  rw [Function.comp_apply, hscope]

theorem imported?_seen (hscope : ∀ m, (scope m).module = m) (q : String) :
    (seen scope own imports).imported? q =
      (imports.find? fun m => m.name == q).map scope :=
  find?_module hscope fun m => m.name == q

theorem scope?_seen (hscope : ∀ m, (scope m).module = m) (k : ModuleId) :
    (seen scope own imports).scope? k =
      (if k = own then some own else imports.find? fun m => m == k).map scope := by
  rw [Visible.scope?, seen, hscope]
  split
  · rfl
  · exact find?_module hscope fun m => m == k

/-- The fields of a declared type are those of an item that is seen. -/
theorem fieldsWithin_eq_some {v : Visible} {k : Nat} {found : ModuleScope × List Field}
    (h : v.fieldsWithin k m x = some found) :
    (found.1 = v.own ∨ found.1 ∈ v.imports) ∧ ∃ item ∈ found.1.items, found.2 = item.fields := by
  induction k generalizing m x with
  | zero => cases h
  | succ k ih =>
    rw [Visible.fieldsWithin] at h
    obtain ⟨S, hS, h⟩ := Option.bind_eq_some_iff.1 h
    obtain ⟨item, hitem, h⟩ := Option.bind_eq_some_iff.1 h
    split at h
    · obtain rfl := Option.some.inj h
      refine ⟨?_, item, (mem_of_type? hitem).1, rfl⟩
      unfold Visible.scope? at hS
      split at hS
      · exact .inl (Option.some.inj hS).symm
      · exact .inr (List.mem_of_find?_eq_some hS)
    · split at h
      · exact ih h
      · cases h

/-- What a name means that a module declares as a type. -/
def declaredType? (S : ModuleScope) (x : String) : Option (Symbol × Option RecordType) :=
  (S.type? x).map fun item => (item.symbol, some (.named S.module x))

/-- What a name means that the language provides as a type. -/
def builtinType? (x : String) : Option (Symbol × Option RecordType) :=
  if builtinTypes.contains x then (builtin? x).map fun symbol => (symbol, none) else none

theorem builtinType?_eq_some {r : Symbol × Option RecordType} (h : builtinType? x = some r) :
    ∃ s, builtin? x = some s ∧ r = (s, Option.none) := by
  rw [builtinType?] at h
  split at h
  · obtain ⟨s, hs, rfl⟩ := Option.map_eq_some_iff.1 h
    exact ⟨s, hs, rfl⟩
  · cases h

theorem resolve?_qualified {v : Visible} {S : ModuleScope} {t : TypeName} {q : String}
    (hq : t.qualifier = some q) :
    v.resolve? S t = (v.imported? q).bind fun T => declaredType? T t.name := by
  rw [Visible.resolve?, hq]
  rfl

theorem resolve?_bare {v : Visible} {S : ModuleScope} {t : TypeName}
    (hq : t.qualifier = Option.none) :
    v.resolve? S t = (declaredType? S t.name).or (builtinType? t.name) := by
  rw [Visible.resolve?, hq, declaredType?]
  cases S.type? t.name <;> rfl

/-- The record type of a type name, whatever else the name means. -/
theorem recordType?_eq (v : Visible) (S : ModuleScope) (t : TypeName) :
    v.recordType? S (some t) = ((t.qualifier.elim (some S) v.imported?).bind fun T =>
      (T.type? t.name).map fun _ => .named T.module t.name) := by
  rw [Visible.recordType?, Option.bind_some, Visible.resolve?]
  cases hq : t.qualifier with
  | some q =>
    rw [Option.elim_some]
    dsimp only
    cases v.imported? q with
    | none => rfl
    | some T =>
      simp only [Option.bind_some]
      cases T.type? t.name <;> rfl
  | none =>
    rw [Option.elim_none, Option.bind_some]
    dsimp only
    cases S.type? t.name with
    | some item => rfl
    | none =>
      dsimp only
      split
      · cases builtin? t.name <;> rfl
      · rfl

end

/-! ## Types after a change -/

section
variable {scope' : ModuleId → ModuleScope} {imports : List ModuleId} {own : ModuleId}
  (hscope : ∀ m, ρ.RenamesScope scope m (scope m) (scope' m))

include hscope

/-- A type that is looked up by a name in its new form is found as it was. -/
theorem type?_named (m : ModuleId) (hx : x ≠ ρ.new) (hb : b ↔ ρ.Targets (scope m) x) :
    Option.Rel (ρ.RenamesType scope) (((scope m).type? x).map fun _ => .named (scope m).module x)
      (((scope' m).type? (if b then ρ.new else x)).map fun _ =>
        .named (scope' m).module (if b then ρ.new else x)) := by
  have hrel := (hscope m).type?_eq hx hb
  rw [(hscope m).module, (hscope m).module']
  generalize (scope m).type? x = o at hrel
  generalize (scope' m).type? (if b then ρ.new else x) = o' at hrel
  cases hrel with
  | none => exact .none
  | some _ => exact .some (.named hx hb)

theorem recordType?_keeps {t t' : Option TypeName} (h : Option.Rel (ρ.RenamesName scope m) t t') :
    ρ.KeepsType scope ((seen scope own imports).recordType? (scope m) t)
      ((seen scope' own imports).recordType? (scope' m) t') := by
  have hmodule : ∀ m, (scope m).module = m := fun m => (hscope m).module
  have hmodule' : ∀ m, (scope' m).module = m := fun m => (hscope m).module'
  cases h with
  | none => exact .none
  | @some t t' ht =>
    rw [recordType?_eq, recordType?_eq, ht.qualifier]
    obtain ⟨b, hname, hb, hown⟩ := ht.name
    rw [hname]
    cases hq : t.qualifier with
    | none =>
      rw [hq] at hb
      exact .of_rel (type?_named hscope m ht.fresh ⟨hb, hown hq⟩)
    | some q =>
      rw [hq] at hb
      rw [Option.elim_some, Option.elim_some, imported?_seen hmodule, imported?_seen hmodule']
      cases hfind : imports.find? fun m => m.name == q with
      | none => exact .none
      | some k =>
        obtain rfl : k = ⟨q⟩ := by
          have := List.find?_some hfind
          exact congrArg ModuleId.mk (by simpa using this)
        simp only [Option.map_some, Option.bind_some]
        by_cases hexact : b ↔ ρ.Targets (scope ⟨q⟩) t.name
        · exact .of_rel (type?_named hscope ⟨q⟩ ht.fresh hexact)
        · -- The name has kept its form although it meant the type.
          have htarget : ρ.Targets (scope ⟨q⟩) t.name :=
            by_contra fun h => hexact ⟨hb, fun h' => absurd h' h⟩
          have hfalse : b = false := by
            rw [Bool.eq_false_iff]
            exact fun h => hexact ⟨hb, fun _ => h⟩
          have hitem := ((hscope ⟨q⟩).old_of_targets htarget).2
          rw [hfalse, if_neg Bool.false_ne_true, (hscope ⟨q⟩).type?_stale ht.fresh htarget]
          obtain ⟨item, htype, -⟩ := htarget
          rw [htype]
          exact ⟨.lost hitem, .named _ _⟩

/-- Declared types are followed to the same record. -/
theorem fieldsWithin_keeps (k : Nat) (hx : x ≠ ρ.new) (hb : b ↔ ρ.Targets (scope m) x) :
    ρ.Keeps (fun found found' => ∃ m, found.1 = scope m ∧ found'.1 = scope' m ∧
        List.Forall₂ (ρ.RenamesField scope m) found.2 found'.2)
      ((seen scope own imports).fieldsWithin k m x)
      ((seen scope' own imports).fieldsWithin k m (if b then ρ.new else x)) := by
  have hmodule : ∀ m, (scope m).module = m := fun m => (hscope m).module
  have hmodule' : ∀ m, (scope' m).module = m := fun m => (hscope m).module'
  induction k generalizing m x b with
  | zero => exact .none
  | succ k ih =>
    rw [Visible.fieldsWithin, Visible.fieldsWithin, scope?_seen hmodule, scope?_seen hmodule']
    cases hfind : (if m = own then some own else imports.find? fun k => k == m) with
    | none => exact .none
    | some j =>
      obtain rfl : j = m := by
        split at hfind
        · exact (Option.some.inj hfind).symm.trans (Eq.symm ‹_›)
        · simpa using List.find?_some hfind
      simp only [Option.map_some, Option.bind_some]
      have hrel := (hscope j).type?_eq hx hb
      generalize (scope j).type? x = o at hrel
      generalize (scope' j).type? (if b then ρ.new else x) = o' at hrel
      cases hrel with
      | none => exact .none
      | @some item item' hitem =>
        simp only [Option.bind_some]
        have hempty : item'.fields ≠ [] ↔ item.fields ≠ [] := by
          rw [← List.length_pos_iff, ← List.length_pos_iff, hitem.fields.length_eq]
        by_cases hfields : item.fields ≠ []
        · rw [if_pos hfields, if_pos (hempty.2 hfields)]
          exact .some ⟨j, rfl, rfl, hitem.fields⟩
        · rw [if_neg hfields, if_neg (fun h => hfields (hempty.1 h))]
          have hkeeps : ρ.KeepsType scope ((seen scope own imports).recordType? _ _)
            ((seen scope' own imports).recordType? _ _) := recordType?_keeps hscope hitem.type
          rcases hkeeps.keeps.cases with
            ⟨ho, ho'⟩ | ⟨r, ho, ho', hlost⟩ | ⟨r, r', ho, ho', hr⟩
          · rw [ho, ho']
            exact .none
          · rw [ho']
            exact .lost hlost
          · rw [ho, ho']
            cases hr with
            | named hx hb => exact ih hx hb
            | written => exact .none

/-- **A field is found where it was found,** by its name in its new form. -/
theorem field?_keeps {t t' : RecordType} (ht : ρ.RenamesType scope t t') {y : String}
    (hy : y ≠ ρ.new) (hold : b → y = ρ.old)
    (hfound : ∀ f, (seen scope own imports).field? t y = some f → (b ↔ f.1.id = ρ.target)) :
    ρ.Keeps (ρ.RenamesMember scope) ((seen scope own imports).field? t y)
      ((seen scope' own imports).field? t' (if b then ρ.new else y)) := by
  cases t with
  | written fields =>
    cases ht with
    | written hfields htypes =>
      have hmembers := renamesType_written.1 (.written hfields htypes)
      exact .of_rel (find?_renames (fun _ _ h => h.symbol) hmembers hy hold hfound)
  | named m x =>
    cases ht with
    | @named m x b' hx hb =>
      rw [Visible.field?, Visible.field?, Visible.fields?, Visible.fields?]
      simp only [Visible.field?, Visible.fields?] at hfound
      have hkeeps : ρ.Keeps _ ((seen scope own imports).fieldsWithin _ m x)
        ((seen scope' own imports).fieldsWithin _ m _) := fieldsWithin_keeps hscope aliasLimit hx hb
      rcases hkeeps.cases with
        ⟨ho, ho'⟩ | ⟨found, ho, ho', hlost⟩ | ⟨found, found', ho, ho', j, hj, hj', hfields⟩
      · rw [ho, ho']
        exact .none
      · rw [ho']
        exact .lost hlost
      · rw [ho] at hfound
        rw [ho, ho']
        simp only [Option.bind_some] at hfound ⊢
        rw [hj, hj']
        refine .of_rel ?_
        have hname : ∀ field, (found.2.find? fun field => field.symbol.name == y) = some field →
            (b ↔ field.symbol.id = ρ.target) := fun field hfield =>
          hfound (field.symbol, _) (by rw [hfield]; rfl)
        have hsymbol : ∀ f f', ρ.RenamesField scope j f f' → ρ.Renames f.symbol f'.symbol :=
          fun _ _ h => h.symbol
        have hrel := find?_renames hsymbol hfields hy hold hname
        generalize (found.2.find? fun field => field.symbol.name == y) = o at hrel
        generalize (found'.2.find? fun field => field.symbol.name == if b then ρ.new else y) = o'
          at hrel
        cases hrel with
        | none => exact .none
        | some hfield =>
          exact .some ⟨hfield.symbol, hfield.member, recordType?_keeps hscope hfield.type⟩

/-- A field that is found is no item, and neither are the fields of its type. -/
theorem field?_members {t : RecordType} (ht : t.All ρ.IsMember) {y : String}
    {f : Symbol × Option RecordType} (h : (seen scope own imports).field? t y = some f) :
    ρ.IsMember f.1 ∧ GoodType ρ.IsMember f.2 := by
  cases ht with
  | written hsymbols htypes =>
    have hmem := List.mem_of_find?_eq_some h
    exact ⟨hsymbols _ hmem, htypes _ hmem⟩
  | named m x =>
    obtain ⟨found, hfound, h⟩ := Option.bind_eq_some_iff.1 h
    obtain ⟨field, hfield, rfl⟩ := Option.map_eq_some_iff.1 h
    obtain ⟨hseen, item, hitem, hfields⟩ := fieldsWithin_eq_some hfound
    obtain ⟨j, hj⟩ : ∃ j, found.1 = scope j := by
      rcases hseen with hown | himported
      · exact ⟨own, hown⟩
      · obtain ⟨j, -, hj⟩ := List.mem_map.1 himported
        exact ⟨j, hj.symm⟩
    rw [hj] at hitem
    obtain ⟨item', -, hrel⟩ := exists_right_of_forall₂ (hscope j).items hitem
    have hmem := List.mem_of_find?_eq_some hfield
    rw [hfields] at hmem
    obtain ⟨field', -, hfieldRel⟩ := exists_right_of_forall₂ hrel.fields hmem
    refine ⟨hfieldRel.member, ?_⟩
    rw [hj]
    exact (recordType?_keeps hscope hfieldRel.type).members

/-! ## Type names after a change -/

/-- Whether a type that is found is the one found before the change. -/
def RenamesFound (ρ : Change) (scope : ModuleId → ModuleScope)
    (r r' : Symbol × Option RecordType) : Prop :=
  ρ.Renames r.1 r'.1 ∧ Option.Rel (ρ.RenamesType scope) r.2 r'.2

omit hscope in
theorem targets_iff {S : ModuleScope} :
    ρ.Targets S x ↔ ∃ r, declaredType? S x = some r ∧ r.1.id = ρ.target := by
  constructor
  · rintro ⟨item, hitem, hid⟩
    exact ⟨_, by rw [declaredType?, hitem]; rfl, hid⟩
  · rintro ⟨r, hr, hid⟩
    obtain ⟨item, hitem, rfl⟩ := Option.map_eq_some_iff.1 hr
    exact ⟨item, hitem, hid⟩

/-- A declared type is found by its name in its new form. -/
theorem declaredType?_renames (m : ModuleId) (hx : x ≠ ρ.new) (hb : b ↔ ρ.Targets (scope m) x) :
    Option.Rel (ρ.RenamesFound scope) (declaredType? (scope m) x)
      (declaredType? (scope' m) (if b then ρ.new else x)) := by
  have hrel := (hscope m).type?_eq hx hb
  rw [declaredType?, declaredType?, (hscope m).module, (hscope m).module']
  generalize (scope m).type? x = o at hrel
  generalize (scope' m).type? (if b then ρ.new else x) = o' at hrel
  cases hrel with
  | none => exact .none
  | some hitem => exact .some ⟨hitem.symbol, .some (.named hx hb)⟩

omit hscope in
/-- A type that the language provides is not the symbol, and is found as it was. -/
theorem builtinType?_renames (hx : x ≠ ρ.new)
    (hother : ∀ r, builtinType? x = some r → r.1.id ≠ ρ.target) :
    Option.Rel (ρ.RenamesFound scope) (builtinType? x) (builtinType? x) := by
  cases hr : builtinType? x with
  | none => exact .none
  | some r =>
    obtain ⟨s, hs, rfl⟩ := builtinType?_eq_some hr
    have hname : s.name ≠ ρ.new := (builtin?_at hs).1.name.symm ▸ hx
    exact .some ⟨.refl hname (hother _ hr), .none⟩

/-- What a type name means in its new form, where it has it exactly if it means the symbol. -/
theorem resolve?_renames {t t' : TypeName} (hq : t'.qualifier = t.qualifier) (hx : t.name ≠ ρ.new)
    (hname : t'.name = if b then ρ.new else t.name)
    (hb : b ↔ ∃ r, (seen scope own imports).resolve? (scope m) t = some r ∧ r.1.id = ρ.target)
    (hdeclared : ∀ r, (seen scope own imports).resolve? (scope m) t = some r →
      r.1.declaration = Option.none → r.1.id ≠ ρ.target) :
    Option.Rel (ρ.RenamesFound scope) ((seen scope own imports).resolve? (scope m) t)
      ((seen scope' own imports).resolve? (scope' m) t') := by
  cases hqualifier : t.qualifier with
  | some q =>
    rw [resolve?_qualified hqualifier, imported?_seen fun m => (hscope m).module] at hb
    rw [resolve?_qualified hqualifier, resolve?_qualified (hq.trans hqualifier), hname,
      imported?_seen fun m => (hscope m).module, imported?_seen fun m => (hscope m).module']
    cases hfind : imports.find? fun m => m.name == q with
    | none => exact .none
    | some k =>
      rw [hfind] at hb
      exact declaredType?_renames hscope k hx (hb.trans targets_iff.symm)
  | none =>
    rw [resolve?_bare hqualifier] at hb hdeclared
    rw [resolve?_bare hqualifier, resolve?_bare (hq.trans hqualifier), hname]
    have hbuiltin : declaredType? (scope m) t.name = none → ∀ r, builtinType? t.name = some r →
        r.1.id ≠ ρ.target := by
      intro hnone r hr
      obtain ⟨s, hs, rfl⟩ := builtinType?_eq_some hr
      exact hdeclared _ (Option.or_eq_some_iff.2 (.inr ⟨hnone, hr⟩)) (builtin?_declaration hs)
    have htarget : b ↔ ρ.Targets (scope m) t.name := by
      rw [hb, targets_iff]
      constructor
      · rintro ⟨r, hr, hid⟩
        rcases Option.or_eq_some_iff.1 hr with hr | ⟨hnone, hr⟩
        · exact ⟨r, hr, hid⟩
        · exact absurd hid (hbuiltin hnone r hr)
      · rintro ⟨r, hr, hid⟩
        exact ⟨r, Option.or_eq_some_iff.2 (.inl hr), hid⟩
    have hrel := declaredType?_renames hscope m hx htarget
    cases hfound : declaredType? (scope m) t.name with
    | some r =>
      rw [hfound] at hrel
      generalize declaredType? (scope' m) (if b then ρ.new else t.name) = o' at hrel
      cases hrel with
      | some hr => exact .some hr
    | none =>
      have hfalse : b = false := by
        rw [Bool.eq_false_iff]
        intro h
        obtain ⟨r, hsome, -⟩ := targets_iff.1 (htarget.1 h)
        rw [hfound] at hsome
        cases hsome
      rw [hfound, hfalse, if_neg Bool.false_ne_true] at hrel
      rw [hfalse, if_neg Bool.false_ne_true]
      generalize declaredType? (scope' m) t.name = o' at hrel
      cases hrel
      exact builtinType?_renames hx (hbuiltin hfound)

end

end Change

end Xref.Binding
