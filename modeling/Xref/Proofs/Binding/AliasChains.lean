import Xref.Proofs.Binding.Renaming

/-!
# Chains of aliases

A declared type without fields is an alias of the type that its name means where it is written
(`Visible.AliasOf`). The search for fields follows such aliases and finds exactly the record that is
at most seven steps away (`Visible.fieldsWithin_eq_some_iff`). Else the chain goes in a circle, ends
at what is no record, or is longer (`Visible.Misses`).
-/

namespace Xref.Binding

/-- Whether `x` is the first in a list with the given key. -/
def IsFirst {α κ : Type} (key : α → κ) (k : κ) (xs : List α) (x : α) : Prop :=
  ∃ before after, xs = before ++ x :: after ∧ key x = k ∧ ∀ y ∈ before, key y ≠ k

/-- A type by the module that declares it and its name. -/
abbrev DeclaredType := ModuleId × String

/-- Whether an item is the first declaration of a name, and a type. -/
structure ModuleScope.Declares (scope : ModuleScope) (name : String) (item : Item) : Prop where
  first : IsFirst (fun item => item.symbol.name) name scope.items item
  kind : item.symbol.kind = .type

namespace Visible

/-- Whether a scope is that of a module that is seen: the own one or the first that is imported. -/
inductive Sees (v : Visible) : ModuleId → ModuleScope → Prop
  | own : Sees v v.own.module v.own
  | imported {module : ModuleId} {scope : ModuleScope} : module ≠ v.own.module →
    IsFirst ModuleScope.module module v.imports scope → Sees v module scope

/-- What a type name means where it is written in `scope`: an unqualified one a type of this scope,
a qualified one a type of the imported module of that name. -/
inductive Means (v : Visible) (scope : ModuleScope) : TypeName → DeclaredType → Prop
  | unqualified {name : String} {item : Item} : scope.Declares name item →
    Means v scope ⟨none, name⟩ (scope.module, name)
  | qualified {qualifier name : String} {target : ModuleScope} {item : Item} :
    IsFirst (fun scope => scope.module.name) qualifier v.imports target →
    target.Declares name item → Means v scope ⟨some qualifier, name⟩ (target.module, name)

/-- Whether an item declares a type, in a scope that is seen. -/
structure Defines (v : Visible) (d : DeclaredType) (scope : ModuleScope) (item : Item) : Prop where
  sees : v.Sees d.1 scope
  declares : scope.Declares d.2 item

/-- Whether a type is a record with the given fields. -/
def IsRecord (v : Visible) (d : DeclaredType) (scope : ModuleScope) (fields : List Field) : Prop :=
  ∃ item, v.Defines d scope item ∧ item.fields = fields ∧ fields ≠ []

/-- Whether a type has no fields and is written as another type. -/
def AliasOf (v : Visible) (d d' : DeclaredType) : Prop :=
  ∃ scope item t, v.Defines d scope item ∧ item.fields = [] ∧ item.type = some t ∧
    v.Means scope t d'

/-- Whether a number of steps from alias to alias lead from a type to a type. -/
inductive Follows (v : Visible) : Nat → DeclaredType → DeclaredType → Prop
  | start (d : DeclaredType) : Follows v 0 d d
  | step {k : Nat} {d d' last : DeclaredType} : v.AliasOf d d' → Follows v k d' last →
    Follows v (k + 1) d last

/-- How a chain of aliases comes to no record within seven steps. -/
inductive Misses (v : Visible) (d : DeclaredType) : Prop
  /-- It goes in a circle. -/
  | circle {j k : Nat} {last : DeclaredType} : v.Follows j d last → v.Follows (k + 1) last last →
    Misses v d
  /-- It ends at a type that is not declared. -/
  | undeclared {k : Nat} {last : DeclaredType} : v.Follows k d last →
    (∀ scope item, ¬ v.Defines last scope item) → Misses v d
  /-- It ends at a type without fields that is not written as a type name. -/
  | empty {k : Nat} {last : DeclaredType} {scope : ModuleScope} {item : Item} :
    v.Follows k d last → v.Defines last scope item → item.fields = [] → item.type = none →
    Misses v d
  /-- It ends at a type of the language. -/
  | builtin {k : Nat} {last : DeclaredType} {scope : ModuleScope} {item : Item} {name : String} :
    v.Follows k d last → v.Defines last scope item → item.fields = [] →
    item.type = some ⟨none, name⟩ → (∀ item, ¬ scope.Declares name item) → name ∈ builtinTypes →
    Misses v d
  /-- It ends at a name without a meaning. -/
  | unresolved {k : Nat} {last : DeclaredType} {scope : ModuleScope} {item : Item} {t : TypeName} :
    v.Follows k d last → v.Defines last scope item → item.fields = [] → item.type = some t →
    (∀ d', ¬ v.Means scope t d') → (t.qualifier = none → t.name ∉ builtinTypes) → Misses v d
  /-- It has eight steps or more. -/
  | long {last : DeclaredType} : v.Follows 8 d last → Misses v d

end Visible

/-! ## Look-ups by what they find -/

theorem find?_eq_some_iff_isFirst {α κ : Type} [BEq κ] [LawfulBEq κ] {key : α → κ} {k : κ}
    {xs : List α} {x : α} : (xs.find? fun x => key x == k) = some x ↔ IsFirst key k xs x := by
  simp [List.find?_eq_some_iff_append, IsFirst, and_left_comm]

theorem IsFirst.unique {α κ : Type} [BEq κ] [LawfulBEq κ] {key : α → κ} {k : κ} {xs : List α}
    {x y : α} (hx : IsFirst key k xs x) (hy : IsFirst key k xs y) : x = y := by
  rw [← find?_eq_some_iff_isFirst] at hx hy
  exact Option.some.inj (hx.symm.trans hy)

theorem ModuleScope.type?_eq_some_iff {scope : ModuleScope} {name : String} {item : Item} :
    scope.type? name = some item ↔ scope.Declares name item := by
  rw [type?, Option.filter_eq_some_iff, get?, find?_eq_some_iff_isFirst, beq_iff_eq]
  exact ⟨fun h => ⟨h.1, h.2⟩, fun h => ⟨h.1, h.2⟩⟩

namespace Visible

variable {v : Visible} {scope scope' : ModuleScope} {item item' : Item}
  {d d' last last' : DeclaredType}

theorem scope?_eq_some_iff {m : ModuleId} : v.scope? m = some scope ↔ v.Sees m scope := by
  rw [scope?]
  split
  · rename_i hm
    constructor
    · intro h
      cases h
      exact hm ▸ .own
    · intro h
      cases h with
      | own => rfl
      | imported hne => exact absurd hm hne
  · rename_i hm
    rw [find?_eq_some_iff_isFirst]
    constructor
    · exact .imported hm
    · intro h
      cases h with
      | own => exact absurd rfl hm
      | imported _ hfirst => exact hfirst

theorem imported?_eq_some_iff {q : String} : v.imported? q = some scope ↔
    IsFirst (fun scope => scope.module.name) q v.imports scope :=
  find?_eq_some_iff_isFirst

/-- A type name gives exactly the record type that it means. -/
theorem recordType?_eq_some_iff {t : Option TypeName} {r : RecordType} :
    v.recordType? scope t = some r ↔
      ∃ written d, t = some written ∧ v.Means scope written d ∧ r = .named d.1 d.2 := by
  cases t with
  | none => exact ⟨nofun, fun ⟨_, _, h, _⟩ => nomatch h⟩
  | some t =>
    rw [Change.recordType?_eq, Option.bind_eq_some_iff]
    obtain ⟨qualifier, name⟩ := t
    constructor
    · rintro ⟨target, htarget, h⟩
      obtain ⟨item, hitem, rfl⟩ := Option.map_eq_some_iff.1 h
      rw [ModuleScope.type?_eq_some_iff] at hitem
      refine ⟨_, (target.module, name), rfl, ?_, rfl⟩
      cases qualifier with
      | none =>
        obtain rfl := Option.some.inj htarget
        exact .unqualified hitem
      | some q => exact .qualified (imported?_eq_some_iff.1 htarget) hitem
    · rintro ⟨_, d, ht, hmeans, rfl⟩
      obtain rfl := Option.some.inj ht
      cases hmeans with
      | unqualified hitem => exact ⟨scope, rfl, by rw [ModuleScope.type?_eq_some_iff.2 hitem]; rfl⟩
      | qualified htarget hitem =>
        exact ⟨_, imported?_eq_some_iff.2 htarget, by
          rw [ModuleScope.type?_eq_some_iff.2 hitem]; rfl⟩

/-! ## There is one chain -/

theorem Sees.unique {m : ModuleId} (h : v.Sees m scope) (h' : v.Sees m scope') :
    scope = scope' := by
  rw [← scope?_eq_some_iff] at h h'
  exact Option.some.inj (h.symm.trans h')

theorem Defines.unique (h : v.Defines d scope item) (h' : v.Defines d scope' item') :
    scope = scope' ∧ item = item' := by
  obtain rfl := h.sees.unique h'.sees
  exact ⟨rfl, h.declares.first.unique h'.declares.first⟩

theorem Means.unique {t : TypeName} (h : v.Means scope t d) (h' : v.Means scope t d') : d = d' := by
  cases h with
  | unqualified => cases h'; rfl
  | qualified hfirst =>
    cases h' with
    | qualified hfirst' => rw [hfirst.unique hfirst']

theorem AliasOf.unique (h : v.AliasOf d last) (h' : v.AliasOf d last') : last = last' := by
  obtain ⟨scope, item, t, hdefines, -, ht, hmeans⟩ := h
  obtain ⟨scope', item', t', hdefines', -, ht', hmeans'⟩ := h'
  obtain ⟨rfl, rfl⟩ := hdefines.unique hdefines'
  obtain rfl := Option.some.inj (ht.symm.trans ht')
  exact hmeans.unique hmeans'

/-- A record is no alias. -/
theorem IsRecord.not_aliasOf {fields : List Field} (h : v.IsRecord d scope fields) :
    ¬ v.AliasOf d d' := by
  rintro ⟨scope', item', t, hdefines', hempty, -⟩
  obtain ⟨item, hdefines, rfl, hfields⟩ := h
  obtain ⟨-, rfl⟩ := hdefines.unique hdefines'
  exact hfields hempty

namespace Follows

variable {j k : Nat}

theorem trans (h : v.Follows j d d') (h' : v.Follows k d' last) : v.Follows (j + k) d last := by
  induction h with
  | start => rwa [Nat.zero_add]
  | step halias _ ih =>
    rw [Nat.add_right_comm]
    exact .step halias (ih h')

/-- Of two chains from a type the longer one goes on where the shorter one ends. -/
theorem rest (h : v.Follows j d last) (h' : v.Follows k d last') (hle : j ≤ k) :
    v.Follows (k - j) last last' := by
  induction h generalizing k with
  | start => exact h'
  | step halias _ ih =>
    cases h' with
    | start => omega
    | step halias' h' =>
      obtain rfl := halias.unique halias'
      rw [Nat.add_sub_add_right]
      exact ih h' (Nat.le_of_add_le_add_right hle)

/-- Where a chain ends for good no chain is longer. -/
theorem le_of_final (h : v.Follows j d last) (hfinal : ∀ d', ¬ v.AliasOf last d')
    (h' : v.Follows k d last') : k ≤ j := by
  by_contra hlt
  obtain ⟨i, hi⟩ := Nat.exists_eq_succ_of_ne_zero (Nat.sub_ne_zero_of_lt (Nat.lt_of_not_le hlt))
  have hrest := h.rest h' (Nat.le_of_lt (Nat.lt_of_not_le hlt))
  rw [hi] at hrest
  cases hrest with
  | step halias => exact hfinal _ halias

/-- A circle can be gone round any number of times. -/
theorem round (h : v.Follows (k + 1) last last) (n : Nat) :
    v.Follows (n * (k + 1)) last last := by
  induction n with
  | zero =>
    rw [Nat.zero_mul]
    exact .start last
  | succ n ih =>
    rw [Nat.succ_mul]
    exact ih.trans h

end Follows

/-! ## The search for fields -/

variable {fields : List Field}

/-- A type that is looked at is a record, or stands for the next one. -/
theorem fieldsWithin_succ {n : Nat} :
    v.fieldsWithin (n + 1) d.1 d.2 = some (scope, fields) ↔ v.IsRecord d scope fields ∨
      ∃ d', v.AliasOf d d' ∧ v.fieldsWithin n d'.1 d'.2 = some (scope, fields) := by
  rw [fieldsWithin, Option.bind_eq_some_iff]
  constructor
  · rintro ⟨found, hfound, h⟩
    obtain ⟨item, hitem, h⟩ := Option.bind_eq_some_iff.1 h
    have hdefines : v.Defines d found item :=
      ⟨scope?_eq_some_iff.1 hfound, ModuleScope.type?_eq_some_iff.1 hitem⟩
    split at h
    · rename_i hfields
      cases h
      exact .inl ⟨item, hdefines, rfl, hfields⟩
    · rename_i hfields
      rw [not_not] at hfields
      split at h
      · rename_i m x htype
        obtain ⟨t, d', ht, hmeans, hd'⟩ := recordType?_eq_some_iff.1 htype
        cases hd'
        exact .inr ⟨d', ⟨found, item, t, hdefines, hfields, ht, hmeans⟩, h⟩
      · cases h
  · rintro (⟨item, hdefines, rfl, hfields⟩ | ⟨d', halias, h⟩)
    · refine ⟨scope, scope?_eq_some_iff.2 hdefines.sees, ?_⟩
      rw [ModuleScope.type?_eq_some_iff.2 hdefines.declares, Option.bind_some, if_pos hfields]
    · obtain ⟨found, item, t, hdefines, hfields, ht, hmeans⟩ := halias
      refine ⟨found, scope?_eq_some_iff.2 hdefines.sees, ?_⟩
      rw [ModuleScope.type?_eq_some_iff.2 hdefines.declares, Option.bind_some,
        if_neg (not_not.2 hfields), recordType?_eq_some_iff.2 ⟨t, d', ht, hmeans, rfl⟩]
      exact h

/-- **The search finds the record on the chain of aliases,** if it comes to it among the types it
looks at. -/
theorem fieldsWithin_eq_some_iff {n : Nat} :
    v.fieldsWithin n d.1 d.2 = some (scope, fields) ↔
      ∃ k < n, ∃ last, v.Follows k d last ∧ v.IsRecord last scope fields := by
  induction n generalizing d with
  | zero => exact ⟨nofun, fun ⟨_, hlt, _⟩ => nomatch hlt⟩
  | succ n ih =>
    rw [fieldsWithin_succ]
    constructor
    · rintro (hrecord | ⟨d', halias, h⟩)
      · exact ⟨0, Nat.zero_lt_succ n, d, .start d, hrecord⟩
      · obtain ⟨k, hlt, last, hfollows, hrecord⟩ := ih.1 h
        exact ⟨k + 1, Nat.succ_lt_succ hlt, last, .step halias hfollows, hrecord⟩
    · rintro ⟨k, hlt, last, hfollows, hrecord⟩
      cases hfollows with
      | start => exact .inl hrecord
      | step halias hfollows =>
        exact .inr ⟨_, halias, ih.2 ⟨_, Nat.lt_of_succ_lt_succ hlt, last, hfollows, hrecord⟩⟩

theorem fields?_eq_some_iff : v.fields? d.1 d.2 = some (scope, fields) ↔
    ∃ k ≤ 7, ∃ last, v.Follows k d last ∧ v.IsRecord last scope fields := by
  rw [fields?, fieldsWithin_eq_some_iff]
  simp only [aliasLimit, Nat.lt_succ_iff]

/-- A chain has one record at most. -/
theorem record_unique {j k : Nat} {fields' : List Field} (h : v.Follows j d last)
    (hrecord : v.IsRecord last scope fields) (h' : v.Follows k d last')
    (hrecord' : v.IsRecord last' scope' fields') :
    j = k ∧ last = last' ∧ scope = scope' ∧ fields = fields' := by
  have hle := h.le_of_final (fun _ => hrecord.not_aliasOf) h'
  have hle' := h'.le_of_final (fun _ => hrecord'.not_aliasOf) h
  obtain rfl := Nat.le_antisymm hle' hle
  have hrest := h.rest h' (Nat.le_refl j)
  rw [Nat.sub_self] at hrest
  cases hrest with
  | start =>
    obtain ⟨item, hdefines, rfl, -⟩ := hrecord
    obtain ⟨item', hdefines', rfl, -⟩ := hrecord'
    obtain ⟨rfl, rfl⟩ := hdefines.unique hdefines'
    exact ⟨rfl, rfl, rfl, rfl⟩

/-! ## Chains without a record -/

/-- Whether a chain can go on no further from a type, and the type is no record. -/
def IsDead (v : Visible) (d : DeclaredType) : Prop :=
  (∀ d', ¬ v.AliasOf d d') ∧ ∀ scope fields, ¬ v.IsRecord d scope fields

/-- A chain goes on for any number of steps, or ends before. -/
theorem exists_follows (v : Visible) (d : DeclaredType) (n : Nat) :
    (∃ last, v.Follows n d last) ∨
      ∃ k < n, ∃ last, v.Follows k d last ∧ ∀ d', ¬ v.AliasOf last d' := by
  induction n generalizing d with
  | zero => exact .inl ⟨d, .start d⟩
  | succ n ih =>
    by_cases hnext : ∃ d', v.AliasOf d d'
    · obtain ⟨d', halias⟩ := hnext
      rcases ih d' with ⟨last, h⟩ | ⟨k, hlt, last, h, hfinal⟩
      · exact .inl ⟨last, .step halias h⟩
      · exact .inr ⟨k + 1, Nat.succ_lt_succ hlt, last, .step halias h, hfinal⟩
    · exact .inr ⟨0, Nat.zero_lt_succ n, d, .start d, fun d' h => hnext ⟨d', h⟩⟩

/-- A type that is defined without fields is an alias or dead. -/
theorem isDead_of_fields_eq_nil (hdefines : v.Defines d scope item) (hfields : item.fields = [])
    (htype : ∀ t, item.type = some t → ∀ d', ¬ v.Means scope t d') : v.IsDead d := by
  constructor
  · rintro d' ⟨scope', item', t, hdefines', -, ht, hmeans⟩
    obtain ⟨rfl, rfl⟩ := hdefines.unique hdefines'
    exact htype t ht d' hmeans
  · rintro scope' fields ⟨item', hdefines', rfl, hne⟩
    obtain ⟨rfl, rfl⟩ := hdefines.unique hdefines'
    exact hne hfields

theorem isDead_of_undeclared (h : ∀ scope item, ¬ v.Defines d scope item) : v.IsDead d :=
  ⟨fun _ ⟨scope, item, _, hdefines, _⟩ => h scope item hdefines,
    fun scope _ ⟨item, hdefines, _⟩ => h scope item hdefines⟩

/-- A chain that comes to a dead end comes to no record. -/
theorem fields?_eq_none_of_isDead {k : Nat} (h : v.Follows k d last) (hdead : v.IsDead last) :
    v.fields? d.1 d.2 = none := by
  rw [Option.eq_none_iff_forall_ne_some]
  rintro ⟨scope, fields⟩ hfound
  obtain ⟨j, -, last', h', hrecord⟩ := fields?_eq_some_iff.1 hfound
  have hle := h'.le_of_final (fun _ => hrecord.not_aliasOf) h
  have hle' := h.le_of_final hdead.1 h'
  obtain rfl := Nat.le_antisymm hle' hle
  have hrest := h.rest h' (Nat.le_refl j)
  rw [Nat.sub_self] at hrest
  cases hrest with
  | start => exact hdead.2 scope fields hrecord

/-- A chain of more than seven steps comes to no record that is looked at. -/
theorem fields?_eq_none_of_long {k : Nat} (h : v.Follows k d last) (hk : 7 < k) :
    v.fields? d.1 d.2 = none := by
  rw [Option.eq_none_iff_forall_ne_some]
  rintro ⟨scope, fields⟩ hfound
  obtain ⟨j, hj, last', h', hrecord⟩ := fields?_eq_some_iff.1 hfound
  have hle := h'.le_of_final (fun _ => hrecord.not_aliasOf) h
  omega

/-- **The search finds nothing exactly if the chain misses all records.** -/
theorem fields?_eq_none_iff : v.fields? d.1 d.2 = none ↔ v.Misses d := by
  constructor
  · intro hnone
    rcases v.exists_follows d 8 with ⟨last, h⟩ | ⟨k, hlt, last, h, hfinal⟩
    · exact .long h
    · -- The chain ends within the bound, so where it ends there is no record.
      have hrecord : ∀ scope fields, ¬ v.IsRecord last scope fields := by
        intro scope fields hrecord
        rw [fields?_eq_some_iff.2 ⟨k, Nat.le_of_lt_succ hlt, last, h, hrecord⟩] at hnone
        cases hnone
      by_cases hdeclared : ∃ scope item, v.Defines last scope item
      · obtain ⟨scope, item, hdefines⟩ := hdeclared
        have hfields : item.fields = [] := by
          by_contra hne
          exact hrecord scope item.fields ⟨item, hdefines, rfl, hne⟩
        cases htype : item.type with
        | none => exact .empty h hdefines hfields htype
        | some t =>
          have hmeans : ∀ d', ¬ v.Means scope t d' := fun d' hmeans =>
            hfinal d' ⟨scope, item, t, hdefines, hfields, htype, hmeans⟩
          by_cases hbuiltin : t.qualifier = none ∧ t.name ∈ builtinTypes
          · obtain ⟨qualifier, name⟩ := t
            obtain ⟨rfl, hname⟩ := hbuiltin
            refine .builtin h hdefines hfields htype (fun item' hitem' => ?_) hname
            exact hmeans _ (.unqualified hitem')
          · exact .unresolved h hdefines hfields htype hmeans fun hq hname => hbuiltin ⟨hq, hname⟩
      · refine .undeclared h fun scope item hdefines => hdeclared ⟨scope, item, hdefines⟩
  · intro hmisses
    cases hmisses with
    | @circle j k last h hround =>
      -- Eight times round the circle are eight steps or more.
      refine fields?_eq_none_of_long (h.trans (hround.round 8)) ?_
      omega
    | undeclared h hnot => exact fields?_eq_none_of_isDead h (isDead_of_undeclared hnot)
    | empty h hdefines hfields htype =>
      refine fields?_eq_none_of_isDead h (isDead_of_fields_eq_nil hdefines hfields ?_)
      rw [htype]
      exact nofun
    | builtin h hdefines hfields htype hnot hname =>
      refine fields?_eq_none_of_isDead h (isDead_of_fields_eq_nil hdefines hfields ?_)
      intro t ht d' hmeans
      obtain rfl := Option.some.inj (htype.symm.trans ht)
      cases hmeans with
      | unqualified hitem => exact hnot _ hitem
    | unresolved h hdefines hfields htype hnot =>
      refine fields?_eq_none_of_isDead h (isDead_of_fields_eq_nil hdefines hfields ?_)
      intro t ht
      obtain rfl := Option.some.inj (htype.symm.trans ht)
      exact hnot
    | long h => exact fields?_eq_none_of_long h (by omega)

/-! ## Fields by name -/

/-- A field of a declared type is the first of its name in the record that the type comes to. -/
theorem field?_named_eq_some_iff {name : String} {symbol : Symbol} {type : Option RecordType} :
    v.field? (.named d.1 d.2) name = some (symbol, type) ↔
      ∃ scope fields field, v.fields? d.1 d.2 = some (scope, fields) ∧
        IsFirst (fun field => field.symbol.name) name fields field ∧
        field.symbol = symbol ∧ v.recordType? scope field.type = type := by
  rw [field?, Option.bind_eq_some_iff]
  constructor
  · rintro ⟨⟨scope, fields⟩, hfields, h⟩
    obtain ⟨field, hfield, h⟩ := Option.map_eq_some_iff.1 h
    obtain ⟨hsymbol, htype⟩ := Prod.mk.inj h
    exact ⟨scope, fields, field, hfields, find?_eq_some_iff_isFirst.1 hfield, hsymbol, htype⟩
  · rintro ⟨scope, fields, field, hfields, hfirst, rfl, rfl⟩
    refine ⟨(scope, fields), hfields, ?_⟩
    dsimp only
    rw [find?_eq_some_iff_isFirst.2 hfirst]
    rfl

theorem isSome_field?_named {name : String} : (v.field? (.named d.1 d.2) name).isSome ↔
    ∃ scope fields, v.fields? d.1 d.2 = some (scope, fields) ∧
      ∃ field ∈ fields, field.symbol.name = name := by
  rw [field?]
  cases hfields : v.fields? d.1 d.2 with
  | none =>
    refine iff_of_false Bool.false_ne_true ?_
    rintro ⟨_, _, h, _⟩
    cases h
  | some found =>
    obtain ⟨scope, fields⟩ := found
    rw [Option.bind_some, Option.isSome_map, List.find?_isSome]
    constructor
    · rintro ⟨field, hfield, hname⟩
      exact ⟨scope, fields, rfl, field, hfield, eq_of_beq hname⟩
    · rintro ⟨_, _, h, field, hfield, hname⟩
      cases h
      exact ⟨field, hfield, beq_iff_eq.2 hname⟩

/-- What the search for the fields of a declared type finds, and the search for one of them. -/
structure FindsFields (v : Visible) (d : DeclaredType) : Prop where
  /-- The fields are those of the record on the chain of aliases, if at most seven steps lead to
  it. -/
  found : ∀ scope fields, v.fields? d.1 d.2 = some (scope, fields) ↔
    ∃ k ≤ 7, ∃ last, v.Follows k d last ∧ v.IsRecord last scope fields
  /-- There is one record on the chain at most, after one number of steps. -/
  unique : ∀ {j k last last' scope scope' fields fields'}, v.Follows j d last →
    v.IsRecord last scope fields → v.Follows k d last' → v.IsRecord last' scope' fields' →
    j = k ∧ last = last' ∧ scope = scope' ∧ fields = fields'
  /-- Otherwise the chain goes in a circle, ends elsewhere or is longer. -/
  missed : v.fields? d.1 d.2 = none ↔ v.Misses d
  /-- A field is the first of its name in the record. -/
  first : ∀ name symbol type, v.field? (.named d.1 d.2) name = some (symbol, type) ↔
    ∃ scope fields field, v.fields? d.1 d.2 = some (scope, fields) ∧
      IsFirst (fun field => field.symbol.name) name fields field ∧
      field.symbol = symbol ∧ v.recordType? scope field.type = type
  /-- It is found exactly if the record declares it. -/
  declared : ∀ name, (v.field? (.named d.1 d.2) name).isSome ↔
    ∃ scope fields, v.fields? d.1 d.2 = some (scope, fields) ∧
      ∃ field ∈ fields, field.symbol.name = name
  /-- So it is in a record that is written in place. -/
  written : ∀ fields name found, v.field? (.written fields) name = some found ↔
    IsFirst (fun field => field.1.name) name fields found

/-- **Aliases are followed to the record they stand for, up to the bound and no further,** whatever
the scopes are that a unit sees. -/
theorem findsFields (v : Visible) (d : DeclaredType) : v.FindsFields d where
  found _ _ := fields?_eq_some_iff
  unique := record_unique
  missed := fields?_eq_none_iff
  first _ _ _ := field?_named_eq_some_iff
  declared _ := isSome_field?_named
  written _ _ _ := find?_eq_some_iff_isFirst

end Visible

end Xref.Binding
