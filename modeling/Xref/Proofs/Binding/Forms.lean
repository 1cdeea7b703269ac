import Mathlib.Data.List.SplitBy
import Xref.Proofs.Binding.NameTokens
import Xref.Proofs.Binding.Shapes

/-!
# Forms of written types

What the nodes of a bound unit mention says what the types in it mean, and so what form each of them
has (`BoundUnit.typeForm`). The binder has this form before there is a bound unit: on the way back
from a type it hands up the text of the form (`bindNode_hasForm`). So the shape of a record written
in place is the text of its form (`shape_of_visit`).
-/

namespace Xref

/-! ## Words and blanks -/

theorem isBlank_of_continuesWord {c : Char} (h : continuesWord c) : Text.isBlank c = false := by
  have hpoints : ∀ p ∈ Text.blankPoints, continuesWord (Char.ofNat p) = false := by decide
  rw [Bool.eq_false_iff]
  intro hblank
  have hfalse := hpoints _ (List.contains_iff_mem.1 hblank)
  rw [Char.ofNat_toNat, h] at hfalse
  cases hfalse

/-- A word has no blanks to collapse. -/
theorem collapse_word {x : String} (hx : isWord x) : Text.collapse x = x := by
  have hblank : ∀ c ∈ x.toList, Text.isBlank c = false := fun c hc =>
    isBlank_of_continuesWord (continuesWord_of_isWord hx hc)
  have hne : x.toList ≠ [] := by
    obtain ⟨_, _, hlist, -⟩ := toList_of_isWord hx
    rw [hlist]
    exact List.cons_ne_nil _ _
  have hwords : Text.words x.toList = [x.toList] := by
    have hchain : x.toList.IsChain fun a b => Text.isBlank a == Text.isBlank b := by
      refine List.Pairwise.isChain (List.pairwise_of_forall_mem_list fun a ha b hb => ?_)
      rw [hblank a ha, hblank b hb]
      rfl
    have hany : x.toList.any Text.isBlank = false := List.any_eq_false.2 fun c hc => by
      rw [hblank c hc]
      decide
    rw [Text.words, List.splitBy_of_isChain hne hchain, List.filter_singleton, hany]
    rfl
  rw [Text.collapse, hwords, List.map_singleton, String.ofList_toList]
  rfl

/-! ## Forms in a bound unit -/

namespace BoundUnit

open Binding

mutual

/-- The form of the type that a node writes, as the unit has it: a record is made of its fields, and
a name means what it mentions. -/
def typeForm (b : BoundUnit) : Node → TypeForm
  | ⟨id, kind, full, ends, slots⟩ =>
    if kind = .recordTypeDescriptor then .record (b.fieldForms slots)
    else match b.mention? id with
      | some a => .named a.symbol.owner a.symbol.name
      | none => .unresolved (Node.mk id kind full ends slots).text

/-- The forms of the fields in several slots, in order. -/
def fieldForms (b : BoundUnit) : List Child → List (String × TypeForm)
  | [] => []
  | .node n :: rest => (b.fieldForm? n).toList ++ b.fieldForms rest
  | .token _ :: rest => b.fieldForms rest
  | .missing :: rest => b.fieldForms rest

/-- The name of the field that a node writes, with the form of its type. -/
def fieldForm? (b : BoundUnit) : Node → Option (String × TypeForm)
  | ⟨id, kind, full, ends, slots⟩ =>
    ((Node.mk id kind full ends slots).identifierAt? 0).map fun name =>
      (name.text, b.writtenForm slots)

/-- The form of the first type that is written in several slots. -/
def writtenForm (b : BoundUnit) : List Child → TypeForm
  | [] => .missing
  | .node n :: rest => if n.kind.isType then b.typeForm n else b.writtenForm rest
  | .token _ :: rest => b.writtenForm rest
  | .missing :: rest => b.writtenForm rest

end

variable {b : BoundUnit} {n : Node}

theorem fieldForms_eq (b : BoundUnit) (slots : List Child) :
    b.fieldForms slots = (slots.filterMap Slot.node?).filterMap b.fieldForm? := by
  induction slots with
  | nil => rfl
  | cons slot rest ih =>
    cases slot with
    | node n =>
      rw [fieldForms, ih]
      show _ = (n :: rest.filterMap Slot.node?).filterMap b.fieldForm?
      rw [List.filterMap_cons]
      cases b.fieldForm? n <;> rfl
    | token t => exact ih
    | missing => exact ih

theorem writtenForm_eq (b : BoundUnit) (slots : List Child) : b.writtenForm slots =
    ((slots.filterMap Slot.node?).find? fun n => n.kind.isType).elim .missing b.typeForm := by
  induction slots with
  | nil => rfl
  | cons slot rest ih =>
    cases slot with
    | node n =>
      show (if n.kind.isType then b.typeForm n else b.writtenForm rest) =
        ((n :: rest.filterMap Slot.node?).find? fun n => n.kind.isType).elim .missing b.typeForm
      rw [ih, List.find?_cons]
      cases n.kind.isType <;> rfl
    | token t => exact ih
    | missing => exact ih

theorem typeForm_record (b : BoundUnit) (h : n.kind = .recordTypeDescriptor) :
    b.typeForm n = .record (n.children.filterMap b.fieldForm?) := by
  rw [Node.children, ← fieldForms_eq]
  cases n
  exact if_pos h

theorem typeForm_reference (b : BoundUnit) (h : n.kind = .typeReference) :
    b.typeForm n = match b.mention? n.id with
      | some a => .named a.symbol.owner a.symbol.name
      | none => .unresolved n.text := by
  have hnot : n.kind ≠ .recordTypeDescriptor := by rw [h]; decide
  cases n
  exact if_neg hnot

theorem fieldForm?_eq (b : BoundUnit) (n : Node) :
    b.fieldForm? n = (n.identifierAt? 0).map fun name => (name.text, b.writtenForm n.slots) := by
  cases n
  rfl

/-- The records written in place in a unit that it has symbols for. -/
def records (b : BoundUnit) : List Node :=
  b.tree.root.preorder.filter fun n =>
    n.kind == .recordTypeDescriptor && (b.mention? n.id).isSome

/-- Whether every type below a node that is written with the name of a module is found. -/
def ResolvesQualified (b : BoundUnit) (n : Node) : Prop :=
  ∀ m ∈ n.preorder, (TypeName.ofNode? m).any (·.qualifier.isSome) → (b.mention? m.id).isSome

instance (b : BoundUnit) (n : Node) : Decidable (b.ResolvesQualified n) := by
  unfold ResolvesQualified; infer_instance

theorem mem_records : n ∈ b.records ↔ n ∈ b.tree.root.preorder ∧
    n.kind = .recordTypeDescriptor ∧ ∃ a, b.mention? n.id = some a := by
  rw [records, List.mem_filter, Bool.and_eq_true, beq_iff_eq, Option.isSome_iff_exists]

end BoundUnit

namespace Binding

variable {c : Context} {source : String} {n : Node}

/-! ## Types by name -/

/-- A type name in the tree ends with a word. One without a qualifier is this word alone. -/
theorem exists_typeName (hn : n ∈ (Tree.ofSource source).root.preorder)
    (hkind : n.kind = .typeReference) : ∃ name qualifier,
      (n.childTokens.filter (·.kind.isIdentifier)).getLast? = some name ∧ isWord name.text ∧
        TypeName.ofNode? n = some ⟨qualifier, name.text⟩ ∧
        (qualifier = none → n.slots = [.token name]) := by
  have hword : ∀ {t : Token}, .token t ∈ n.slots → t.kind = .identifier → isWord t.text :=
    fun ht hkind => (isWord_of_mem
      (Change.Marks.mem_of_childToken hn (Node.mem_childTokens.2 ht)) hkind).1
  rcases Tree.slots_typeReference hn hkind with
    ⟨name, hslots, hname⟩ | ⟨q, colon, name, hslots, hq, hcolon, hname⟩
  · have hidentifiers : n.childTokens.filter (·.kind.isIdentifier) = [name] := by
      rw [Node.childTokens, hslots]
      simp [Slot.token?, TokenKind.isIdentifier, hname]
    refine ⟨name, none, by rw [hidentifiers]; rfl, hword (by rw [hslots]; simp) hname, ?_,
      fun _ => hslots⟩
    rw [TypeName.ofNode?, if_pos hkind, hidentifiers]
  · have hidentifiers : n.childTokens.filter (·.kind.isIdentifier) = [q, name] := by
      rw [Node.childTokens, hslots]
      simp [Slot.token?, TokenKind.isIdentifier, hname, hq, hcolon]
    refine ⟨name, some q.text, by rw [hidentifiers]; rfl, hword (by rw [hslots]; simp) hname, ?_,
      fun hbare => ?_⟩
    · rw [TypeName.ofNode?, if_pos hkind, hidentifiers]
    · cases hbare

/-- A type name mentions what it means to the unit. -/
theorem mention?_typeName (hn : n ∈ (Tree.ofSource source).root.preorder)
    (hkind : n.kind = .typeReference) {tn : TypeName} {name : Token}
    (htn : TypeName.ofNode? n = some tn)
    (hname : (n.childTokens.filter (·.kind.isIdentifier)).getLast? = some name) :
    (c.bound source).mention? n.id =
      (c.visible.resolve? c.visible.own tn).map fun r => ⟨r.1, name.id⟩ := by
  obtain ⟨v, hv, rfl⟩ := exists_visit (c := c) hn
  have hnoted := Change.Marks.noted_type (c := c) hkind htn hname
  refine mention?_eq_of_noted hv (by rw [hkind]; decide) ?_
  rw [hnoted, Option.map_map]
  rfl

/-! ## What a type hands up -/

/-- Whether a text is that of a form with words for names. -/
structure TypeForm.IsSpelled (f : TypeForm) (text : String) : Prop where
  text : text = f.text
  formed : f.Formed

/-- What the written type of a meaning adds to a shape. -/
def Meaning.shape (m : Meaning) : String := m.written.elim "?" WrittenType.shape

/-- Whether a type or the field of a record hands up the form that the unit gives it. -/
structure Meaning.HasForm (b : BoundUnit) (n : Node) (m : Meaning) : Prop where
  type : n.kind.isType → (b.typeForm n).IsSpelled m.shape
  field : n.kind = .recordField → (b.writtenForm n.slots).IsSpelled m.shape

variable {b : BoundUnit} {below : Meanings} {s : State} {inType : Bool} {slots : List Child}

/-- The meanings of several slots are those of the nodes in them, each with what is known there. -/
theorem mem_bindSlots {m : Node × Meaning} (hm : m ∈ (bindSlots c inType slots s).1) :
    m.1 ∈ slots.filterMap Slot.node? ∧ ∃ s', m.2 = (bindNode c inType m.1 s').1 := by
  constructor
  · rw [← nodes_bindSlots c inType slots s]
    exact List.mem_map_of_mem hm
  · induction slots generalizing s with
    | nil => cases hm
    | cons slot rest ih =>
      cases slot with
      | node n =>
        rcases List.mem_cons.1 hm with rfl | hm
        · exact ⟨s, rfl⟩
        · exact ih hm
      | token t => exact ih hm
      | missing => exact ih hm

/-- The first written type below a node has the form of the first type in the slots. -/
theorem isSpelled_writtenType? (hnodes : below.map Prod.fst = n.children)
    (h : ∀ m ∈ below, m.2.HasForm b m.1) :
    (b.writtenForm n.slots).IsSpelled (below.writtenType?.elim "?" WrittenType.shape) := by
  rw [BoundUnit.writtenForm_eq, ← Node.children, ← hnodes, List.find?_map, Meanings.writtenType?]
  show (((below.find? fun m => m.1.kind.isType).map Prod.fst).elim TypeForm.missing
    b.typeForm).IsSpelled _
  cases hfirst : below.find? fun m => m.1.kind.isType with
  | none => exact ⟨rfl, trivial⟩
  | some m =>
    have htype := List.find?_some hfirst
    exact (h m (List.mem_of_find?_eq_some hfirst)).type htype

/-- The shape of a record lists its fields in the form that the unit gives them. -/
theorem isSpelled_shapeOf (hwords : ∀ m ∈ below, ∀ t ∈ m.1.identifierAt? 0, isWord t.text)
    (hforms : ∀ m ∈ below, m.1.kind = .recordField ∧ m.2.HasForm b m.1) (keyword : Token) :
    (TypeForm.record ((below.map Prod.fst).filterMap b.fieldForm?)).IsSpelled
      (Context.shapeOf (c.writtenFields below keyword)) := by
  suffices hfields : String.join ((c.writtenFields below keyword).map fun field =>
        field.name.text ++ ":" ++ (field.type.elim "?" WrittenType.shape) ++ ";") =
          TypeForm.fieldsText ((below.map Prod.fst).filterMap b.fieldForm?) ∧
      TypeForm.FieldsFormed ((below.map Prod.fst).filterMap b.fieldForm?) by
    refine ⟨?_, hfields.2⟩
    rw [Context.shapeOf, hfields.1]
    rfl
  induction below with
  | nil => exact ⟨rfl, trivial⟩
  | cons m below ih =>
    rw [List.forall_mem_cons] at hwords hforms
    have hfield := hforms.1.2.field hforms.1.1
    rw [Context.writtenFields, List.filterMap_cons, List.map_cons, List.filterMap_cons,
      BoundUnit.fieldForm?_eq, Context.writtenField?]
    cases hname : m.1.identifierAt? 0 with
    | none => exact ih hwords.2 hforms.2
    | some name =>
      obtain ⟨htext, hformed⟩ := ih hwords.2 hforms.2
      refine ⟨?_, hwords.1 name hname, hfield.formed, hformed⟩
      dsimp only [Option.map_some]
      rw [List.map_cons, String.join_cons, TypeForm.fieldsText, ← htext, ← hfield.text]
      rfl

/-- The shape of a record has its form, if what is handed up from everything in it has. -/
theorem isSpelled_record (hn : n ∈ (Tree.ofSource source).root.preorder)
    (hkind : n.kind = .recordTypeDescriptor)
    (hchildren : ∀ m ∈ n.children, ∀ s, (bindNode c false m s).1.HasForm b m) (s : State)
    (keyword : Token) : (b.typeForm n).IsSpelled (Context.shapeOf
      (c.writtenFields (bindSlots c (n.kind == .typeDefinition) n.slots s).1 keyword)) := by
  rw [BoundUnit.typeForm_record _ hkind, Node.children,
    ← nodes_bindSlots c (n.kind == .typeDefinition) n.slots s]
  refine isSpelled_shapeOf (fun m hm t ht => ?_) (fun m hm => ?_) keyword
  · have hmem := Node.mem_preorder_child (mem_bindSlots hm).1
    exact isWord_identifierAt? (Node.preorder_trans hn hmem) ht
  · obtain ⟨hchild, s', hmeaning⟩ := mem_bindSlots hm
    rw [hmeaning, hkind]
    exact ⟨kind_field hn hkind hchild, hchildren m.1 hchild s'⟩

theorem resolvesQualified_child {m : Node} (h : b.ResolvesQualified n) (hm : m ∈ n.children) :
    b.ResolvesQualified m :=
  fun k hk => h k (Node.preorder_trans (Node.mem_preorder_child hm) hk)

/-- A type name that is not found has no qualifier, where all with a qualifier are found. -/
theorem qualifier_eq_none (hn : n ∈ (Tree.ofSource source).root.preorder)
    (hkind : n.kind = .typeReference) (hfound : (c.bound source).ResolvesQualified n) {tn : TypeName}
    {name : Token} (htn : TypeName.ofNode? n = some tn)
    (hname : (n.childTokens.filter (·.kind.isIdentifier)).getLast? = some name)
    (hresolved : c.visible.resolve? c.visible.own tn = none) : tn.qualifier = none := by
  by_contra hqualifier
  have hsome := hfound n n.self_mem_preorder (by
    rw [htn]
    exact Option.isSome_iff_ne_none.2 hqualifier)
  rw [mention?_typeName hn hkind htn hname, hresolved] at hsome
  cases hsome

/-- A type name without a qualifier is written as the one word that it is. -/
theorem header_typeName {name : Token} (hslots : n.slots = [.token name]) (hword : isWord name.text) :
    (n.header fun _ => true) = name.text := by
  have htokens : Node.tokensOf n.slots = [name] := by rw [hslots]; rfl
  rw [Node.header, List.takeWhile_eq_self_iff.2 fun _ _ => rfl, htokens]
  exact collapse_word hword

section
variable (howners : c.visible.Good fun s => s.owner.IsWord)
include howners

/-- What a type name adds to a shape is the text of its form, if it is found or has no qualifier. -/
theorem isSpelled_namedType (hn : n ∈ (Tree.ofSource source).root.preorder)
    (hkind : n.kind = .typeReference) (hfound : (c.bound source).ResolvesQualified n) :
    ((c.bound source).typeForm n).IsSpelled (c.namedType n).shape := by
  obtain ⟨name, qualifier, hlast, hword, htn, hslots⟩ := exists_typeName hn hkind
  have hmention := mention?_typeName (c := c) hn hkind htn hlast
  rw [BoundUnit.typeForm_reference _ hkind, hmention, Context.namedType, htn, Option.bind_some]
  cases hresolved : c.visible.resolve? c.visible.own ⟨qualifier, name.text⟩ with
  | some r =>
    obtain ⟨howner, hname, -⟩ := howners.resolve? howners.own hresolved
    refine ⟨rfl, ?_, hname ▸ hword⟩
    rcases howner with howner | hbuiltin
    · exact howner
    · rw [(builtin?_at hbuiltin).1.owner]
      exact .inr (show isWord "lang" by decide)
  | none =>
    -- A name with a qualifier is found, so this is one word, which the shape has as it is written.
    have hbare : qualifier = none := qualifier_eq_none hn hkind hfound htn hlast hresolved
    have htext : n.text = name.text := by
      rw [Node.text, Node.tokens_eq, ← Node.tokensOf_eq, hslots hbare]
      rfl
    constructor
    · show "?" ++ (n.header fun _ => true) = "?" ++ n.text
      rw [header_typeName (hslots hbare) hword, htext]
    · show isWord n.text
      rw [htext]
      exact hword

/-- **What the walk hands up from a type has the form of the type.** -/
theorem bindNode_hasForm (hn : n ∈ (Tree.ofSource source).root.preorder)
    (hfound : (c.bound source).ResolvesQualified n) (s : State) :
    (bindNode c false n s).1.HasForm (c.bound source) n := by
  induction n using Node.induct generalizing s with
  | h n ih =>
    have hchildren : ∀ m ∈ n.children, ∀ s, (bindNode c false m s).1.HasForm (c.bound source) m :=
      fun m hm => ih m hm (Node.preorder_trans hn (Node.mem_preorder_child hm))
        (resolvesQualified_child hfound hm)
    rw [bindNode_eq]
    generalize c.enter n s = s
    constructor
    · intro htype
      by_cases hrecord : n.kind = .recordTypeDescriptor
      · obtain ⟨keyword, hkeyword⟩ := Tree.slots_record hn hrecord
        have hform := isSpelled_record hn hrecord hchildren s keyword
        rw [hrecord] at hform
        rw [Context.leave, hrecord]
        dsimp only
        rw [if_neg Bool.false_ne_true, declareRecord_eq c hkeyword]
        exact hform
      · have hreference : n.kind = .typeReference := by
          revert htype hrecord
          cases n.kind <;> decide
        rw [Context.leave, hreference]
        exact isSpelled_namedType howners hn hreference hfound
    · intro hfield
      rw [Context.leave, hfield]
      refine isSpelled_writtenType? (nodes_bindSlots c _ n.slots s) fun m hm => ?_
      obtain ⟨hchild, s', hmeaning⟩ := mem_bindSlots hm
      rw [hmeaning]
      exact hchildren m.1 hchild s'

/-- **The shape of a record written in place is the text of its form.** -/
theorem shape_of_visit {v : Visit} (hv : v ∈ unitVisits c source)
    (hkind : v.node.kind = .recordTypeDescriptor)
    (hfound : (c.bound source).ResolvesQualified v.node) (keyword : Token) :
    ((c.bound source).typeForm v.node).IsSpelled
      (Context.shapeOf (c.writtenFields v.below keyword)) := by
  obtain ⟨s, hwalk⟩ := (below_visits _ _ _ v hv).1
  have hn := mem_preorder_of_visit hv
  have hform := isSpelled_record (c := c) hn hkind (fun m hm s => bindNode_hasForm howners
    (Node.preorder_trans hn (Node.mem_preorder_child hm)) (resolvesQualified_child hfound hm) s)
    s keyword
  rw [hwalk] at hform
  exact hform

end

/-! ## Symbols of records and of other nodes -/

variable {a : Mention}

theorem recordSymbol_at (c : Context) (n : Node) (below : Meanings) (keyword : Token) :
    (c.recordSymbol n below keyword).At (.record c.module c.unit keyword.span.start) :=
  ⟨rfl, rfl, rfl, rfl, by intro h; cases h⟩

/-- The unit has a symbol for a record written in place. -/
theorem mem_records_of_visit {v : Visit} (hv : v ∈ unitVisits c source)
    (hkind : v.node.kind = .recordTypeDescriptor) (hbody : v.isBody = false) {keyword : Token}
    (hkeyword : v.node.slots.head?.bind Slot.token? = some keyword) :
    v.node ∈ (c.bound source).records := by
  have hnoted : (v.node.id, ⟨c.recordSymbol v.node v.below keyword, keyword.id⟩) ∈ v.noted c := by
    rw [noted_written hkind hbody hkeyword]
    exact List.mem_cons_self
  exact BoundUnit.mem_records.2
    ⟨mem_preorder_of_visit hv, hkind, _, mention?_iff.2 (mem_bindTree.2 ⟨v, hv, hnoted⟩)⟩

/-- The symbol of a record written in place is at the place of its first token. -/
theorem mention_record (hn : n ∈ (c.bound source).records)
    (ha : (c.bound source).mention? n.id = some a) :
    ∃ v ∈ unitVisits c source, v.node = n ∧ ∃ keyword,
      n.slots.head?.bind Slot.token? = some keyword ∧ a.symbol = c.recordSymbol n v.below keyword ∧
        SymbolPath.record c.module c.unit keyword.span.start ∈
          unitPaths c.module c.unit (.ofSource source) := by
  obtain ⟨hn, hkind, -⟩ := BoundUnit.mem_records.1 hn
  obtain ⟨v, hv, rfl⟩ := exists_visit (c := c) hn
  obtain ⟨hbody, keyword, hkeyword, hown⟩ := record_of_mem hv hkind (mention?_iff.1 ha) rfl
  refine ⟨v, hv, rfl, keyword, hkeyword, congrArg (·.2.symbol) hown, ?_⟩
  refine recordPaths_mem hv hkind hbody ?_
  rw [recordPaths, hkind, hkeyword]
  exact List.mem_cons_self

/-- What any other node mentions has no shape, and is at a path that is not that of a record and
ends with a word. -/
theorem mention_other {paths : List SymbolPath}
    (hvisible : c.visible.Good fun s => ∃ p ∈ paths, s.At p)
    (hpaths : unitPaths c.module c.unit (.ofSource source) ⊆ paths)
    (hn : n ∈ (Tree.ofSource source).root.preorder) (hkind : n.kind ≠ .recordTypeDescriptor)
    (ha : (c.bound source).mention? n.id = some a) :
    ∃ p ∈ paths, a.symbol.At p ∧ p.isRecord = false ∧ isWord p.lastName := by
  have hmem : (n.id, a) ∈ bindTree c (.ofSource source) := mention?_iff.1 ha
  obtain ⟨-, -, -, -, -, -, -, p, hp, hat⟩ :=
    bindTree_witnessed hvisible (fun p hp s hs => ⟨p, hpaths hp, hs⟩) _ hmem
  rcases named_of_mem_bindTree hmem with
    ⟨t, ht, -, hidentifier, htext⟩ | ⟨v, hv, hrecord, -, _, -, heq⟩
  · obtain ⟨hword, hwordKind⟩ := isWord_of_mem ht hidentifier
    have hlast : p.lastName = t.text := hat.name.symm.trans htext.symm
    refine ⟨p, hp, hat, ?_, hlast ▸ hword⟩
    cases p with
    | record m u offset =>
      -- The word that a record starts with is no identifier.
      rw [← hlast] at hwordKind
      cases hwordKind
    | _ => rfl
  · rw [node_unique hn (mem_preorder_of_visit hv) (congrArg Prod.fst heq)] at hkind
    exact absurd hrecord hkind

end Binding

end Xref
