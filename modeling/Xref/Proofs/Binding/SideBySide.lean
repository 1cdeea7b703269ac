import Xref.Proofs.Binding.Marks

/-!
# Two walks side by side

The walk of a text in which a symbol has a new name goes side by side with the walk of the text
before. What is known at every node is related (`Change.RenamesState`), and so is what the nodes mean
(`Change.RenamesMeaning`). Mentions of the symbol are kept, and nothing is mentioned that was not
mentioned before (`Change.RenamesMentions`).
-/

namespace Xref.Binding

/-- Whether a type is written below a node depends on the kinds of the nodes there. -/
theorem hasType_eq {R : Node × Meaning → Node × Meaning → Prop} {below below' : Meanings}
    (h : List.Forall₂ R below below') (hkind : ∀ m m', R m m' → m'.1.kind = m.1.kind) :
    below'.hasType = below.hasType := by
  unfold Meanings.hasType
  induction h with
  | nil => rfl
  | cons hm _ ih => rw [List.any_cons, List.any_cons, hkind _ _ hm, ih]

namespace Change

variable (ρ : Change) (scope : ModuleId → ModuleScope)

/-! ## States and meanings side by side -/

/-- Whether a token is another before the change, and a record written in place at it stands where
the change says. -/
structure RenamesToken (m : ModuleId) (u : String) (p : Token → Bool) (t t' : Token) : Prop where
  renamed : t.Renamed p ρ.new t'
  start : ρ.moved m u t.span.start = t'.span.start

structure RenamesLocal (l l' : Local) : Prop where
  symbol : ρ.Renames l.symbol l'.symbol
  type : ρ.KeepsType scope l.type l'.type

structure RenamesMention (a a' : NodeId × Mention) : Prop where
  node : a'.1 = a.1
  name : a'.2.name = a.2.name
  symbol : ρ.Renames a.2.symbol a'.2.symbol

/-- Whether mentions of the symbol are kept, and nothing is mentioned that was not mentioned
before. -/
structure RenamesMentions (as as' : List (NodeId × Mention)) : Prop where
  made : ∀ a' ∈ as', ∃ a ∈ as, ρ.RenamesMention a a'
  kept : ∀ a ∈ as, a.2.symbol.id = ρ.target → ∃ a' ∈ as', ρ.RenamesMention a a'

/-- Whether the walks know the same, up to the name of the symbol. A variable of the new name is the
symbol. -/
structure RenamesState (s s' : State) : Prop where
  scopes : List.Forall₂ (List.Forall₂ (ρ.RenamesLocal scope)) s.scopes s'.scopes
  function : ¬ ρ.IsOfItem → s'.function = s.function
  declared : ρ.new ∈ s'.declared →
    ∃ m u f x n, ρ.path = .localVar m u f x n ∧ n ≤ s.declared.count x
  mentions : ρ.RenamesMentions s.mentions s'.mentions

structure RenamesWritten (w w' : WrittenType) : Prop where
  record : ρ.KeepsType scope w.record w'.record

structure RenamesWrittenField (w w' : Context.WrittenField) : Prop where
  node : w'.node.id = w.node.id
  name : w'.name.id = w.name.id
  symbol : ρ.Renames w.symbol w'.symbol
  member : ρ.IsMember w.symbol
  type : Option.Rel (ρ.RenamesWritten scope) w.type w'.type

structure RenamesMeaning (a a' : Meaning) : Prop where
  value : ρ.KeepsType scope a.value a'.value
  result : ρ.KeepsType scope a.result a'.result
  written : Option.Rel (ρ.RenamesWritten scope) a.written a'.written

/-- Whether a node with its meaning is another before the change. -/
structure RenamesBelow (p : Token → Bool) (below below' : Node × Meaning) : Prop where
  alike : below.1.Alike (Token.Renamed p ρ.new) below'.1
  meaning : ρ.RenamesMeaning scope below.2 below'.2

/-- Whether walks of two nodes go side by side. -/
structure RenamesWalk (x x' : Meaning × State) : Prop where
  meaning : ρ.RenamesMeaning scope x.1 x'.1
  state : ρ.RenamesState scope x.2 x'.2

variable {ρ scope} {scope' : ModuleId → ModuleScope} {m : ModuleId} {u : String}
  {imports : List ModuleId} {p : Token → Bool} {source : String} {v : Visit} {n n' : Node}
  {t t' : Token} {s s' : State} {symbol symbol' : Symbol} {as as' bs bs' : List (NodeId × Mention)}

namespace RenamesMentions

theorem append (has : ρ.RenamesMentions as as') (hbs : ρ.RenamesMentions bs bs') :
    ρ.RenamesMentions (as ++ bs) (as' ++ bs') := by
  constructor
  · intro a' ha'
    rcases List.mem_append.1 ha' with ha' | ha'
    · obtain ⟨a, ha, hrel⟩ := has.made a' ha'
      exact ⟨a, List.mem_append_left _ ha, hrel⟩
    · obtain ⟨a, ha, hrel⟩ := hbs.made a' ha'
      exact ⟨a, List.mem_append_right _ ha, hrel⟩
  · intro a ha hid
    rcases List.mem_append.1 ha with ha | ha
    · obtain ⟨a', ha', hrel⟩ := has.kept a ha hid
      exact ⟨a', List.mem_append_left _ ha', hrel⟩
    · obtain ⟨a', ha', hrel⟩ := hbs.kept a ha hid
      exact ⟨a', List.mem_append_right _ ha', hrel⟩

theorem of_forall₂ (h : List.Forall₂ ρ.RenamesMention as as') : ρ.RenamesMentions as as' where
  made _ ha' := exists_left_of_forall₂ h ha'
  kept _ ha _ := exists_right_of_forall₂ h ha

/-- A mention of another symbol may be lost. -/
theorem lose {a : NodeId × Mention} (hid : a.2.symbol.id ≠ ρ.target) :
    ρ.RenamesMentions [a] [] where
  made _ ha' := nomatch ha'
  kept _ ha hid' := absurd hid' (List.mem_singleton.1 ha ▸ hid)

end RenamesMentions

namespace RenamesState

theorem start : ρ.RenamesState scope .start .start :=
  ⟨.nil, fun _ => rfl, (fun h => nomatch h), .of_forall₂ .nil⟩

theorem withMentions (hs : ρ.RenamesState scope s s') (h : ρ.RenamesMentions as as') :
    ρ.RenamesState scope { s with mentions := as ++ s.mentions }
      { s' with mentions := as' ++ s'.mentions } :=
  ⟨hs.scopes, hs.function, hs.declared, h.append hs.mentions⟩

theorem mention (hs : ρ.RenamesState scope s s') (hn : n'.id = n.id) (ht : t'.id = t.id)
    (hsymbol : ρ.Renames symbol symbol') :
    ρ.RenamesState scope (s.mention n t symbol) (s'.mention n' t' symbol') :=
  have hmention : ρ.RenamesMentions [(n.id, ⟨symbol, t.id⟩)] [(n'.id, ⟨symbol', t'.id⟩)] :=
    .of_forall₂ (.cons ⟨hn, ht, hsymbol⟩ .nil)
  hs.withMentions hmention

/-- The mention of another symbol may be lost. -/
theorem skip (hs : ρ.RenamesState scope s s') (hid : symbol.id ≠ ρ.target) :
    ρ.RenamesState scope (s.mention n t symbol) s' :=
  have hlose : ρ.RenamesMentions [(n.id, ⟨symbol, t.id⟩)] [] := .lose hid
  hs.withMentions hlose

theorem openScope (hs : ρ.RenamesState scope s s') :
    ρ.RenamesState scope s.openScope s'.openScope :=
  ⟨.cons .nil hs.scopes, hs.function, hs.declared, hs.mentions⟩

theorem closeScope (hs : ρ.RenamesState scope s s') :
    ρ.RenamesState scope s.closeScope s'.closeScope :=
  ⟨tail_rel hs.scopes, hs.function, hs.declared, hs.mentions⟩

theorem bind {l l' : Local} (hs : ρ.RenamesState scope s s') (hl : ρ.RenamesLocal scope l l') :
    ρ.RenamesState scope (s.bind l) (s'.bind l') := by
  rw [State.bind_eq, State.bind_eq]
  exact ⟨modifyHead_rel hs.scopes fun _ _ hblock => .cons hl hblock, hs.function, hs.declared,
    hs.mentions⟩

/-- A local variable in scope means what it meant. -/
theorem local?_eq (hs : ρ.RenamesState scope s s') {x : String} (hx : x ≠ ρ.new) {b : Bool}
    (hb : b → x = ρ.old) (hfound : ∀ l, s.local? x = some l → (b ↔ l.symbol.id = ρ.target)) :
    Option.Rel (ρ.RenamesLocal scope) (s.local? x) (s'.local? (if b then ρ.new else x)) := by
  unfold State.local? at hfound ⊢
  rw [← List.find?_flatten] at hfound ⊢
  rw [← List.find?_flatten]
  exact find?_renames (fun _ _ h => h.symbol) (List.rel_flatten hs.scopes) hx hb hfound

end RenamesState

/-! ## Meanings -/

theorem keepsType_bind {α β : Type} {R : α → β → Prop} {f : α → Option RecordType}
    {g : β → Option RecordType} {o : Option α} {o' : Option β} (h : Option.Rel R o o')
    (hfg : ∀ a b, R a b → ρ.KeepsType scope (f a) (g b)) :
    ρ.KeepsType scope (o.bind f) (o'.bind g) := by
  cases h with
  | none => exact .none
  | some hab => exact hfg _ _ hab

namespace RenamesMeaning

variable {w w' : WrittenType} {r r' : Option RecordType}

theorem none : ρ.RenamesMeaning scope .none .none := ⟨.none, .none, .none⟩

theorem ofValue (h : ρ.KeepsType scope r r') :
    ρ.RenamesMeaning scope (.ofValue r) (.ofValue r') := ⟨h, .none, .none⟩

theorem ofWritten (h : ρ.KeepsType scope w.record w'.record) :
    ρ.RenamesMeaning scope (.ofWritten w) (.ofWritten w') := ⟨.none, .none, .some ⟨h⟩⟩

end RenamesMeaning

section
variable {below below' : Meanings} (h : List.Forall₂ (ρ.RenamesBelow scope p) below below')

include h

theorem writtenType?_renames :
    Option.Rel (ρ.RenamesWritten scope) below.writtenType? below'.writtenType? :=
  bind_rel (find?_rel h fun _ _ hab => by rw [hab.alike.kind_eq]) fun _ _ hab => hab.meaning.written

theorem writtenRecord_keeps : ρ.KeepsType scope (below.writtenType?.bind WrittenType.record)
    (below'.writtenType?.bind WrittenType.record) :=
  keepsType_bind (writtenType?_renames h) fun _ _ hw => hw.record

theorem firstValue?_keeps : ρ.KeepsType scope below.firstValue? below'.firstValue? :=
  keepsType_bind (head?_rel h) fun _ _ hab => hab.meaning.value

theorem result_keeps : ρ.KeepsType scope (below.head?.bind (·.2.result))
    (below'.head?.bind (·.2.result)) :=
  keepsType_bind (head?_rel h) fun _ _ hab => hab.meaning.result

theorem lastValue?_keeps : ρ.KeepsType scope below.lastValue? below'.lastValue? :=
  keepsType_bind (getLast?_rel (filter_rel h fun _ _ hab => by rw [hab.alike.kind_eq]))
    fun _ _ hab => hab.meaning.value

end

end Change

end Xref.Binding
