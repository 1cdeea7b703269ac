import Xref.Binding.BoundUnit
import Xref.Proofs.Binding.Paths

/-!
# Shapes of records

The shape of a record written in place is one flat text. It lists the fields with their types: the
path of a type that is found by its name, the shape of a record, or the name as it is written. The
form of a type (`TypeForm`) is what such a text says, and the text says it in one way
(`TypeForm.text_injective`): the first sign that belongs to no word tells the forms apart, and every
name in a form ends where a sign follows it.
-/

namespace Xref.Binding

/-- The form of a type as it is written: what it resolves to by name, the forms of the fields of a
record, a name that resolves to nothing, or no type at all. -/
inductive TypeForm where
  | named (owner : ModuleId) (name : String)
  | record (fields : List (String × TypeForm))
  | unresolved (text : String)
  | missing

namespace TypeForm

mutual

/-- Whether two forms are the same. -/
def decEq : (f g : TypeForm) → Decidable (f = g)
  | named m x, named m' x' => decidable_of_iff (m = m' ∧ x = x') (by rw [named.injEq])
  | record fs, record gs =>
    have := decEqFields fs gs
    decidable_of_iff (fs = gs) (by rw [record.injEq])
  | unresolved x, unresolved y => decidable_of_iff (x = y) (by rw [unresolved.injEq])
  | missing, missing => .isTrue rfl
  | named .., record _ | named .., unresolved _ | named .., missing => .isFalse nofun
  | record _, named .. | record _, unresolved _ | record _, missing => .isFalse nofun
  | unresolved _, named .. | unresolved _, record _ | unresolved _, missing => .isFalse nofun
  | missing, named .. | missing, record _ | missing, unresolved _ => .isFalse nofun

/-- Whether several fields have the same names and forms. -/
def decEqFields : (fs gs : List (String × TypeForm)) → Decidable (fs = gs)
  | [], [] => .isTrue rfl
  | [], _ :: _ | _ :: _, [] => .isFalse nofun
  | (x, f) :: fs, (y, g) :: gs =>
    have := decEq f g
    have := decEqFields fs gs
    decidable_of_iff (x = y ∧ f = g ∧ fs = gs) (by rw [List.cons.injEq, Prod.mk.injEq, and_assoc])

end

instance : DecidableEq TypeForm := decEq

/-! ## Written forms -/

mutual

/-- What a type of this form adds to the shape of a record. -/
def text : TypeForm → String
  | named owner name => owner.name ++ "::" ++ name
  | record fields => "record\x7b" ++ fieldsText fields ++ "\x7d"
  | unresolved text => "?" ++ text
  | missing => "?"

/-- What several fields add to the shape of a record. -/
def fieldsText : List (String × TypeForm) → String
  | [] => ""
  | (name, type) :: rest => name ++ ":" ++ type.text ++ ";" ++ fieldsText rest

end

mutual

/-- Whether all names in a form are words, but for that of the module without a name. -/
def Formed : TypeForm → Prop
  | named owner name => owner.IsWord ∧ isWord name
  | record fields => FieldsFormed fields
  | unresolved text => isWord text
  | missing => True

/-- Whether all names in the forms of several fields are words. -/
def FieldsFormed : List (String × TypeForm) → Prop
  | [] => True
  | (name, type) :: rest => isWord name ∧ type.Formed ∧ FieldsFormed rest

end

/-! ## The text determines the form -/

/-- Whether no word goes on with these characters. -/
def Stops (cs : List Char) : Prop := ∀ c ∈ cs.head?, continuesWord c = false

variable {r r' : List Char}

theorem stops_cons {c : Char} (h : continuesWord c = false) (cs : List Char) : Stops (c :: cs) :=
  fun _ hc => Option.some.inj hc ▸ h

theorem takeWhile_word {x : String} (hx : isWord x) (hr : Stops r) :
    (x.toList ++ r).takeWhile continuesWord = x.toList := by
  have hnone : r.takeWhile continuesWord = [] := by
    cases r with
    | nil => rfl
    | cons c cs => rw [List.takeWhile_cons, hr c rfl]; rfl
  rw [List.takeWhile_append_of_pos fun c hc => continuesWord_of_isWord hx hc, hnone,
    List.append_nil]

theorem not_stops_word {x : String} (hx : isWord x) (r : List Char) : ¬ Stops (x.toList ++ r) := by
  obtain ⟨c, cs, hlist, hc, -⟩ := toList_of_isWord hx
  intro h
  have hcontinues := continuesWord_of_isWord hx (hlist ▸ List.mem_cons_self : c ∈ x.toList)
  rw [h c (by rw [hlist]; rfl)] at hcontinues
  cases hcontinues

/-- A word is read off the front of a text up to where it stops. -/
theorem word_append_inj {x y : String} (hx : isWord x) (hy : isWord y) (hr : Stops r)
    (hr' : Stops r') (h : x.toList ++ r = y.toList ++ r') : x = y ∧ r = r' := by
  have hword := congrArg (List.takeWhile continuesWord) h
  rw [takeWhile_word hx hr, takeWhile_word hy hr'] at hword
  rw [hword] at h
  exact ⟨String.toList_injective hword, List.append_cancel_left h⟩

/-- The first character in the text of a type that neither a word nor the name of a module has. -/
def sign : TypeForm → Char
  | named .. => ':'
  | record _ => '\x7b'
  | unresolved _ | missing => '?'

theorem find?_sign {f : TypeForm} (hf : f.Formed) :
    (f.text.toList ++ r).find? (fun c => !continuesWord c && c != '.') = some f.sign := by
  have hskip : ∀ {cs ds : List Char}, (∀ c ∈ cs, continuesWord c ∨ c = '.') →
      (cs ++ ds).find? (fun c => !continuesWord c && c != '.') =
        ds.find? fun c => !continuesWord c && c != '.' := by
    intro cs ds hcs
    rw [List.find?_append, List.find?_eq_none.2, Option.none_or]
    intro c hc
    rcases hcs c hc with h | rfl
    · simp [h]
    · decide
  cases f with
  | named owner name =>
    have howner : ∀ c ∈ owner.name.toList, continuesWord c ∨ c = '.' := by
      intro c hc
      rcases hf.1 with rfl | hword
      · exact .inr (List.mem_singleton.1 hc)
      · exact .inl (continuesWord_of_isWord hword hc)
    rw [text, String.toList_append, String.toList_append, List.append_assoc, List.append_assoc,
      hskip howner]
    rfl
  | record fields =>
    rw [text, String.toList_append, String.toList_append, List.append_assoc, List.append_assoc]
    rfl
  | unresolved text => rw [TypeForm.text, String.toList_append]; rfl
  | missing => rfl

mutual

/-- **The text of a type determines its form,** and where it ends in a longer text. -/
theorem text_append_inj : ∀ {f g : TypeForm} {r r' : List Char}, f.Formed → g.Formed → Stops r →
    Stops r' → f.text.toList ++ r = g.text.toList ++ r' → f = g ∧ r = r'
  | f, g, r, r', hf, hg, hr, hr', h => by
    have hsign : f.sign = g.sign := by
      rw [← Option.some_inj, ← find?_sign hf (r := r), ← find?_sign hg (r := r'), h]
    match f, g with
    | named owner name, named owner' name' =>
      have h : owner.name.toList ++ ':' :: (':' :: (name.toList ++ r)) =
          owner'.name.toList ++ ':' :: (':' :: (name'.toList ++ r')) := by simpa [text] using h
      obtain ⟨howner, h⟩ := SymbolPath.append_cons_inj (SymbolPath.colon_not_mem_of_isWord_name hf.1)
        (SymbolPath.colon_not_mem_of_isWord_name hg.1) h
      obtain ⟨rfl, rfl⟩ := word_append_inj hf.2 hg.2 hr hr' (List.cons.inj h).2
      obtain rfl : owner = owner' := congrArg ModuleId.mk (String.toList_injective howner)
      exact ⟨rfl, rfl⟩
    | record fields, record fields' =>
      simp only [text, String.toList_append, List.append_assoc] at h
      obtain ⟨rfl, rfl⟩ := fieldsText_append_inj hf hg (List.append_cancel_left h)
      exact ⟨rfl, rfl⟩
    | unresolved x, unresolved y =>
      simp only [text, String.toList_append, List.append_assoc] at h
      obtain ⟨rfl, rfl⟩ := word_append_inj hf hg hr hr' (List.append_cancel_left h)
      exact ⟨rfl, rfl⟩
    | unresolved x, missing =>
      simp only [text, String.toList_append, List.append_assoc] at h
      exact absurd (List.append_cancel_left h ▸ hr') (not_stops_word hf r)
    | missing, unresolved y =>
      simp only [text, String.toList_append, List.append_assoc] at h
      exact absurd (List.append_cancel_left h ▸ hr) (not_stops_word hg r')
    | missing, missing => exact ⟨rfl, List.append_cancel_left h⟩
    | named .., record _ | named .., unresolved _ | named .., missing => cases hsign
    | record _, named .. | record _, unresolved _ | record _, missing => cases hsign
    | unresolved _, named .. | unresolved _, record _ => cases hsign
    | missing, named .. | missing, record _ => cases hsign

/-- The text of several fields ends at the bracket that closes the record. -/
theorem fieldsText_append_inj : ∀ {fs gs : List (String × TypeForm)} {r r' : List Char},
    FieldsFormed fs → FieldsFormed gs →
    (fieldsText fs).toList ++ '\x7d' :: r = (fieldsText gs).toList ++ '\x7d' :: r' →
      fs = gs ∧ r = r'
  | [], [], _, _, _, _, h => ⟨rfl, (List.cons.inj h).2⟩
  | [], (name, type) :: rest, r, _, _, hg, h => by
    simp only [fieldsText, String.toList_append, List.append_assoc] at h
    have hstops : Stops ("".toList ++ '\x7d' :: r) := stops_cons (by decide) r
    exact absurd (h ▸ hstops) (not_stops_word hg.1 _)
  | (name, type) :: rest, [], _, r', hf, _, h => by
    simp only [fieldsText, String.toList_append, List.append_assoc] at h
    have hstops : Stops ("".toList ++ '\x7d' :: r') := stops_cons (by decide) r'
    exact absurd (h ▸ hstops) (not_stops_word hf.1 _)
  | (name, type) :: rest, (name', type') :: rest', _, _, hf, hg, h => by
    simp only [fieldsText, String.toList_append, List.append_assoc] at h
    obtain ⟨hname, h⟩ := SymbolPath.append_cons_inj (SymbolPath.not_mem_of_isWord (by decide) hf.1)
      (SymbolPath.not_mem_of_isWord (by decide) hg.1) h
    obtain ⟨htype, h⟩ := text_append_inj hf.2.1 hg.2.1 (stops_cons (by decide) _)
      (stops_cons (by decide) _) h
    obtain ⟨hrest, h⟩ := fieldsText_append_inj hf.2.2 hg.2.2 (List.cons.inj h).2
    rw [String.toList_injective hname, htype, hrest]
    exact ⟨rfl, h⟩

end

/-- **Types with one text have one form.** -/
theorem text_injective {f g : TypeForm} (hf : f.Formed) (hg : g.Formed) (h : f.text = g.text) :
    f = g := by
  have hnil : Stops [] := fun _ hc => nomatch hc
  have hlist : f.text.toList ++ [] = g.text.toList ++ [] := by rw [h]
  exact (text_append_inj hf hg hnil hnil hlist).1

end TypeForm

end Xref.Binding
