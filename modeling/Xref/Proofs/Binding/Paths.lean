import Mathlib.Data.List.Basic
import Std.Data.String.ToNat
import Xref.Proofs.Project.Addresses
import Xref.Proofs.Syntax.Scanning
import Xref.Symbol.Symbol

/-!
# Written forms of paths

The written form of a path is its parts with two colons between them. No part holds a colon where
modules and units are well-named, so paths of the forms that can arise in a source text have
different written forms (`text_injective`).
-/

namespace Xref

/-- The name of the function around a variable where a function without a name is around it. -/
def unnamedFunction : String := "<module>"

/-- Whether a name is an identifier or the one of the module without a name. -/
def ModuleId.IsWord (m : ModuleId) : Prop := m = .current ∨ isWord m.name

namespace SymbolPath

/-- The last name in a path. -/
def lastName : SymbolPath → String
  | item _ x | field _ x | parameter _ _ _ x | localVar _ _ _ x _ | module x | builtin x => x
  | record .. => "record"
  | shape text => text

/-- The module that owns what is at a path. -/
def owner : SymbolPath → ModuleId
  | item m _ | parameter m .. | localVar m .. | record m .. => m
  | field p _ => p.owner
  | module x => ⟨x⟩
  | shape _ | builtin _ => .language

/-- Whether what is at a path has a declaration. -/
def isDeclared : SymbolPath → Bool
  | item .. | field .. | parameter .. | localVar .. => true
  | _ => false

/-- Whether a record written in place is at a path. -/
def isRecord : SymbolPath → Bool
  | record .. => true
  | _ => false

theorem isRecord_of_isDeclared {p : SymbolPath} (h : p.isDeclared) : p.isRecord = false := by
  cases p <;> first | rfl | cases h

/-! ## Forms -/

/-- Whether a name can be that of a module with declarations. -/
def IsModule (m : ModuleId) : Prop :=
  ':' ∉ m.name.toList ∧ m.name ≠ "module" ∧ m ≠ .language

/-- Whether a name can be that of a function around a variable. -/
def IsFunction (f : String) : Prop := isWord f ∨ f = unnamedFunction

/-- Whether a path is of a form that can arise in a source text. -/
inductive Formed : SymbolPath → Prop
  | item {m x} (hm : IsModule m) (hx : isWord x) : Formed (item m x)
  | itemField {m t x} (hm : IsModule m) (ht : isWord t) (hx : isWord x) :
    Formed (field (item m t) x)
  | recordField {m u n x} (hm : IsModule m) (hu : ':' ∉ u.toList) (hx : isWord x) :
    Formed (field (record m u n) x)
  | parameter {m u f x} (hm : IsModule m) (hu : ':' ∉ u.toList) (hf : IsFunction f)
    (hx : isWord x) : Formed (parameter m u f x)
  | localVar {m u f x n} (hm : IsModule m) (hu : ':' ∉ u.toList) (hf : IsFunction f)
    (hx : isWord x) : Formed (localVar m u f x n)
  | record {m u n} (hm : IsModule m) (hu : ':' ∉ u.toList) : Formed (record m u n)
  | module {x} (hx : isWord x) : Formed (module x)
  | builtin {x} (hx : isWord x) : Formed (builtin x)

/-! ## Parts -/

/-- Several parts with two colons between one and the next. -/
def joinParts : List (List Char) → List Char
  | [] => []
  | [a] => a
  | a :: b :: rest => a ++ ':' :: ':' :: joinParts (b :: rest)

/-- A text is divided in one way at the first place of a character. -/
theorem append_cons_inj {c : Char} {a b r r' : List Char} (ha : c ∉ a) (hb : c ∉ b)
    (h : a ++ c :: r = b ++ c :: r') : a = b ∧ r = r' := by
  induction a generalizing b with
  | nil =>
    cases b with
    | nil => exact ⟨rfl, (List.cons.inj h).2⟩
    | cons d b => exact absurd ((List.cons.inj h).1 ▸ List.mem_cons_self) hb
  | cons d a ih =>
    cases b with
    | nil => exact absurd ((List.cons.inj h).1 ▸ List.mem_cons_self) ha
    | cons e b =>
      rw [List.mem_cons, not_or] at ha hb
      obtain ⟨rfl, htail⟩ := List.cons.inj h
      obtain ⟨rfl, rfl⟩ := ih ha.2 hb.2 htail
      exact ⟨rfl, rfl⟩

/-- A text is divided in one way at the last place of a character. -/
theorem append_cons_inj_right {c : Char} {a b r r' : List Char} (hr : c ∉ r) (hr' : c ∉ r')
    (h : a ++ c :: r = b ++ c :: r') : a = b ∧ r = r' := by
  have hreverse := congrArg List.reverse h
  simp only [List.reverse_append, List.reverse_cons, List.append_assoc, List.singleton_append]
    at hreverse
  obtain ⟨hright, hleft⟩ := append_cons_inj (by simpa using hr) (by simpa using hr') hreverse
  exact ⟨List.reverse_injective hleft, List.reverse_injective hright⟩

theorem joinParts_injective {ps qs : List (List Char)} (hps : ∀ p ∈ ps, ':' ∉ p)
    (hqs : ∀ q ∈ qs, ':' ∉ q) (hp : ps ≠ []) (hq : qs ≠ []) (h : joinParts ps = joinParts qs) :
    ps = qs := by
  induction ps generalizing qs with
  | nil => exact absurd rfl hp
  | cons a ps ih =>
    obtain ⟨b, qs, rfl⟩ := List.exists_cons_of_ne_nil hq
    rw [List.forall_mem_cons] at hps hqs
    cases ps with
    | nil =>
      cases qs with
      | nil => rw [joinParts, joinParts] at h; rw [h]
      | cons b' qs =>
        rw [joinParts, joinParts] at h
        exact absurd (h ▸ by simp : ':' ∈ a) hps.1
    | cons a' ps =>
      cases qs with
      | nil =>
        rw [joinParts, joinParts] at h
        exact absurd (h ▸ by simp : ':' ∈ b) hqs.1
      | cons b' qs =>
        rw [joinParts, joinParts] at h
        obtain ⟨rfl, htail⟩ := append_cons_inj hps.1 hqs.1 h
        rw [ih hps.2 hqs.2 (List.cons_ne_nil _ _) (List.cons_ne_nil _ _) (List.cons.inj htail).2]

/-- How a numbered name is written. -/
def numbered (x : String) (n : Nat) : String := x ++ "#" ++ toString n

/-- How a record is written that has no name. -/
def recordMark (offset : Nat) : String := "<record@" ++ toString offset ++ ">"

/-- The parts of a path. -/
def parts : SymbolPath → List String
  | item m x => [m.name, x]
  | field p x => p.parts ++ [x]
  | parameter m u f x => [m.name, u, f, x]
  | localVar m u f x n => [m.name, u, f, numbered x n]
  | record m u offset => [m.name, u, recordMark offset]
  | shape text => ["<" ++ text ++ ">"]
  | module x => ["module", x]
  | builtin x => [ModuleId.language.name, x]

theorem joinParts_append {ps : List (List Char)} (h : ps ≠ []) (a : List Char) :
    joinParts (ps ++ [a]) = joinParts ps ++ ':' :: ':' :: a := by
  induction ps with
  | nil => exact absurd rfl h
  | cons p ps ih =>
    cases ps with
    | nil => rfl
    | cons q ps =>
      have := ih (List.cons_ne_nil _ _)
      rw [List.cons_append, List.cons_append, joinParts, ← List.cons_append, this, joinParts]
      simp

theorem parts_ne_nil (p : SymbolPath) : p.parts ≠ [] := by cases p <;> simp [parts]

/-- A path is written as its parts. -/
theorem toList_text (p : SymbolPath) : p.text.toList = joinParts (p.parts.map String.toList) := by
  induction p with
  | field p x ih =>
    rw [text, parts, List.map_append, List.map_singleton,
      joinParts_append (by simpa using p.parts_ne_nil), ← ih]
    simp
  | _ => simp [text, parts, joinParts, numbered, recordMark, ModuleId.language]

theorem not_mem_of_isWord {c : Char} (hc : continuesWord c = false) {x : String} (h : isWord x) :
    c ∉ x.toList := by
  intro hmem
  rw [continuesWord_of_isWord h hmem] at hc
  cases hc

theorem not_mem_toString {c : Char} (hc : c.isDigit = false) (n : Nat) :
    c ∉ (toString n).toList := by
  intro hmem
  rw [show (toString n).toList = Nat.toDigits 10 n from String.toList_ofList] at hmem
  rw [Nat.isDigit_of_mem_toDigits (by decide) (by decide) hmem] at hc
  cases hc

theorem numbered_injective {x y : String} {m n : Nat} (hx : isWord x) (hy : isWord y)
    (h : numbered x m = numbered y n) : x = y ∧ m = n := by
  have hlist := congrArg String.toList h
  simp only [numbered, String.toList_append, List.append_assoc] at hlist
  obtain ⟨htext, hnumber⟩ := append_cons_inj (not_mem_of_isWord (by decide) hx)
    (not_mem_of_isWord (by decide) hy) hlist
  exact ⟨String.toList_injective htext, Nat.repr_injective (String.toList_injective hnumber)⟩

theorem not_isWord_numbered (x : String) (n : Nat) : ¬ isWord (numbered x n) := by
  intro h
  refine not_mem_of_isWord (c := '#') (by decide) h ?_
  simp [numbered]

theorem recordMark_injective {m n : Nat} (h : recordMark m = recordMark n) : m = n := by
  have hlist := congrArg String.toList h
  simp only [recordMark, String.toList_append] at hlist
  rw [List.append_cancel_right_eq, List.append_cancel_left_eq] at hlist
  exact Nat.repr_injective (String.toList_injective hlist)

theorem colon_not_mem_of_isWord_name {m : ModuleId} (h : m.IsWord) : ':' ∉ m.name.toList := by
  rcases h with rfl | h
  · decide
  · exact not_mem_of_isWord (by decide) h

/-- The path of a record written in place says which record it is, whatever the unit is called. -/
theorem record_text_injective {m m' : ModuleId} {u u' : String} {n n' : Nat} (hm : m.IsWord)
    (hm' : m'.IsWord) (h : (record m u n).text = (record m' u' n').text) :
    m = m' ∧ u = u' ∧ n = n' := by
  have hlist : m.name.toList ++ ':' :: (':' :: (u.toList ++ "::<record".toList) ++
        '@' :: ((toString n).toList ++ ['>'])) =
      m'.name.toList ++ ':' :: (':' :: (u'.toList ++ "::<record".toList) ++
        '@' :: ((toString n').toList ++ ['>'])) := by
    simpa [text] using congrArg String.toList h
  have hdigits : ∀ n : Nat, '@' ∉ (toString n).toList ++ ['>'] := fun n => by
    simpa using not_mem_toString (by decide) n
  obtain ⟨hmodule, hrest⟩ := append_cons_inj (colon_not_mem_of_isWord_name hm)
    (colon_not_mem_of_isWord_name hm') hlist
  obtain ⟨hunit, hoffset⟩ := append_cons_inj_right (hdigits n) (hdigits n') hrest
  rw [List.cons.injEq, List.append_cancel_right_eq] at hunit
  rw [List.append_cancel_right_eq] at hoffset
  exact ⟨congrArg ModuleId.mk (String.toList_injective hmodule),
    String.toList_injective hunit.2, Nat.repr_injective (String.toList_injective hoffset)⟩

/-- A path that ends with a name or a number is not that of a record. -/
theorem text_ne_record {p : SymbolPath} (hp : p.isRecord = false) (hname : isWord p.lastName)
    {m : ModuleId} (hm : m.IsWord) (u : String) (n : Nat) : p.text ≠ (record m u n).text := by
  have hword : ∀ {x : String}, isWord x → x.toList ≠ [] ∧ '>' ∉ x.toList := fun h => by
    obtain ⟨_, _, hlist, -⟩ := toList_of_isWord h
    exact ⟨by rw [hlist]; exact List.cons_ne_nil _ _, not_mem_of_isWord (by decide) h⟩
  intro h
  have hends : ∀ {front last : String}, p.text = front ++ last →
      last.toList ≠ [] ∧ '>' ∉ last.toList → False := by
    intro front last htext ⟨hne, hlast⟩
    have hlist := congrArg (fun x => x.toList.getLast?) (htext.symm.trans h)
    simp only [text, String.toList_append, List.getLast?_append] at hlist
    rw [List.getLast?_eq_some_getLast hne, Option.some_or] at hlist
    have hsign : last.toList.getLast hne = '>' := Option.some.inj hlist
    exact hlast (hsign ▸ List.getLast_mem hne)
  cases p with
  | record => cases hp
  | shape text =>
    -- No name of a module starts as a shape does.
    have hhead := congrArg (fun x => x.toList.head?) h
    rcases hm with rfl | hm
    · simp [SymbolPath.text, ModuleId.current] at hhead
    · obtain ⟨c, cs, hlist, hc, -⟩ := toList_of_isWord hm
      simp only [SymbolPath.text, String.toList_append, hlist] at hhead
      rw [← Option.some.inj hhead] at hc
      cases hc
  | localVar m u f x k =>
    exact hends rfl ⟨by simp [Nat.toDigits_ne_nil], not_mem_toString (by decide) k⟩
  | item m x => exact hends rfl (hword hname)
  | field owner x => exact hends rfl (hword hname)
  | parameter m u f x => exact hends rfl (hword hname)
  | module x => exact hends rfl (hword hname)
  | builtin x => exact hends rfl (hword hname)

theorem not_isWord_recordMark (n : Nat) : ¬ isWord (recordMark n) := by
  intro h
  refine not_mem_of_isWord (c := '<') (by decide) h ?_
  simp [recordMark]

theorem not_isFunction_recordMark (n : Nat) : ¬ IsFunction (recordMark n) := by
  rintro (h | h)
  · exact not_isWord_recordMark n h
  · have hlist := congrArg String.toList h
    simp [recordMark, unnamedFunction] at hlist

theorem colon_not_mem_of_isFunction {f : String} (h : IsFunction f) : ':' ∉ f.toList := by
  rcases h with h | rfl
  · exact not_mem_of_isWord (by decide) h
  · decide

theorem colon_not_mem_numbered {x : String} (h : isWord x) (n : Nat) :
    ':' ∉ (numbered x n).toList := by
  have hx := not_mem_of_isWord (c := ':') (by decide) h
  have hn := not_mem_toString (c := ':') (by decide) n
  simp only [numbered, String.toList_append, List.mem_append, hx, hn, or_false, false_or]
  decide

theorem colon_not_mem_recordMark (n : Nat) : ':' ∉ (recordMark n).toList := by
  have hn := not_mem_toString (c := ':') (by decide) n
  simp only [recordMark, String.toList_append, List.mem_append, hn, or_false]
  decide

/-- No part of a path that is formed well holds a colon. -/
theorem colon_not_mem_parts {p : SymbolPath} (h : p.Formed) : ∀ a ∈ p.parts, ':' ∉ a.toList := by
  have hword : ∀ {x : String}, isWord x → ':' ∉ x.toList := not_mem_of_isWord (by decide)
  cases h with
  | item hm hx => simp [parts, hm.1, hword hx]
  | itemField hm ht hx => simp [parts, hm.1, hword ht, hword hx]
  | recordField hm hu hx => simp [parts, hm.1, hu, colon_not_mem_recordMark, hword hx]
  | parameter hm hu hf hx => simp [parts, hm.1, hu, colon_not_mem_of_isFunction hf, hword hx]
  | localVar hm hu hf hx =>
    simp [parts, hm.1, hu, colon_not_mem_of_isFunction hf, colon_not_mem_numbered hx]
  | record hm hu => simp [parts, hm.1, hu, colon_not_mem_recordMark]
  | module hx => simp [parts, hword hx]
  | builtin hx => simp [parts, hword hx, ModuleId.language]

theorem parts_injective {p q : SymbolPath} (hp : p.Formed) (hq : q.Formed)
    (h : p.parts = q.parts) : p = q := by
  have hmodule : ∀ {m m' : ModuleId}, m.name = m'.name → m = m' := fun h => congrArg ModuleId.mk h
  -- Paths with the same number of parts differ in a part that only one of the forms can have.
  cases hp with
  | item hm hx =>
    cases hq <;> simp only [parts, List.cons_append, List.nil_append, List.cons.injEq, reduceCtorEq,
      and_false, and_true] at h
    case item => rw [hmodule h.1, h.2]
    case module => exact absurd h.1 hm.2.1
    case builtin => exact absurd (hmodule h.1) hm.2.2
  | itemField hm ht hx =>
    cases hq <;> simp only [parts, List.cons_append, List.nil_append, List.cons.injEq, reduceCtorEq,
      and_false, and_true] at h
    case itemField =>
      obtain ⟨hm, rfl, rfl⟩ := h
      rw [hmodule hm]
    case record => exact absurd (h.2.2 ▸ hx) (not_isWord_recordMark _)
  | recordField hm hu hx =>
    cases hq <;> simp only [parts, List.cons_append, List.nil_append, List.cons.injEq, reduceCtorEq,
      and_false, and_true] at h
    case recordField =>
      obtain ⟨hm, rfl, hn, rfl⟩ := h
      rw [hmodule hm, recordMark_injective hn]
    case parameter hf _ => exact absurd (h.2.2.1 ▸ hf) (not_isFunction_recordMark _)
    case localVar hf _ => exact absurd (h.2.2.1 ▸ hf) (not_isFunction_recordMark _)
  | parameter hm hu hf hx =>
    cases hq <;> simp only [parts, List.cons_append, List.nil_append, List.cons.injEq, reduceCtorEq,
      and_false, and_true] at h
    case recordField => exact absurd (h.2.2.1 ▸ hf) (not_isFunction_recordMark _)
    case parameter =>
      obtain ⟨hm, rfl, rfl, rfl⟩ := h
      rw [hmodule hm]
    case localVar => exact absurd (h.2.2.2 ▸ hx) (not_isWord_numbered _ _)
  | localVar hm hu hf hx =>
    cases hq <;> simp only [parts, List.cons_append, List.nil_append, List.cons.injEq, reduceCtorEq,
      and_false, and_true] at h
    case recordField => exact absurd (h.2.2.1 ▸ hf) (not_isFunction_recordMark _)
    case parameter hx' => exact absurd (h.2.2.2 ▸ hx') (not_isWord_numbered _ _)
    case localVar hx' =>
      obtain ⟨hm, rfl, rfl, hn⟩ := h
      obtain ⟨rfl, rfl⟩ := numbered_injective hx hx' hn
      rw [hmodule hm]
  | record hm hu =>
    cases hq <;> simp only [parts, List.cons_append, List.nil_append, List.cons.injEq, reduceCtorEq,
      and_false, and_true] at h
    case itemField hx => exact absurd (h.2.2 ▸ hx) (not_isWord_recordMark _)
    case record =>
      obtain ⟨hm, rfl, hn⟩ := h
      rw [hmodule hm, recordMark_injective hn]
  | module hx =>
    cases hq <;> simp only [parts, List.cons_append, List.nil_append, List.cons.injEq, reduceCtorEq,
      and_false, and_true] at h
    case item hm _ => exact absurd h.1.symm hm.2.1
    case module => rw [h.2]
    case builtin => exact absurd h.1 (by decide)
  | builtin hx =>
    cases hq <;> simp only [parts, List.cons_append, List.nil_append, List.cons.injEq, reduceCtorEq,
      and_false, and_true] at h
    case item hm _ => exact absurd (hmodule h.1.symm) hm.2.2
    case module => exact absurd h.1 (by decide)
    case builtin => rw [h.2]

/-- **Paths of different forms have different written forms.** -/
theorem text_injective {p q : SymbolPath} (hp : p.Formed) (hq : q.Formed) (h : p.text = q.text) :
    p = q := by
  have hlists := congrArg String.toList h
  rw [toList_text, toList_text] at hlists
  have hparts := joinParts_injective (List.forall_mem_map.2 (colon_not_mem_parts hp))
    (List.forall_mem_map.2 (colon_not_mem_parts hq)) (by simpa using p.parts_ne_nil)
    (by simpa using q.parts_ne_nil) hlists
  exact parts_injective hp hq (List.map_injective_iff.2 (fun _ _ => String.toList_injective) hparts)

end SymbolPath

end Xref
