import Xref.Grammar.Production
import Xref.Proofs.Syntax.Derivations

/-!
# Rules at the front of lexemes

A production takes lexemes from the front of a list. So a rule is read the same way: it reads what
it derives and leaves a rest (`Reads`), and each form of rule has its own reading. What can come
first (`Reads.first`) is a computation on rules, and so is whether a test of the next lexeme finds a
rule (`Reads.atAny`) or tells it from others (`Reads.not_atAny`).

A phrase is clean if nothing that the parser expected is missing and nothing is invalid.
-/

namespace Xref

/-! ## Clean phrases -/

mutual

/-- Whether nothing in a phrase is missing or invalid. -/
def Phrase.IsClean : Phrase → Prop
  | ⟨kind, slots⟩ => kind ≠ .invalid ∧ partsClean slots

/-- Whether nothing in several slots is missing or invalid. -/
def partsClean : List Part → Prop
  | [] => True
  | .node q :: rest => q.IsClean ∧ partsClean rest
  | .token _ :: rest => partsClean rest
  | .missing :: _ => False

end

@[simp] theorem partsClean_append {ps qs : List Part} :
    partsClean (ps ++ qs) ↔ partsClean ps ∧ partsClean qs := by
  induction ps with
  | nil => simp [partsClean]
  | cons p ps ih => cases p <;> simp [partsClean, ih, and_assoc]

/-! ## Reading -/

/-- Whether a rule derives the lexemes at the front of `ls` that lie before `rest`. -/
def Reads (r : Rule) (ls rest : List Lexeme) : Prop :=
  ∃ as, ls = as ++ rest ∧ Derives r (as.map Lexeme.terminal)

/-- Whether the next lexeme is as one of the patterns asks. -/
def atAny (ps : List Pattern) : Lookahead := next fun l => ps.any (·.fits l.terminal)

section
variable {r a b : Rule} {ls mid rest : List Lexeme} {p : Pattern} {ps qs : List Pattern}

/-- A rule reads all lexemes if it derives them. -/
theorem reads_nil : Reads r ls [] ↔ Derives r (ls.map Lexeme.terminal) := by
  constructor
  · rintro ⟨as, rfl, h⟩
    rwa [List.append_nil]
  · exact fun h => ⟨ls, (List.append_nil ls).symm, h⟩

@[simp] theorem reads_token :
    Reads (.token p) ls rest ↔ ∃ l, ls = l :: rest ∧ p.fits l.terminal := by
  constructor
  · rintro ⟨as, rfl, h⟩
    generalize hts : as.map Lexeme.terminal = ts at h
    cases h with
    | token h =>
      obtain ⟨l, rfl, rfl⟩ := List.map_eq_singleton_iff.1 hts
      exact ⟨l, rfl, h⟩
  · rintro ⟨l, rfl, h⟩
    exact ⟨[l], rfl, .token h⟩

theorem reads_the {n : Nonterminal} : Reads (.the n) ls rest ↔ Reads n.rule ls rest := by
  constructor
  · rintro ⟨as, rfl, h⟩
    cases h with
    | the h => exact ⟨as, rfl, h⟩
  · rintro ⟨as, rfl, h⟩
    exact ⟨as, rfl, .the h⟩

@[simp] theorem reads_empty : Reads .empty ls rest ↔ ls = rest := by
  constructor
  · rintro ⟨as, rfl, h⟩
    generalize hts : as.map Lexeme.terminal = ts at h
    cases h with
    | empty =>
      rw [List.map_eq_nil_iff.1 hts, List.nil_append]
  · rintro rfl
    exact ⟨[], rfl, .empty⟩

@[simp] theorem not_reads_never : ¬ Reads .never ls rest := by
  rintro ⟨as, -, h⟩
  cases h

@[simp] theorem reads_seq :
    Reads (.seq a b) ls rest ↔ ∃ mid, Reads a ls mid ∧ Reads b mid rest := by
  constructor
  · rintro ⟨as, rfl, h⟩
    generalize hts : as.map Lexeme.terminal = ts at h
    cases h with
    | seq ha hb =>
      obtain ⟨bs, cs, rfl, rfl, rfl⟩ := List.map_eq_append_iff.1 hts
      exact ⟨cs ++ rest, ⟨bs, by rw [List.append_assoc], ha⟩, cs, rfl, hb⟩
  · rintro ⟨_, ⟨bs, rfl, ha⟩, cs, rfl, hb⟩
    exact ⟨bs ++ cs, by rw [List.append_assoc], by rw [List.map_append]; exact .seq ha hb⟩

@[simp] theorem reads_alt : Reads (.alt a b) ls rest ↔ Reads a ls rest ∨ Reads b ls rest := by
  constructor
  · rintro ⟨as, rfl, h⟩
    cases h with
    | left h => exact .inl ⟨as, rfl, h⟩
    | right h => exact .inr ⟨as, rfl, h⟩
  · rintro (⟨as, rfl, h⟩ | ⟨as, rfl, h⟩)
    · exact ⟨as, rfl, .left h⟩
    · exact ⟨as, rfl, .right h⟩

@[simp] theorem reads_optional : Reads r.optional ls rest ↔ Reads r ls rest ∨ ls = rest :=
  reads_alt.trans (or_congr_right reads_empty)

@[simp] theorem reads_row_nil : Reads (.row []) ls rest ↔ ls = rest := reads_empty

@[simp] theorem reads_row_cons {rs : List Rule} : Reads (.row (r :: rs)) ls rest ↔
    ∃ mid, Reads r ls mid ∧ Reads (.row rs) mid rest := reads_seq

theorem reads_row_append {rs rs' : List Rule} : Reads (.row (rs ++ rs')) ls rest ↔
    ∃ mid, Reads (.row rs) ls mid ∧ Reads (.row rs') mid rest := by
  induction rs generalizing ls with
  | nil => simp
  | cons r rs ih =>
    simp only [List.cons_append, reads_row_cons, ih]
    exact ⟨fun ⟨m, hr, mid, hrs, hrs'⟩ => ⟨mid, ⟨m, hr, hrs⟩, hrs'⟩,
      fun ⟨mid, ⟨m, hr, hrs⟩, hrs'⟩ => ⟨m, hr, mid, hrs, hrs'⟩⟩

/-- A row that may be left out is there or not. -/
theorem reads_row_optional {rs rs' : List Rule} :
    Reads (.row (.optional (.row rs) :: rs')) ls rest ↔
      Reads (.row (rs ++ rs')) ls rest ∨ Reads (.row rs') ls rest := by
  simp [reads_row_append, or_and_right, exists_or]

@[simp] theorem reads_oneOf_nil : ¬ Reads (.oneOf []) ls rest := not_reads_never

@[simp] theorem reads_oneOf_cons {rs : List Rule} : Reads (.oneOf (r :: rs)) ls rest ↔
    Reads r ls rest ∨ Reads (.oneOf rs) ls rest := reads_alt

theorem Reads.star_nil : Reads (.star a) rest rest := ⟨[], rfl, .none⟩

theorem Reads.star_cons (h : Reads a ls mid) (hs : Reads (.star a) mid rest) :
    Reads (.star a) ls rest := by
  obtain ⟨as, rfl, h⟩ := h
  obtain ⟨bs, rfl, hs⟩ := hs
  exact ⟨as ++ bs, by rw [List.append_assoc], by rw [List.map_append]; exact .more h hs⟩

/-- What is read again and again is read by rounds. -/
theorem Reads.star_induction {motive : List Lexeme → Prop} (h : Reads (.star a) ls rest)
    (nil : motive rest)
    (cons : ∀ ls mid, Reads a ls mid → Reads (.star a) mid rest → motive mid → motive ls) :
    motive ls := by
  obtain ⟨as, rfl, h⟩ := h
  generalize hr : Rule.star a = r at h
  generalize hts : as.map Lexeme.terminal = ts at h
  induction h generalizing as with
  | none =>
    rw [List.map_eq_nil_iff.1 hts]
    exact nil
  | more ha hs _ ih =>
    cases hr
    obtain ⟨bs, cs, rfl, rfl, rfl⟩ := List.map_eq_append_iff.1 hts
    rw [List.append_assoc]
    exact cons _ _ ⟨bs, rfl, ha⟩ ⟨cs, rfl, hs⟩ (ih cs rfl rfl)
  | _ => cases hr

theorem reads_star : Reads (.star a) ls rest ↔
    ls = rest ∨ ∃ mid, Reads a ls mid ∧ Reads (.star a) mid rest := by
  constructor
  · intro h
    exact h.star_induction
      (motive := fun ls => ls = rest ∨ ∃ mid, Reads a ls mid ∧ Reads (.star a) mid rest)
      (.inl rfl) fun ls mid ha hs _ => .inr ⟨mid, ha, hs⟩
  · rintro (rfl | ⟨mid, ha, hs⟩)
    · exact .star_nil
    · exact ha.star_cons hs

theorem Reads.star_append (h : Reads (.star a) ls mid) (hs : Reads (.star a) mid rest) :
    Reads (.star a) ls rest :=
  h.star_induction (motive := fun ls => Reads (.star a) ls rest) hs fun _ _ ha _ ih =>
    ha.star_cons ih

theorem Reads.star_mono (h : Reads (.star a) ls rest)
    (hab : ∀ ls rest, Reads a ls rest → Reads b ls rest) : Reads (.star b) ls rest :=
  h.star_induction (motive := fun ls => Reads (.star b) ls rest) .star_nil fun ls mid ha _ ih =>
    (hab ls mid ha).star_cons ih

/-! ### First lexemes -/

theorem Reads.length_le (h : Reads r ls rest) : rest.length ≤ ls.length := by
  obtain ⟨as, rfl, -⟩ := h
  rw [List.length_append]
  exact Nat.le_add_left _ _

/-- What is read starts with what comes first. -/
theorem Reads.first (h : Reads r ls rest) : ls = rest ∧ r.nullable ∨ atAny r.first ls := by
  obtain ⟨as, rfl, h⟩ := h
  obtain ⟨hnil, hnull⟩ | ⟨t, us, hts, p, hp, ht⟩ := h.first
  · rw [List.map_eq_nil_iff.1 hnil]
    exact .inl ⟨rfl, hnull⟩
  · obtain ⟨l, as, rfl, rfl, -⟩ := List.map_eq_cons_iff.1 hts
    exact .inr (List.any_eq_true.2 ⟨p, hp, ht⟩)

theorem Reads.length_lt (h : Reads r ls rest) (hr : r.nullable = false) :
    rest.length < ls.length := by
  obtain ⟨as, rfl, h⟩ := h
  obtain ⟨-, hnull⟩ | ⟨t, us, hts, -⟩ := h.first
  · rw [hr] at hnull
    cases hnull
  · have hlength := congrArg List.length hts
    rw [List.length_map, List.length_cons] at hlength
    rw [List.length_append]
    omega

theorem atAny_mono (h : ps ⊆ qs) (hls : atAny ps ls) : atAny qs ls := by
  cases ls with
  | nil => cases hls
  | cons l ls =>
    obtain ⟨p, hp, ht⟩ := List.any_eq_true.1 hls
    exact List.any_eq_true.2 ⟨p, h hp, ht⟩

/-- Whether no terminal is as a pattern of either list asks. -/
def Pattern.allApart (ps qs : List Pattern) : Bool := ps.all fun p => qs.all p.apart

theorem not_atAny_of_allApart (h : Pattern.allApart ps qs) (hls : atAny ps ls) :
    ¬ atAny qs ls := by
  intro hls'
  cases ls with
  | nil => cases hls
  | cons l ls =>
    obtain ⟨p, hp, ht⟩ := List.any_eq_true.1 hls
    obtain ⟨q, hq, ht'⟩ := List.any_eq_true.1 hls'
    exact Pattern.not_fits_of_apart (List.all_eq_true.1 (List.all_eq_true.1 h p hp) q hq) ht ht'

/-- Whether a rule stands for something, and that starts as one of the patterns asks. -/
def Rule.begins (r : Rule) (ps : List Pattern) : Bool :=
  !r.nullable && r.first.all (· ∈ ps)

/-- Whether a rule stands for something, and that starts as none of the patterns asks. -/
def Rule.avoids (r : Rule) (ps : List Pattern) : Bool :=
  !r.nullable && Pattern.allApart r.first ps

theorem Rule.begins_token (p : Pattern) : (Rule.token p).begins [p] := by
  simp [begins, nullable, first]

theorem Reads.atAny (h : Reads r ls rest) (hr : r.begins ps) : atAny ps ls := by
  obtain ⟨hnull, hfirst⟩ := Bool.and_eq_true_iff.1 hr
  obtain ⟨-, hnull'⟩ | hls := h.first
  · rw [hnull'] at hnull
    cases hnull
  · exact atAny_mono (fun p hp => of_decide_eq_true (List.all_eq_true.1 hfirst p hp)) hls

theorem Reads.not_atAny (h : Reads r ls rest) (hr : r.avoids ps) : ¬ Xref.atAny ps ls := by
  obtain ⟨hnull, hapart⟩ := Bool.and_eq_true_iff.1 hr
  obtain ⟨-, hnull'⟩ | hls := h.first
  · rw [hnull'] at hnull
    cases hnull
  · exact not_atAny_of_allApart hapart hls

end

end Xref
