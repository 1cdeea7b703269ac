/-!
# Bytes and UTF-16 units of a text

Offsets into a text count UTF-8 bytes, columns of a line count UTF-16 code units. Both are sums
over the characters, so everything here works on a list of characters. The main operation is
`cut?`, which divides a text at a byte offset and refuses an offset inside a character.
-/

namespace Xref.Text

/-- The number of UTF-8 bytes that several characters take. -/
def byteLength : List Char → Nat
  | [] => 0
  | c :: cs => c.utf8Size + byteLength cs

/-- The number of UTF-16 code units of `c`: two outside the basic plane, else one. -/
def unitsOf (c : Char) : Nat := if c.toNat < 0x10000 then 1 else 2

/-- The number of UTF-16 code units that several characters take. -/
def unitLength : List Char → Nat
  | [] => 0
  | c :: cs => unitsOf c + unitLength cs

@[simp] theorem byteLength_nil : byteLength [] = 0 := rfl

@[simp] theorem byteLength_cons (c : Char) (cs : List Char) :
    byteLength (c :: cs) = c.utf8Size + byteLength cs := rfl

@[simp] theorem byteLength_append (as bs : List Char) :
    byteLength (as ++ bs) = byteLength as + byteLength bs := by
  induction as with
  | nil => simp
  | cons c cs ih => simp [ih, Nat.add_assoc]

@[simp] theorem unitLength_nil : unitLength [] = 0 := rfl

@[simp] theorem unitLength_cons (c : Char) (cs : List Char) :
    unitLength (c :: cs) = unitsOf c + unitLength cs := rfl

@[simp] theorem unitLength_append (as bs : List Char) :
    unitLength (as ++ bs) = unitLength as + unitLength bs := by
  induction as with
  | nil => simp
  | cons c cs ih => simp [ih, Nat.add_assoc]

/-! ## Cutting at a byte offset -/

/-- Divides `cs` after its first `n` bytes. There is no answer if `n` lies past the end or inside
a character. -/
def cut? : List Char → Nat → Option (List Char × List Char)
  | cs, 0 => some ([], cs)
  | [], _ + 1 => none
  | c :: cs, n + 1 =>
    if c.utf8Size ≤ n + 1 then
      (cut? cs (n + 1 - c.utf8Size)).map fun parts => (c :: parts.1, parts.2)
    else none

/-- The characters from byte `start` to byte `stop`, if both are character boundaries. -/
def slice? (cs : List Char) (start stop : Nat) : Option (List Char) :=
  if start ≤ stop then
    (cut? cs start).bind fun parts => (cut? parts.2 (stop - start)).map (·.1)
  else none

/-- Puts `new` in the place of the bytes from `start` to `stop`, if both are character
boundaries. -/
def splice? (cs : List Char) (start stop : Nat) (new : List Char) : Option (List Char) :=
  if start ≤ stop then
    (cut? cs start).bind fun parts =>
      (cut? parts.2 (stop - start)).map fun inner => parts.1 ++ new ++ inner.2
  else none

@[simp] theorem cut?_zero (cs : List Char) : cut? cs 0 = some ([], cs) := by
  cases cs <;> rfl

/-- **A cut loses nothing:** the two parts make up the text, and the first has the length asked
for. -/
theorem cut?_eq_some_iff {cs as bs : List Char} {n : Nat} :
    cut? cs n = some (as, bs) ↔ cs = as ++ bs ∧ byteLength as = n := by
  induction cs generalizing n as bs with
  | nil =>
    cases n with
    | zero => cases as <;> simp [eq_comm]
    | succ n => cases as <;> simp [cut?]
  | cons c cs ih =>
    have hpos := c.utf8Size_pos
    cases n with
    | zero =>
      cases as with
      | nil => simp [eq_comm]
      | cons a as => have := a.utf8Size_pos; simp; omega
    | succ n =>
      unfold cut?
      cases as with
      | nil => split <;> simp
      | cons a as =>
        have ha := a.utf8Size_pos
        split
        · rename_i hle
          simp only [Option.map_eq_some_iff, Prod.exists, Prod.mk.injEq, List.cons.injEq, ih,
            List.cons_append, byteLength_cons]
          constructor
          · rintro ⟨as', bs', ⟨rfl, hlen⟩, ⟨rfl, rfl⟩, rfl⟩
            exact ⟨⟨rfl, rfl⟩, by omega⟩
          · rintro ⟨⟨rfl, rfl⟩, hlen⟩
            exact ⟨as, bs, ⟨rfl, by omega⟩, ⟨rfl, rfl⟩, rfl⟩
        · rename_i hlt
          simp only [reduceCtorEq, List.cons_append, List.cons.injEq, byteLength_cons, false_iff]
          rintro ⟨⟨rfl, rfl⟩, hlen⟩
          omega

/-- A text cut at the end of its first part falls into its parts. -/
@[simp] theorem cut?_append (as bs : List Char) :
    cut? (as ++ bs) (byteLength as) = some (as, bs) :=
  cut?_eq_some_iff.2 ⟨rfl, rfl⟩

/-- A piece of a text lies between what is before it and what is behind it. -/
theorem slice?_eq_some_iff {cs ds : List Char} {start stop : Nat} :
    slice? cs start stop = some ds ↔
      ∃ as bs, cs = as ++ (ds ++ bs) ∧ byteLength as = start ∧ start + byteLength ds = stop := by
  constructor
  · intro h
    unfold slice? at h
    split at h
    · rename_i hle
      obtain ⟨⟨as, rest⟩, hfirst, h⟩ := Option.bind_eq_some_iff.1 h
      obtain ⟨⟨ds, bs⟩, hsecond, rfl⟩ := Option.map_eq_some_iff.1 h
      obtain ⟨rfl, hstart⟩ := cut?_eq_some_iff.1 hfirst
      obtain ⟨rfl, hlength⟩ := cut?_eq_some_iff.1 hsecond
      exact ⟨as, bs, rfl, hstart, by rw [hlength]; omega⟩
    · cases h
  · rintro ⟨as, bs, rfl, rfl, rfl⟩
    rw [slice?, if_pos (Nat.le_add_right _ _), cut?_append, Option.bind_some,
      Nat.add_sub_cancel_left, cut?_append, Option.map_some]

end Xref.Text
