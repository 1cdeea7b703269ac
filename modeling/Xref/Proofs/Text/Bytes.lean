import Mathlib.Data.List.Basic
import Xref.Text.Units
import Xref.Text.Utf8

/-!
# Texts and their bytes

The size of a text is the number of bytes of its characters. The bytes of a text are read as the same
text again (`decode?_encode`), and only they are (`encode_of_decode?`).
-/

namespace Xref.Text

/-! ## Sizes -/

theorem utf8ByteSize_ofList (cs : List Char) : (String.ofList cs).utf8ByteSize = byteLength cs := by
  induction cs with
  | nil => simp
  | cons c cs ih =>
    rw [← List.singleton_append, String.ofList_append, String.utf8ByteSize_append, ih,
      List.singleton_append, byteLength_cons]
    congr 1
    exact String.utf8ByteSize_singleton

theorem utf8ByteSize_eq (s : String) : s.utf8ByteSize = byteLength s.toList := by
  rw [← utf8ByteSize_ofList, String.ofList_toList]

theorem byteLength_pos {cs : List Char} (h : cs ≠ []) : 0 < byteLength cs := by
  obtain ⟨c, cs, rfl⟩ := List.exists_cons_of_ne_nil h
  have := c.utf8Size_pos
  rw [byteLength_cons]
  omega

/-- The size of characters that take `k` bytes each. -/
theorem byteLength_eq_mul {cs : List Char} {k : Nat} (h : ∀ c ∈ cs, c.utf8Size = k) :
    byteLength cs = cs.length * k := by
  induction cs with
  | nil => rw [byteLength_nil, List.length_nil, Nat.zero_mul]
  | cons c cs ih =>
    rw [List.forall_mem_cons] at h
    rw [byteLength_cons, ih h.2, h.1, List.length_cons, Nat.succ_mul, Nat.add_comm]

/-! ## Reading what was written -/

@[simp] theorem encode_nil : encode [] = [] := rfl

@[simp] theorem encode_cons (c : Char) (cs : List Char) :
    encode (c :: cs) = String.utf8EncodeChar c ++ encode cs := rfl

@[simp] theorem encode_append (cs ds : List Char) : encode (cs ++ ds) = encode cs ++ encode ds :=
  List.flatMap_append

/-! A byte in a certain range starts a character of a certain length. -/

section
variable {a b d e : UInt8} {rest : List UInt8}

theorem decodeOne_one (ha : a.toNat < 0x80) :
    decodeOne a rest = (.char (Char.ofNat a.toNat), 0) := by
  have hfirst : a < 0x80 := UInt8.lt_iff_toNat_lt.2 ha
  unfold decodeOne
  rw [if_pos hfirst]

theorem decodeOne_two (ha : 0xC2 ≤ a.toNat ∧ a.toNat ≤ 0xDF) (hb : isTail b) :
    decodeOne a (b :: rest) = (.char (assemble a 0x20 [b]), 1) := by
  have hfirst : ¬ a < 0x80 := by rw [UInt8.lt_iff_toNat_lt]; simp; omega
  have htwo : (0xC2 ≤ a && a ≤ 0xDF) = true := by
    simp only [Bool.and_eq_true, decide_eq_true_eq, UInt8.le_iff_toNat_le]; exact ha
  unfold decodeOne
  rw [if_neg hfirst, if_pos htwo]
  exact if_pos hb

theorem decodeOne_three (ha : 0xE0 ≤ a.toNat ∧ a.toNat ≤ 0xEF) (hb : isSecond a b)
    (hd : isTail d) :
    decodeOne a (b :: d :: rest) = (.char (assemble a 0x10 [b, d]), 2) := by
  have hfirst : ¬ a < 0x80 := by rw [UInt8.lt_iff_toNat_lt]; simp; omega
  have htwo : ¬ (0xC2 ≤ a && a ≤ 0xDF) = true := by
    simp [UInt8.lt_iff_toNat_lt]; omega
  have hthree : (0xE0 ≤ a && a ≤ 0xEF) = true := by
    simp only [Bool.and_eq_true, decide_eq_true_eq, UInt8.le_iff_toNat_le]; exact ha
  unfold decodeOne
  rw [if_neg hfirst, if_neg htwo, if_pos hthree]
  dsimp only
  rw [if_pos hb, if_pos hd]

theorem decodeOne_four (ha : 0xF0 ≤ a.toNat ∧ a.toNat ≤ 0xF4) (hb : isSecond a b)
    (hd : isTail d) (he : isTail e) :
    decodeOne a (b :: d :: e :: rest) = (.char (assemble a 0x08 [b, d, e]), 3) := by
  have hfirst : ¬ a < 0x80 := by rw [UInt8.lt_iff_toNat_lt]; simp; omega
  have htwo : ¬ (0xC2 ≤ a && a ≤ 0xDF) = true := by
    simp [UInt8.lt_iff_toNat_lt]; omega
  have hthree : ¬ (0xE0 ≤ a && a ≤ 0xEF) = true := by
    simp [UInt8.lt_iff_toNat_lt]; omega
  have hfour : (0xF0 ≤ a && a ≤ 0xF4) = true := by
    simp only [Bool.and_eq_true, decide_eq_true_eq, UInt8.le_iff_toNat_le]; exact ha
  unfold decodeOne
  rw [if_neg hfirst, if_neg htwo, if_neg hthree, if_pos hfour]
  dsimp only
  rw [if_pos hb, if_pos hd, if_pos he]

theorem isTail_iff : isTail b ↔ 0x80 ≤ b.toNat ∧ b.toNat ≤ 0xBF := by
  simp [isTail, UInt8.le_iff_toNat_le]

/-- The second byte is at least what the shortest form needs and at most what a code point can
have. -/
theorem isSecond_iff : isSecond a b ↔ (0x80 ≤ b.toNat ∧ b.toNat ≤ 0xBF) ∧
    (a.toNat = 0xE0 → 0xA0 ≤ b.toNat) ∧ (a.toNat = 0xED → b.toNat ≤ 0x9F) ∧
    (a.toNat = 0xF0 → 0x90 ≤ b.toNat) ∧ (a.toNat = 0xF4 → b.toNat ≤ 0x8F) := by
  simp only [isSecond, isTail, beq_iff_eq, ← UInt8.toNat_inj]
  split_ifs <;>
    simp only [Bool.and_eq_true, decide_eq_true_eq, UInt8.le_iff_toNat_le, UInt8.reduceToNat] at * <;>
    omega

end

/-- The bytes of a character are read as this character, whatever comes behind them. -/
theorem decodeOne_utf8EncodeChar (c : Char) (rest : List UInt8) :
    ∃ a tail, String.utf8EncodeChar c = a :: tail ∧
      decodeOne a (tail ++ rest) = (.char c, tail.length) := by
  have hv : c.val.toNat < 0xD800 ∨ 0xDFFF < c.val.toNat ∧ c.val.toNat < 0x110000 := c.valid
  have hc : Char.ofNat c.val.toNat = c := Char.ofNat_toNat c
  unfold String.utf8EncodeChar
  dsimp only
  generalize c.val.toNat = n at hv hc
  split_ifs with h₁ h₂ h₃
  · have ha := UInt8.toNat_ofNat_of_lt' (n := n) (by unfold UInt8.size; omega)
    refine ⟨_, _, rfl, ?_⟩
    rw [decodeOne_one (by omega), ha, hc]
    rfl
  · have ha := UInt8.toNat_ofNat_of_lt' (n := n / 64 % 32 + 192) (by unfold UInt8.size; omega)
    have hb := UInt8.toNat_ofNat_of_lt' (n := n % 64 + 128) (by unfold UInt8.size; omega)
    refine ⟨_, _, rfl, ?_⟩
    rw [List.singleton_append, decodeOne_two (by omega) (isTail_iff.2 (by omega)), assemble,
      List.foldl_cons, List.foldl_nil, ha, hb]
    have : (n / 64 % 32 + 192) % (0x20 : UInt8).toNat * 64 + (n % 64 + 128 - 128) = n := by
      simp; omega
    rw [this, hc]
    rfl
  · have ha := UInt8.toNat_ofNat_of_lt' (n := n / 4096 % 16 + 224) (by unfold UInt8.size; omega)
    have hb := UInt8.toNat_ofNat_of_lt' (n := n / 64 % 64 + 128) (by unfold UInt8.size; omega)
    have hd := UInt8.toNat_ofNat_of_lt' (n := n % 64 + 128) (by unfold UInt8.size; omega)
    refine ⟨_, _, rfl, ?_⟩
    rw [List.cons_append, List.singleton_append, decodeOne_three (by omega)
      (isSecond_iff.2 (by omega))
      (isTail_iff.2 (by omega)), assemble, List.foldl_cons, List.foldl_cons, List.foldl_nil,
      ha, hb, hd]
    have : ((n / 4096 % 16 + 224) % (0x10 : UInt8).toNat * 64 + (n / 64 % 64 + 128 - 128)) * 64 +
        (n % 64 + 128 - 128) = n := by
      simp; omega
    rw [this, hc]
    rfl
  · have ha := UInt8.toNat_ofNat_of_lt' (n := n / 262144 % 8 + 240) (by unfold UInt8.size; omega)
    have hb := UInt8.toNat_ofNat_of_lt' (n := n / 4096 % 64 + 128) (by unfold UInt8.size; omega)
    have hd := UInt8.toNat_ofNat_of_lt' (n := n / 64 % 64 + 128) (by unfold UInt8.size; omega)
    have he := UInt8.toNat_ofNat_of_lt' (n := n % 64 + 128) (by unfold UInt8.size; omega)
    refine ⟨_, _, rfl, ?_⟩
    rw [List.cons_append, List.cons_append, List.singleton_append, decodeOne_four (by omega)
      (isSecond_iff.2 (by omega))
      (isTail_iff.2 (by omega)) (isTail_iff.2 (by omega)), assemble, List.foldl_cons,
      List.foldl_cons, List.foldl_cons, List.foldl_nil, ha, hb, hd, he]
    have : (((n / 262144 % 8 + 240) % (0x08 : UInt8).toNat * 64 +
        (n / 4096 % 64 + 128 - 128)) * 64 + (n / 64 % 64 + 128 - 128)) * 64 +
        (n % 64 + 128 - 128) = n := by
      simp; omega
    rw [this, hc]
    rfl

theorem decode_encode (cs : List Char) : decode (encode cs) = cs.map Decoded.char := by
  induction cs with
  | nil => simp [decode]
  | cons c cs ih =>
    obtain ⟨a, tail, henc, hdec⟩ := decodeOne_utf8EncodeChar c (encode cs)
    rw [encode_cons, henc, List.cons_append, decode, hdec, List.drop_left, ih, List.map_cons]

/-- The bytes of a text are read as this text. -/
theorem decode?_encode (cs : List Char) : decode? (encode cs) = some (String.ofList cs) := by
  have hread : (cs.map Decoded.char).mapM Decoded.char? = some cs := by
    induction cs with
    | nil => rfl
    | cons c cs ih => simp [List.mapM_cons, ih, Decoded.char?]
  rw [decode?, decode_encode, hread, Option.map_some]

theorem encode_injective {cs ds : List Char} (h : encode cs = encode ds) : cs = ds := by
  have := congrArg decode? h
  rw [decode?_encode, decode?_encode, Option.some.injEq, String.ofList_inj] at this
  exact this

/-! ## Bytes that can be read -/

section
variable {a b : UInt8} {rest : List UInt8} {c : Char} {n : Nat}

/-- The bytes of the character with a code point. -/
theorem utf8EncodeChar_ofNat (h : n < 0xD800 ∨ 0xDFFF < n ∧ n < 0x110000) :
    String.utf8EncodeChar (Char.ofNat n) =
      if n ≤ 0x7F then [UInt8.ofNat n]
      else if n ≤ 0x7FF then [UInt8.ofNat (n / 64 % 32 + 192), UInt8.ofNat (n % 64 + 128)]
      else if n ≤ 0xFFFF then [UInt8.ofNat (n / 4096 % 16 + 224), UInt8.ofNat (n / 64 % 64 + 128),
        UInt8.ofNat (n % 64 + 128)]
      else [UInt8.ofNat (n / 262144 % 8 + 240), UInt8.ofNat (n / 4096 % 64 + 128),
        UInt8.ofNat (n / 64 % 64 + 128), UInt8.ofNat (n % 64 + 128)] := by
  have hvalid : n.isValidChar := h
  have hn : (Char.ofNat n).val.toNat = n := by rw [Char.ofNat, dif_pos hvalid]; rfl
  unfold String.utf8EncodeChar
  rw [hn]

theorem ofNat_eq (h : n = b.toNat) : UInt8.ofNat n = b := by rw [h, UInt8.ofNat_toNat]

/-- The bytes that are read as a character are its bytes. -/
theorem encode_of_decodeOne (h : decodeOne a rest = (.char c, n)) :
    String.utf8EncodeChar c ++ rest.drop n = a :: rest := by
  unfold decodeOne at h
  repeat' split at h
  all_goals simp only [Prod.mk.injEq, Decoded.char.injEq, reduceCtorEq, false_and] at h
  -- Four forms are left. In each the bounds on the bytes say that the code point is valid.
  all_goals
    obtain ⟨rfl, rfl⟩ := h
    simp only [assemble, isTail_iff, isSecond_iff, Bool.and_eq_true, decide_eq_true_eq,
      UInt8.le_iff_toNat_le, UInt8.lt_iff_toNat_lt, UInt8.reduceToNat, List.foldl_cons,
      List.foldl_nil] at *
    rw [utf8EncodeChar_ofNat (by omega)]
  · rw [if_pos (by omega), ofNat_eq rfl]
    rfl
  · rename_i b _ _ _ _
    rw [if_neg (by omega), if_pos (by omega), ofNat_eq (b := a) (by omega),
      ofNat_eq (b := b) (by omega)]
    rfl
  · rename_i b _ d _ _ _ _ _ _
    rw [if_neg (by omega), if_neg (by omega), if_pos (by omega), ofNat_eq (b := a) (by omega),
      ofNat_eq (b := b) (by omega), ofNat_eq (b := d) (by omega)]
    rfl
  · rename_i b _ d _ e _ _ _ _ _ _ _ _
    rw [if_neg (by omega), if_neg (by omega), if_neg (by omega), ofNat_eq (b := a) (by omega),
      ofNat_eq (b := b) (by omega), ofNat_eq (b := d) (by omega), ofNat_eq (b := e) (by omega)]
    rfl

end

/-- Bytes that are read as a text are the bytes of this text. -/
theorem encode_of_decode? {bs : List UInt8} {s : String} (h : decode? bs = some s) :
    encode s.toList = bs := by
  obtain ⟨cs, hcs, rfl⟩ := Option.map_eq_some_iff.1 h
  rw [String.toList_ofList]
  clear h
  induction bs using decode.induct generalizing cs with
  | case1 =>
    rw [decode] at hcs
    cases hcs
    rfl
  | case2 a rest found ih =>
    rw [decode, List.mapM_cons] at hcs
    obtain ⟨c, hc, hcs⟩ := Option.bind_eq_some_iff.1 hcs
    obtain ⟨ds, hds, hcs⟩ := Option.bind_eq_some_iff.1 hcs
    cases hcs
    have hfirst : decodeOne a rest = (.char c, found.2) := by
      refine Prod.ext ?_ rfl
      cases hread : (decodeOne a rest).1 with
      | char d =>
        rw [hread] at hc
        cases hc
        rfl
      | broken bytes =>
        rw [hread] at hc
        cases hc
    rw [encode_cons, ih ds hds, encode_of_decodeOne hfirst]

end Xref.Text
