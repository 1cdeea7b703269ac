/-!
# Bytes that should be UTF-8

Bytes are read as characters as far as they can be. What cannot be read is kept as broken runs: the
longest start of a character that is there, or one byte that starts none.
-/

namespace Xref.Text

/-- The UTF-8 bytes of a list of characters. -/
def encode (cs : List Char) : List UInt8 := cs.flatMap String.utf8EncodeChar

/-- Whether `b` goes on a character. -/
def isTail (b : UInt8) : Bool := 0x80 ≤ b && b ≤ 0xBF

/-- Whether `b` can come second in a character that starts with `a` and has three or four bytes. -/
def isSecond (a b : UInt8) : Bool :=
  if a == 0xE0 then 0xA0 ≤ b && b ≤ 0xBF
  else if a == 0xED then 0x80 ≤ b && b ≤ 0x9F
  else if a == 0xF0 then 0x90 ≤ b && b ≤ 0xBF
  else if a == 0xF4 then 0x80 ≤ b && b ≤ 0x8F
  else isTail b

/-- The character whose bits are the low bits of `a`, below `high`, and six bits of every byte of
`tail`. -/
def assemble (a high : UInt8) (tail : List UInt8) : Char :=
  Char.ofNat <| tail.foldl (fun n b => n * 64 + (b.toNat - 0x80)) (a.toNat % high.toNat)

/-- A character, or the bytes in a place where none can be read. -/
inductive Decoded where
  | char (c : Char)
  | broken (bytes : List UInt8)
  deriving DecidableEq, Repr

/-- Reads what starts with the byte `a`. The number counts the bytes of `rest` that belong to it. -/
def decodeOne (a : UInt8) (rest : List UInt8) : Decoded × Nat :=
  if a < 0x80 then (.char (Char.ofNat a.toNat), 0)
  else if 0xC2 ≤ a && a ≤ 0xDF then
    match rest with
    | b :: _ => if isTail b then (.char (assemble a 0x20 [b]), 1) else (.broken [a], 0)
    | [] => (.broken [a], 0)
  else if 0xE0 ≤ a && a ≤ 0xEF then
    match rest with
    | b :: more =>
      if isSecond a b then
        match more with
        | c :: _ =>
          if isTail c then (.char (assemble a 0x10 [b, c]), 2) else (.broken [a, b], 1)
        | [] => (.broken [a, b], 1)
      else (.broken [a], 0)
    | [] => (.broken [a], 0)
  else if 0xF0 ≤ a && a ≤ 0xF4 then
    match rest with
    | b :: more =>
      if isSecond a b then
        match more with
        | c :: last =>
          if isTail c then
            match last with
            | d :: _ =>
              if isTail d then (.char (assemble a 0x08 [b, c, d]), 3) else (.broken [a, b, c], 2)
            | [] => (.broken [a, b, c], 2)
          else (.broken [a, b], 1)
        | [] => (.broken [a, b], 1)
      else (.broken [a], 0)
    | [] => (.broken [a], 0)
  else (.broken [a], 0)

/-- Reads bytes as characters as far as they can be. -/
def decode : List UInt8 → List Decoded
  | [] => []
  | a :: rest =>
    let found := decodeOne a rest
    found.1 :: decode (rest.drop found.2)
termination_by bytes => bytes.length
decreasing_by
  simp only [List.length_drop, List.length_cons]
  omega

/-- The character that was read, if one was. -/
def Decoded.char? : Decoded → Option Char
  | .char c => some c
  | .broken _ => none

/-- The text of bytes that are UTF-8 throughout. -/
def decode? (bytes : List UInt8) : Option String :=
  ((decode bytes).mapM Decoded.char?).map String.ofList

/-- The text of bytes, with one replacement character for every run that cannot be read. -/
def decodeLossy (bytes : List UInt8) : String :=
  String.ofList ((decode bytes).map fun part => part.char?.getD '\ufffd')

end Xref.Text
