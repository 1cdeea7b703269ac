import Xref.Text.Hidden
import Xref.Text.Utf8

/-!
# Quoted texts

A quoted text stands between double quotes. Inside it double quotes, backslashes and the usual
control characters are written with a backslash, and characters without a shape of their own by
number. A file path is quoted like a text, except that it may hold bytes that are no characters.
-/

namespace Xref.Text

/-- How a quoted text shows a character by number. -/
def showNumber (c : Char) : String :=
  "\\u\x7b" ++ String.ofList (Nat.toDigits 16 c.toNat) ++ "\x7d"

/-- How a quoted text shows a character. -/
def quoteChar (c : Char) : String :=
  if c = '\x00' then "\\0"
  else if c = '\t' then "\\t"
  else if c = '\r' then "\\r"
  else if c = '\n' then "\\n"
  else if c = '"' then "\\\""
  else if c = '\\' then "\\\\"
  else if isHidden c then showNumber c
  else String.singleton c

/-- A text in quotes. -/
def quote (text : String) : String := "\"" ++ String.join (text.toList.map quoteChar) ++ "\""

/-- How the quoted form of a file path shows a byte that is no character: by two digits. -/
def showByte (b : UInt8) : String :=
  "\\x" ++ String.ofList ((Nat.toDigits 16 (b.toNat / 16) ++ Nat.toDigits 16 (b.toNat % 16)).map
    Char.toUpper)

/-- How the quoted form of a file path shows a part of it. -/
def quotePart : Decoded → String
  | .char c => quoteChar c
  | .broken bytes => String.join (bytes.map showByte)

/-- The bytes of a file path in quotes. -/
def quoteBytes (bytes : List UInt8) : String :=
  "\"" ++ String.join ((decode bytes).map quotePart) ++ "\""

end Xref.Text
