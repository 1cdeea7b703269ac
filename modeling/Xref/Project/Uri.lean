import Xref.Project.FilePath

/-!
# File URIs

A path becomes a URI component by component: bytes that a URI cannot hold as they are, or that would
read as something else, are written with a percent sign and two digits. Going back undoes that for
every URI with a path whose host is absent, empty or `localhost`.
-/

namespace Xref

/-- A URI in normal form. -/
structure Uri where
  text : String
  deriving DecidableEq, Repr, Inhabited

namespace Uri

/-! ## Bytes as characters of a URI -/

/-- The visible ASCII characters that a path component cannot hold as they are. -/
def reserved : List Char := ['"', '<', '>', '`', '#', '?', '\x7b', '\x7d', '/', '%', '\\']

/-- Whether a path component can hold a byte as it is. -/
def isPlain (b : UInt8) : Bool :=
  0x20 < b && b < 0x7F && !reserved.contains (Char.ofNat b.toNat)

/-- A hexadecimal digit in upper case. -/
def hexDigit (n : Nat) : Char := (Nat.digitChar n).toUpper

/-- The value of a hexadecimal digit in either case. -/
def hexValue? (b : UInt8) : Option Nat :=
  let n := b.toNat
  if 0x30 ≤ n ∧ n ≤ 0x39 then some (n - 0x30)
  else if 0x41 ≤ n ∧ n ≤ 0x46 then some (n - 0x41 + 10)
  else if 0x61 ≤ n ∧ n ≤ 0x66 then some (n - 0x61 + 10)
  else none

/-- The characters that stand for a byte in a path component. -/
def escapeByte (b : UInt8) : List Char :=
  if isPlain b then [Char.ofNat b.toNat]
  else ['%', hexDigit (b.toNat / 16), hexDigit (b.toNat % 16)]

/-- The characters that stand for a list of bytes in a path component. -/
def escape (bytes : List UInt8) : List Char := bytes.flatMap escapeByte

/-- The byte that two digits at the front of a list of bytes stand for. -/
def digits? : List UInt8 → Option UInt8
  | b :: c :: _ =>
    match hexValue? b, hexValue? c with
    | some m, some n => some (UInt8.ofNat (16 * m + n))
    | _, _ => none
  | _ => none

/-- The bytes that a list of bytes stands for: a percent sign with two digits is one byte. -/
def unescape : List UInt8 → List UInt8
  | [] => []
  | a :: rest =>
    match if a = 0x25 then digits? rest else none with
    | some b => b :: unescape (rest.drop 2)
    | none => a :: unescape rest
termination_by bytes => bytes.length
decreasing_by
  · simp only [List.length_drop, List.length_cons]
    omega
  · exact Nat.lt_succ_self _

/-! ## From paths and back -/

/-- The URI of an absolute path. -/
def ofFile? (p : FilePath) : Option Uri :=
  if p.isAbsolute then
    let steps := p.components.drop 1
    let path := if steps = [] then ['/'] else steps.flatMap fun step => '/' :: escape step.bytes
    some ⟨"file://" ++ String.ofList path⟩
  else none

/-- Whether `c` ends the authority of a URI. -/
def endsAuthority (c : Char) : Bool := c == '/' || c == '?' || c == '#'

/-- Whether `c` ends the path of a URI. -/
def endsPath (c : Char) : Bool := c == '?' || c == '#'

/-- The host in an authority: what comes after a user name and before a colon. -/
def hostOf (authority : List Char) : List Char :=
  let host := if authority.contains '@' then
      (authority.reverse.takeWhile (· != '@')).reverse
    else authority
  host.takeWhile (· != ':')

/-- The path of a URI as written, and the host. A path that would read as an authority is written
after a slash and a dot. -/
def hostAndPath (u : Uri) : List Char × List Char :=
  match (u.text.toList.dropWhile (· != ':')).drop 1 with
  | '/' :: '/' :: rest =>
    (hostOf (rest.takeWhile (!endsAuthority ·)),
      (rest.dropWhile (!endsAuthority ·)).takeWhile (!endsPath ·))
  | '/' :: '.' :: '/' :: '/' :: rest => ([], '/' :: '/' :: rest.takeWhile (!endsPath ·))
  | rest => ([], rest.takeWhile (!endsPath ·))

/-- Whether a path ends in the letter of a drive, which takes a slash after it. -/
def endsInDrive (bytes : List UInt8) : Bool :=
  match bytes.reverse with
  | a :: b :: _ :: _ => (a == 0x3A || a == 0x7C) && (Char.ofNat b.toNat).isAlpha
  | _ => false

/-- The path that a URI stands for. -/
def toFile? (u : Uri) : Option FilePath :=
  let (host, path) := u.hostAndPath
  if path.head? = some '/' ∧ (host = [] ∨ host = "localhost".toList) then
    let bytes := unescape (Text.encode path)
    some ⟨if endsInDrive bytes then bytes ++ [PathComponent.slash] else bytes⟩
  else none

/-- The URI with a given text. The host `localhost` of a file URI is not written. -/
def ofText (text : String) : Uri :=
  let local_ := "file://localhost/"
  if local_.toList.isPrefixOf text.toList then
    ⟨"file:///" ++ String.ofList (text.toList.drop local_.length)⟩
  else ⟨text⟩

/-- Order by text. -/
def compare (u v : Uri) : Ordering := Ord.compare u.text v.text

end Uri

end Xref
