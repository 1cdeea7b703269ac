/-!
# Blank characters

The characters that Unicode calls white space, and the words between them.
-/

namespace Xref.Text

/-- The code points with the Unicode property White_Space. -/
def blankPoints : List Nat :=
  [0x9, 0xA, 0xB, 0xC, 0xD, 0x20, 0x85, 0xA0, 0x1680, 0x2000, 0x2001, 0x2002, 0x2003, 0x2004,
    0x2005, 0x2006, 0x2007, 0x2008, 0x2009, 0x200A, 0x2028, 0x2029, 0x202F, 0x205F, 0x3000]

/-- Whether `c` is white space. -/
def isBlank (c : Char) : Bool := blankPoints.contains c.toNat

/-- The words of a text: its longest runs of characters that are not blank. -/
def words (cs : List Char) : List (List Char) :=
  (cs.splitBy fun a b => isBlank a == isBlank b).filter fun run => !run.any isBlank

/-- The words of a text with one space between them. -/
def collapse (text : String) : String :=
  String.intercalate " " ((words text.toList).map String.ofList)

end Xref.Text
