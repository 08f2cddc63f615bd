import Treewalk.Text.Range

/-!
White space in text: the characters with the Unicode property `White_Space`, trimming and the first word of a line.
-/

namespace Treewalk.Text

/-- The ranges of characters that are white space, in order. -/
def blankRanges : List (Nat × Nat) :=
  [(0x09, 0x0D), (0x20, 0x20), (0x85, 0x85), (0xA0, 0xA0), (0x1680, 0x1680), (0x2000, 0x200A), (0x2028, 0x2029),
   (0x202F, 0x202F), (0x205F, 0x205F), (0x3000, 0x3000)]

/-- The character is white space. -/
def isBlank (c : Char) : Bool :=
  inRanges blankRanges c.toNat

/-- Removes what satisfies `p` at both ends. -/
def strip (p : Char → Bool) (cs : List Char) : List Char :=
  ((cs.dropWhile p).reverse.dropWhile p).reverse

/-- A text without the white space at its ends. -/
def trim (text : String) : String :=
  String.ofList (strip isBlank text.toList)

/-- The first word of a text, if it has one. -/
def firstWord? (text : String) : Option String :=
  match (text.toList.dropWhile isBlank).takeWhile fun c => !isBlank c with
  | [] => none
  | word => some (String.ofList word)

end Treewalk.Text
