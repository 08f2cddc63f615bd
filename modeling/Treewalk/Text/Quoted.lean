import Treewalk.Text.Extender
import Treewalk.Text.Unprinted

/-!
Quoted text: the two ways in which a text is written between double quotes, in the data format for tokens and in the
description of a value.
-/

namespace Treewalk.Text

/-- A number in hexadecimal, with at least the given number of digits. -/
def hex (width n : Nat) : String :=
  let digits := Nat.toDigits 16 n
  String.ofList (List.replicate (width - digits.length) '0' ++ digits)

/-- A character of a quoted text in the data format: quotes, backslashes and control characters are escaped. -/
def escapeData (c : Char) : String :=
  match c with
  | '"' => "\\\""
  | '\\' => "\\\\"
  | '\n' => "\\n"
  | '\r' => "\\r"
  | '\t' => "\\t"
  | '\x08' => "\\b"
  | '\x0c' => "\\f"
  | _ => if c.toNat < 0x20 then "\\u" ++ hex 4 c.toNat else c.toString

/-- A quoted text in the data format. -/
def quoteData (text : String) : String :=
  "\"" ++ String.join (text.toList.map escapeData) ++ "\""

/-- The character can be written as it is: it shows, and it does so apart from its neighbours. -/
def standsAlone (c : Char) : Bool :=
  (0x20 ≤ c.toNat && c.toNat < 0x7F) || !(isExtender c || isUnprinted c)

/-- A character of a quoted text in a description: what does not stand alone is escaped by its number. -/
def escapeDescription (c : Char) : String :=
  match c with
  | '"' => "\\\""
  | '\\' => "\\\\"
  | '\n' => "\\n"
  | '\r' => "\\r"
  | '\t' => "\\t"
  | '\x00' => "\\0"
  | _ => if standsAlone c then c.toString else "\\u\x7b" ++ hex 1 c.toNat ++ "\x7d"

/-- A quoted text in a description. -/
def quoteDescription (text : String) : String :=
  "\"" ++ String.join (text.toList.map escapeDescription) ++ "\""

end Treewalk.Text
