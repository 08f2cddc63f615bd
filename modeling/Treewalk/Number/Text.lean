import Treewalk.Number.Decimal

/-!
The texts of numbers. Values are printed as integers where they are integers of moderate size, tokens and trees always
show a fraction, and all other numbers are written with the fewest digits that read back, without an exponent. Only
the data format for tokens uses exponents.
-/

namespace Treewalk.Number

/-- A decimal without an exponent: zeros fill the places up to the point. -/
def positional (d : Decimal) : String :=
  let digits := d.digits
  if 0 ≤ d.exponent then
    String.ofList (digits ++ List.replicate d.exponent.toNat '0')
  else
    let places := (-d.exponent).toNat
    let padded := List.replicate (places + 1 - digits.length) '0' ++ digits
    let whole := padded.length - places
    String.ofList (padded.take whole ++ '.' :: padded.drop whole)

/-- The sign of a number, which a negative zero has too. -/
def signText (negative : Bool) : String :=
  if negative then "-" else ""

/-- The fewest digits that read back, without an exponent. A tie goes up. -/
def shortestText (x : Float) : String :=
  match exact x with
  | .nan => "NaN"
  | .infinite negative => signText negative ++ "inf"
  | .finite negative m => signText negative ++ positional (m.shortest .up)

/-- Integers below this bound are written as integers. -/
def integerBound : Nat := Nat.pow 10 16

/-- The integer that a number is, if it is one of moderate size. -/
def moderateInt? (x : Float) : Option Int :=
  match toInt? x with
  | some i => if i.natAbs < integerBound then some i else none
  | none => none

/-- The text of an integer in decimal digits. -/
def integerText (i : Int) : String :=
  signText (i < 0) ++ String.ofList (Nat.toDigits 10 i.natAbs)

/-- The text of a number value: no fraction for moderate integers, and no sign for a zero. -/
def valueText (x : Float) : String :=
  match moderateInt? x with
  | some i => integerText i
  | none => shortestText x

/-- The text of a number in a token listing: moderate integers show the fraction `.0`. -/
def tokenText (x : Float) : String :=
  match moderateInt? x with
  | some i => integerText i ++ ".0"
  | none => shortestText x

/-- The text of a number in a tree: every integer is written out exactly, with the fraction `.0`. -/
def treeText (x : Float) : String :=
  match exact x with
  | .finite negative m =>
    if m.isWhole then signText negative ++ String.ofList (Nat.toDigits 10 m.floor) ++ ".0"
    else shortestText x
  | _ => shortestText x

/-- Digits with a point after the first, then the exponent with its sign. -/
def scientific (digits : List Char) (exponent : Int) : String :=
  let mantissa := match digits with
    | first :: rest => first :: (if rest.isEmpty then [] else '.' :: rest)
    | [] => []
  let sign := if exponent < 0 then "-" else "+"
  String.ofList mantissa ++ "e" ++ sign ++ String.ofList (Nat.toDigits 10 exponent.natAbs)

/-- The text of a number in the data format for tokens: the fewest digits that read back, positional with a fraction
from `1e-5` up to `1e16`, with an exponent outside, and `null` for what is not finite. A tie goes to even. -/
def dataText (x : Float) : String :=
  match exact x with
  | .finite negative m =>
    let d := m.shortest .toEven
    let top := d.exponent + d.digits.length - 1
    signText negative ++
      if d.coefficient = 0 then "0.0"
      else if top < -5 ∨ 16 ≤ top then scientific d.digits top
      else if 0 ≤ d.exponent then positional d ++ ".0"
      else positional d
  | _ => "null"

end Treewalk.Number
