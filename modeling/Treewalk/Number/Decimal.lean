import Treewalk.Number.Binary

/-!
Decimals `coefficient * 10 ^ exponent`: how one is read as a double, and which one stands for a double. The shortest
decimal of a double is the one with the fewest digits that reads back as that double.
-/

namespace Treewalk.Number

/-- The decimal `coefficient * 10 ^ exponent`. -/
structure Decimal where
  coefficient : Nat
  exponent : Int
deriving DecidableEq, Repr

namespace Decimal

/-- Numerator of the decimal as a ratio of naturals. -/
def numerator (d : Decimal) : Nat :=
  d.coefficient * Nat.pow 10 d.exponent.toNat

/-- Denominator of the decimal as a ratio of naturals: a power of ten. -/
def denominator (d : Decimal) : Nat :=
  Nat.pow 10 (-d.exponent).toNat

/-- Bits of the double nearest to the decimal. -/
def bits (d : Decimal) : Nat :=
  nearestBits d.numerator d.denominator

/-- The double nearest to the decimal. -/
def toFloat (d : Decimal) : Float :=
  nearest false d.numerator d.denominator

/-- The digits of the coefficient, most significant first. -/
def digits (d : Decimal) : List Char :=
  Nat.toDigits 10 d.coefficient

/-- Moves the zeros at the end of the coefficient into the exponent, at most `rounds` of them. -/
def trim (d : Decimal) : Nat → Decimal
  | 0 => d
  | rounds + 1 =>
    if d.coefficient ≠ 0 ∧ d.coefficient % 10 = 0 then
      trim ⟨d.coefficient / 10, d.exponent + 1⟩ rounds
    else d

end Decimal

/-- Which of two decimals stands for a number that lies in the middle between them: the upper one, or the one with an
even last digit. -/
inductive Tie where
  | up
  | toEven
deriving DecidableEq, Repr

namespace Magnitude

/-- The exact decimal of a magnitude: a negative power of two is a negative power of ten times a power of five. -/
def toDecimal (m : Magnitude) : Decimal :=
  if 0 ≤ m.exponent then ⟨m.mantissa * Nat.pow 2 m.exponent.toNat, 0⟩
  else ⟨m.mantissa * Nat.pow 5 (-m.exponent).toNat, m.exponent⟩

/-- The greatest `k` with `10 ^ k` not above the magnitude, for a positive one. The estimate from the binary logarithm
is off by at most one. -/
def floorLog10 (m : Magnitude) : Int :=
  let num := m.numerator
  let den := m.denominator
  let guess := floorLog2 num den * 30103 / 100000
  if num * Nat.pow 10 (-guess).toNat < den * Nat.pow 10 guess.toNat then guess - 1
  else if den * Nat.pow 10 (guess + 1).toNat ≤ num * Nat.pow 10 (-(guess + 1)).toNat then guess + 1
  else guess

/-- The grid of decimals with the given exponent has two neighbours of the magnitude. Of those that read back as
`target` the nearer is taken; `tie` decides if they are equally near. -/
def neighbour? (m : Magnitude) (tie : Tie) (target : Nat) (exponent : Int) : Option Decimal :=
  let num := m.numerator * Nat.pow 10 (-exponent).toNat
  let den := m.denominator * Nat.pow 10 exponent.toNat
  let lower : Decimal := ⟨num / den, exponent⟩
  let upper : Decimal := ⟨num / den + 1, exponent⟩
  let lowerFits := lower.bits == target
  let upperFits := upper.bits == target
  if lowerFits && upperFits then
    let rest := 2 * (num % den)
    if rest < den || (rest == den && tie == .toEven && lower.coefficient % 2 == 0) then some lower else some upper
  else if lowerFits then some lower
  else if upperFits then some upper
  else none

/-- The decimal with the fewest digits that reads back as the same double. Seventeen digits always do; the exact
decimal stands behind them as a last resort. -/
def shortest (m : Magnitude) (tie : Tie) : Decimal :=
  if m.mantissa = 0 then ⟨0, 0⟩
  else
    let target := nearestBits m.numerator m.denominator
    let top := m.floorLog10
    match (List.range 17).findSome? fun k : Nat => m.neighbour? tie target (top - k) with
    | some d => d.trim 17
    | none => m.toDecimal

end Magnitude

end Treewalk.Number
