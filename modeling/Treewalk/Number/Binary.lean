/-!
The exact content of a double: its sign and its magnitude `mantissa * 2 ^ exponent`, read off the bits, and the way
back, from a ratio of naturals to the nearest double. Everything is exact arithmetic on naturals.
-/

namespace Treewalk.Number

/-- The rational `mantissa * 2 ^ exponent`. -/
structure Magnitude where
  mantissa : Nat
  exponent : Int
deriving DecidableEq, Repr

namespace Magnitude

/-- Numerator of the magnitude as a ratio of naturals. -/
def numerator (m : Magnitude) : Nat :=
  m.mantissa * Nat.pow 2 m.exponent.toNat

/-- Denominator of the magnitude as a ratio of naturals: a power of two. -/
def denominator (m : Magnitude) : Nat :=
  Nat.pow 2 (-m.exponent).toNat

/-- The magnitude without its fraction. -/
def floor (m : Magnitude) : Nat :=
  m.numerator / m.denominator

/-- The magnitude is a natural number. -/
def isWhole (m : Magnitude) : Bool :=
  m.numerator % m.denominator == 0

end Magnitude

/-- What the bits of a double stand for. -/
inductive Exact where
  | nan
  | infinite (negative : Bool)
  | finite (negative : Bool) (magnitude : Magnitude)
deriving DecidableEq, Repr

/-- Bits of a double, as a natural, split into sign, exponent field and fraction. -/
def exactOfBits (bits : Nat) : Exact :=
  let negative := bits / Nat.pow 2 63 % 2 == 1
  let field : Nat := bits / Nat.pow 2 52 % Nat.pow 2 11
  let fraction := bits % Nat.pow 2 52
  if field = 2047 then
    if fraction = 0 then .infinite negative else .nan
  else if field = 0 then
    .finite negative ⟨fraction, -1074⟩
  else
    .finite negative ⟨Nat.pow 2 52 + fraction, (field : Int) - 1075⟩

/-- The exact content of a double. -/
def exact (x : Float) : Exact :=
  exactOfBits x.toBits.toNat

/-- A quotient rounded to the nearest natural; a half goes to the even neighbour. -/
def roundDiv (num den : Nat) : Nat :=
  let quotient := num / den
  let rest := 2 * (num % den)
  if rest < den then quotient
  else if den < rest then quotient + 1
  else quotient + quotient % 2

/-- The greatest `k` with `2 ^ k ≤ num / den`, for positive `num` and `den`. -/
def floorLog2 (num den : Nat) : Int :=
  let k : Int := (num.log2 : Int) - den.log2
  if den * Nat.pow 2 k.toNat ≤ num * Nat.pow 2 (-k).toNat then k else k - 1

/-- Bits of positive infinity; those of every finite positive double are below. -/
def infinityBits : Nat := 2047 * Nat.pow 2 52

/-- Bits of the non-negative double nearest to `num / den`. The mantissa keeps 53 bits, or as many as stand above the
least exponent; one that rounds up to the next power of two carries into the exponent field by itself. -/
def nearestBits (num den : Nat) : Nat :=
  if num = 0 then 0
  else
    let exponent := max (floorLog2 num den - 52) (-1074)
    let mantissa := roundDiv (num * Nat.pow 2 (-exponent).toNat) (den * Nat.pow 2 exponent.toNat)
    min infinityBits ((exponent + 1074).toNat * Nat.pow 2 52 + mantissa)

/-- The double nearest to `num / den`, with the given sign. -/
def nearest (negative : Bool) (num den : Nat) : Float :=
  let x := Float.ofBits (UInt64.ofNat (nearestBits num den))
  if negative then -x else x

/-- A number without its fraction. It keeps its sign, also when it becomes a zero. -/
def truncate (x : Float) : Float :=
  match exact x with
  | .finite negative m => nearest negative m.floor 1
  | _ => x

/-- The integer that a finite double becomes when its fraction is dropped. -/
def integerPart? (x : Float) : Option Int :=
  match exact x with
  | .finite negative m => some (if negative then -(m.floor : Int) else m.floor)
  | _ => none

/-- The integer that a double is, if it is one. -/
def toInt? (x : Float) : Option Int :=
  match exact x with
  | .finite negative m =>
    if m.isWhole then some (if negative then -(m.floor : Int) else m.floor) else none
  | _ => none

end Treewalk.Number
