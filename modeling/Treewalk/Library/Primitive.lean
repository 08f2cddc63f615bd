import Treewalk.Number.Text
import Treewalk.Text.Search
import Treewalk.Value.Basic

/-!
Native functions that depend on their arguments only.
-/

namespace Treewalk

/-- Why a native function fails. Arguments are counted from one. -/
inductive NativeFault where
  | missing (argument : Nat) (function : String)
  | notNumber (argument : Nat) (function type : String)
  | notString (argument : Nat) (function type : String)
  | notMeasurable (type : String)
  | substringRange (start finish : Float) (length : Nat)
  | unreadable (reason : String)
  | host (message : String)
deriving DecidableEq, Repr

/-- The wording of a fault. -/
def NativeFault.message : NativeFault → String
  | missing i f => "Missing argument " ++ toString i ++ " of '" ++ f ++ "'."
  | notNumber i f type => "Argument " ++ toString i ++ " of '" ++ f ++ "' must be a number, got " ++ type ++ "."
  | notString i f type => "Argument " ++ toString i ++ " of '" ++ f ++ "' must be a string, got " ++ type ++ "."
  | notMeasurable type => "Argument 1 of 'len' must be a string or an array, got " ++ type ++ "."
  | substringRange start finish length =>
    "Substring range " ++ Number.shortestText start ++ ".." ++ Number.shortestText finish
      ++ " out of bounds for string of length " ++ toString length ++ "."
  | unreadable reason => "Could not read input: " ++ reason
  | host message => message

namespace Native

/-- The number at a place among the arguments. -/
def number (arguments : List Value) (index : Nat) (function : String) : Except NativeFault Float :=
  match arguments[index]? with
  | some (.number n) => .ok n
  | some other => .error (.notNumber (index + 1) function other.typeName)
  | none => .error (.missing (index + 1) function)

/-- The text at a place among the arguments. -/
def text (arguments : List Value) (index : Nat) (function : String) : Except NativeFault String :=
  match arguments[index]? with
  | some (.string s) => .ok s
  | some other => .error (.notString (index + 1) function other.typeName)
  | none => .error (.missing (index + 1) function)

/-- The larger of two numbers; what is not a number gives way. -/
def larger (a b : Float) : Float :=
  if a.isNaN then b else if b.isNaN then a else if a < b then b else a

/-- The smaller of two numbers; what is not a number gives way. -/
def smaller (a b : Float) : Float :=
  if a.isNaN then b else if b.isNaN then a else if b < a then b else a

/-- The numbers among the arguments from a place on. -/
def numbersFrom (arguments : List Value) (function : String) (index : Nat) : Nat → Except NativeFault (List Float)
  | 0 => .ok []
  | count + 1 => do
    let first ← number arguments index function
    let rest ← numbersFrom arguments function (index + 1) count
    return first :: rest

/-- Picks one of at least one number. -/
def extremum (pick : Float → Float → Float) (function : String) (arguments : List Value) :
    Except NativeFault Value := do
  let first ← number arguments 0 function
  let rest ← numbersFrom arguments function 1 (arguments.length - 1)
  return .number (rest.foldl pick first)

/-- A count as a number. -/
def count (n : Nat) : Value :=
  .number (Number.nearest false n 1)

/-- The number of characters of a text, or of items of an array. -/
def len (arguments : List Value) : Except NativeFault Value :=
  match arguments with
  | .array items :: _ => .ok (count items.length)
  | .string s :: _ => .ok (count s.length)
  | other :: _ => .error (.notMeasurable other.typeName)
  | [] => .error (.missing 1 "len")

/-- A bound without its fraction. -/
inductive Bound where
  | nan
  | infinite (negative : Bool)
  | whole (value : Int)
deriving DecidableEq, Repr

namespace Bound

/-- The bound that a number gives. -/
def ofNumber (x : Float) : Bound :=
  match Number.exact x with
  | .nan => nan
  | .infinite negative => infinite negative
  | .finite negative m => whole (if negative then -(m.floor : Int) else m.floor)

/-- One bound lies below the other. What is not a number lies nowhere. -/
def below : Bound → Bound → Bool
  | nan, _ => false
  | _, nan => false
  | infinite a, infinite b => a && !b
  | infinite a, whole _ => a
  | whole _, infinite b => !b
  | whole a, whole b => a < b

end Bound

/-- The characters between two bounds. A bound that is not a number is nowhere out of range, and nothing lies
between it and another one. -/
def between (start finish : Bound) (chars : List Char) : List Char :=
  match start, finish with
  | .whole a, .whole b => (chars.drop a.toNat).take (b - a).toNat
  | _, _ => []

/-- The part of a text between two positions, each without its fraction. -/
def substr (arguments : List Value) : Except NativeFault Value := do
  let s ← text arguments 0 "substr"
  let start ← number arguments 1 "substr"
  let finish ← number arguments 2 "substr"
  let chars := s.toList
  let a := Bound.ofNumber start
  let b := Bound.ofNumber finish
  if a.below (.whole 0) || b.below a || Bound.below (.whole chars.length) b then
    .error (.substringRange (Number.truncate start) (Number.truncate finish) chars.length)
  else
    return .string (String.ofList (between a b chars))

/-- Two texts, one behind the other. -/
def concat (arguments : List Value) : Except NativeFault Value := do
  let a ← text arguments 0 "concat"
  let b ← text arguments 1 "concat"
  return .string (a ++ b)

/-- The pieces of a text between the occurrences of a separator. -/
def split (arguments : List Value) : Except NativeFault Value := do
  let s ← text arguments 0 "split"
  let separator ← text arguments 1 "split"
  return .array ((Text.split s separator).map .string)

/-- A text with each occurrence of a part replaced. -/
def replace (arguments : List Value) : Except NativeFault Value := do
  let s ← text arguments 0 "replace"
  let old ← text arguments 1 "replace"
  let new ← text arguments 2 "replace"
  return .string (Text.replace s old new)

end Native

end Treewalk
