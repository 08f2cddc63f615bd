import Treewalk.Machine.Basic

/-!
What operators do to values.
-/

namespace Treewalk

namespace Operator

/-- An operator with one operand. -/
def unary (operator : Token) (right : Value) : Except RuntimeFault Value :=
  match operator.kind with
  | .symbol .minus =>
    match right with
    | .number n => .ok (.number (-n))
    | _ => .error .operandNotNumber
  | .symbol .bang => .ok (.bool (!right.truthy))
  | _ => .error (.invalidUnary operator.lexeme)

/-- An operator between two numbers. -/
def numeric (f : Float → Float → Value) (left right : Value) : Except RuntimeFault Value :=
  match left, right with
  | .number a, .number b => .ok (f a b)
  | _, _ => .error .operandsNotNumbers

/-- Adds numbers and joins texts; a number may follow a text. -/
def add (left right : Value) : Except RuntimeFault Value :=
  match left, right with
  | .number a, .number b => .ok (.number (a + b))
  | .string a, .string b => .ok (.string (a ++ b))
  | .string a, .number b => .ok (.string (a ++ Number.valueText b))
  | _, _ => .error .operandsNotAddable

/-- An operator with two operands. -/
def binary (operator : Token) (left right : Value) : Except RuntimeFault Value :=
  match operator.kind with
  | .symbol .plus => add left right
  | .symbol .minus => numeric (fun a b => .number (a - b)) left right
  | .symbol .star => numeric (fun a b => .number (a * b)) left right
  | .symbol .slash => numeric (fun a b => .number (a / b)) left right
  | .symbol .greater => numeric (fun a b => .bool (decide (b < a))) left right
  | .symbol .greaterEqual => numeric (fun a b => .bool (decide (b ≤ a))) left right
  | .symbol .less => numeric (fun a b => .bool (decide (a < b))) left right
  | .symbol .lessEqual => numeric (fun a b => .bool (decide (a ≤ b))) left right
  | .symbol .equalEqual => .ok (.bool (left.equal right))
  | .symbol .bangEqual => .ok (.bool (!left.equal right))
  | _ => .error (.invalidBinary operator.lexeme)

/-- The left operand of a logical operator decides: a true one for `or`, a false one otherwise. -/
def decides (operator : Token) (left : Value) : Bool :=
  if operator.is .kwOr then left.truthy else !left.truthy

/-- The item of an array at a position without its fraction. -/
def item (name : String) (target index : Value) : Except RuntimeFault Value :=
  match target with
  | .array items =>
    match index with
    | .number position =>
      match Number.integerPart? position with
      | some i =>
        match if 0 ≤ i then items[i.toNat]? else none with
        | some value => .ok value
        | none => .error (.indexOutOfBounds (Number.truncate position) items.length)
      | none => .error (.indexOutOfBounds (Number.truncate position) items.length)
    | _ => .error .indexNotNumber
  | _ => .error (.notArray name)

end Operator

/-- The result, or a failure at a line. -/
def Run.lift {α : Type} (result : Except RuntimeFault α) (line : Nat) : Run α :=
  match result with
  | .ok a => .pure a
  | .error fault => .fail line fault

end Treewalk
