import Treewalk.Tree.Basic

/-!
Values. Numbers, texts and arrays are what they hold; functions, classes and instances live in a heap and are known by
their place in it.
-/

namespace Treewalk

/-- The place of a frame in a heap. -/
structure FrameId where
  index : Nat
deriving DecidableEq, Repr

/-- The place of a function in a heap. -/
structure ClosureId where
  index : Nat
deriving DecidableEq, Repr

/-- The place of a class in a heap. -/
structure ClassId where
  index : Nat
deriving DecidableEq, Repr

/-- The place of an instance in a heap. -/
structure InstanceId where
  index : Nat
deriving DecidableEq, Repr

/-- How many arguments a function takes. -/
inductive Arity where
  | exactly (count : Nat)
  | any
deriving DecidableEq, Repr

namespace Arity

/-- The function takes the given number of arguments. -/
def accepts : Arity → Nat → Bool
  | exactly n, count => n == count
  | any, _ => true

/-- The number of arguments in words. -/
def text : Arity → String
  | exactly n => toString n
  | any => "any number of"

end Arity

/-- What a native function does. A function of the host is known by its place in the host's list. -/
inductive Primitive where
  | clock
  | max
  | min
  | len
  | substr
  | concat
  | split
  | replace
  | readWord
  | host (index : Nat)
deriving DecidableEq, Repr

/-- A native function. -/
structure Native where
  name : String
  arity : Arity
  primitive : Primitive
deriving DecidableEq, Repr

/-- Values. -/
inductive Value where
  | nil
  | bool (value : Bool)
  | number (value : Float)
  | string (text : String)
  | array (items : List Value)
  | closure (id : ClosureId)
  | native (function : Native)
  | classValue (id : ClassId)
  | object (id : InstanceId)

namespace Value

/-- The value of a constant. -/
def ofLiteral : Literal → Value
  | .number value => number value
  | .string text => string text
  | .bool value => bool value
  | .nil => nil

/-- The name of the type of a value. -/
def typeName : Value → String
  | nil => "nil"
  | bool _ => "boolean"
  | number _ => "number"
  | string _ => "string"
  | array _ => "array"
  | closure _ => "function"
  | native _ => "function"
  | classValue _ => "class"
  | object _ => "instance"

/-- Everything but `nil` and `false` counts as true. -/
def truthy : Value → Bool
  | nil => false
  | bool b => b
  | _ => true

mutual

/-- Equality of values: by content for data, by place for what lives in the heap, by name for native functions. A
number that is not one differs from itself. -/
def equal : Value → Value → Bool
  | nil, nil => true
  | bool a, bool b => a == b
  | number a, number b => a == b
  | string a, string b => a == b
  | array a, array b => allEqual a b
  | closure a, closure b => a == b
  | native a, native b => a.name == b.name
  | classValue a, classValue b => a == b
  | object a, object b => a == b
  | _, _ => false

/-- Equality of values one by one. -/
def allEqual : List Value → List Value → Bool
  | [], [] => true
  | a :: as, b :: bs => equal a b && allEqual as bs
  | _, _ => false

end

end Value

end Treewalk
