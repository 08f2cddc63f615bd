import Treewalk.Heap.Class
import Treewalk.Number.Text
import Treewalk.Text.Quoted

/-!
Values as text: as a program prints them, and as they are described to those who look into a heap.
-/

namespace Treewalk

namespace Heap

/-- The name of a function. -/
def closureName (h : Heap) (id : ClosureId) : String :=
  ((h.closure? id).map (·.routine.name.lexeme)).getD ""

/-- The name of a class. -/
def className (h : Heap) (id : ClassId) : String :=
  ((h.class? id).map (·.name)).getD ""

/-- The name of the class of an instance. -/
def instanceClassName (h : Heap) (id : InstanceId) : String :=
  ((h.instance? id).map fun i => h.className i.classId).getD ""

end Heap

mutual

/-- A value as a program prints it. -/
def Value.text (h : Heap) : Value → String
  | .nil => "nil"
  | .bool b => if b then "true" else "false"
  | .number n => Number.valueText n
  | .string s => s
  | .array items => "[" ++ String.intercalate ", " (Value.texts h items) ++ "]"
  | .closure id => "<fn " ++ h.closureName id ++ ">"
  | .native f => "<native fn " ++ f.name ++ ">"
  | .classValue id => "<class " ++ h.className id ++ ">"
  | .object id => "<" ++ h.instanceClassName id ++ " instance>"

/-- Values as a program prints them. -/
def Value.texts (h : Heap) : List Value → List String
  | [] => []
  | v :: rest => v.text h :: Value.texts h rest

end

namespace Value

/-- A record in a description: its name and its fields. -/
def record (name : String) (fields : List (String × String)) : String :=
  name ++ " \x7b " ++ String.intercalate ", " (fields.map fun (key, value) => key ++ ": " ++ value) ++ " \x7d"

/-- A list of names in a description. -/
def nameList (names : List String) : String :=
  "[" ++ String.intercalate ", " (names.map Text.quoteDescription) ++ "]"

/-- A truth value in a description. -/
def flag (b : Bool) : String :=
  if b then "true" else "false"

/-- The description of a function, a class or an instance, which never goes into what it refers to. -/
def description? (h : Heap) : Value → Option String
  | closure id =>
    (h.closure? id).map fun f =>
      "Function(" ++ record "LoxFunction"
        [("name", Text.quoteDescription f.routine.name.lexeme), ("arity", toString f.arity),
         ("is_initializer", flag f.isInitializer)] ++ ")"
  | native f => some ("Native(<native fn " ++ f.name ++ ">)")
  | classValue id =>
    (h.class? id).map fun c =>
      let superclass :=
        match c.superclass with
        | none => "None"
        | some parent => "Some(" ++ Text.quoteDescription (h.className parent) ++ ")"
      "Class(" ++ record "LoxClass"
        [("name", Text.quoteDescription c.name), ("superclass", superclass), ("methods", nameList c.methods.names)]
        ++ ")"
  | object id =>
    (h.instance? id).map fun i =>
      "Instance(" ++ record "LoxInstance"
        [("class", Text.quoteDescription (h.className i.classId)), ("fields", nameList i.fields.names)] ++ ")"
  | _ => none

end Value

end Treewalk
