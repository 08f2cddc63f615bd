import Treewalk.Token.Basic

/-!
What can be wrong with a list of tokens, where, and how it is worded.
-/

namespace Treewalk

/-- The two kinds of named routines. -/
inductive RoutineKind where
  | function
  | method
deriving DecidableEq, Repr

/-- The word for a kind of routine. -/
def RoutineKind.word : RoutineKind → String
  | function => "function"
  | method => "method"

/-- What the grammar asks for at a place where something else stands. -/
inductive Expected where
  | className
  | superclassName
  | classBody
  | classEnd
  | routineName (kind : RoutineKind)
  | parameterList (kind : RoutineKind)
  | routineBody (kind : RoutineKind)
  | lambdaParameters
  | parameterName
  | parametersEnd
  | variableName
  | variableEnd
  | libraryPath
  | libraryEnd
  | forClauses
  | loopConditionEnd
  | forClausesEnd
  | printEnd
  | expressionEnd
  | ifCondition
  | ifConditionEnd
  | whileCondition
  | whileConditionEnd
  | breakEnd
  | returnEnd
  | blockEnd
  | ternaryColon
  | propertyName
  | argumentsEnd
  | globalName
  | indexEnd
  | groupEnd
  | expression
  | literal
  | arrayEnd
deriving DecidableEq, Repr

/-- What is asked for, in words. -/
def Expected.words : Expected → String
  | className => "class name"
  | superclassName => "superclass name"
  | classBody => "'\x7b' before class body"
  | classEnd => "'\x7d' after class body"
  | routineName kind => kind.word ++ " name"
  | parameterList kind => "'(' after " ++ kind.word ++ " name"
  | routineBody kind => "'\x7b' before " ++ kind.word ++ " body"
  | lambdaParameters => "'(' after 'fun'"
  | parameterName => "parameter name"
  | parametersEnd => "')' after parameters"
  | variableName => "variable name"
  | variableEnd => "';' after variable declaration"
  | libraryPath => "library path after 'use'"
  | libraryEnd => "';' after library path"
  | forClauses => "'(' after 'for'"
  | loopConditionEnd => "';' after loop condition"
  | forClausesEnd => "')' after for clauses"
  | printEnd => "';' after value"
  | expressionEnd => "';' after expression"
  | ifCondition => "'(' after 'if'"
  | ifConditionEnd => "')' after if condition"
  | whileCondition => "'(' after 'while'"
  | whileConditionEnd => "')' after condition"
  | breakEnd => "';' after 'break'"
  | returnEnd => "';' after return value"
  | blockEnd => "'\x7d' after block"
  | ternaryColon => "':' in ternary expression"
  | propertyName => "property name after '.'"
  | argumentsEnd => "')' after arguments"
  | globalName => "variable name after 'global'"
  | indexEnd => "']' after index"
  | groupEnd => "')' after expression"
  | expression => "expression"
  | literal => "literal value"
  | arrayEnd => "']' after array literal"

/-- Why a list of tokens is not a program. -/
inductive ParseFault where
  | expected (what : Expected)
  | tooManyParameters
  | tooManyArguments
  | assignmentTarget
deriving DecidableEq, Repr

/-- The wording of a fault. -/
def ParseFault.message : ParseFault → String
  | expected what => "Expect " ++ what.words ++ "."
  | tooManyParameters => "Can't have more than 255 parameters."
  | tooManyArguments => "Can't have more than 255 arguments."
  | assignmentTarget => "Invalid assignment target."

/-- A fault and the token at which it was found. -/
structure ParseError where
  token : Token
  fault : ParseFault
deriving DecidableEq, Repr

end Treewalk
