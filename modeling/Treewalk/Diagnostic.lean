import Treewalk.Token.Basic

/-!
Diagnostics: what is reported about a program, with its text, and the collection that a run leaves. Advice is kept
apart from errors and decides nothing; the exit code tells whether the program was refused or failed while it ran.
-/

namespace Treewalk

/-- Where something stands in a list of tokens: the line, and the lexeme unless it is the end. -/
structure Place where
  line : Nat
  lexeme? : Option String
deriving DecidableEq, Repr

namespace Place

/-- The place of a token. -/
def ofToken (t : Token) : Place :=
  ⟨t.line, if t.isFinish then none else some t.lexeme⟩

/-- The place in words, behind a blank. -/
def words (p : Place) : String :=
  match p.lexeme? with
  | none => " at end"
  | some lexeme => " at '" ++ lexeme ++ "'"

end Place

/-- Something that is reported about a program. -/
inductive Diagnostic where
  /-- A stretch of the source that is no token. -/
  | lex (line : Nat) (message : String)
  /-- A token that does not fit the grammar. -/
  | parse (place : Place) (message : String)
  /-- A phrase without meaning where it stands. -/
  | resolve (place : Place) (message : String)
  /-- Advice: a local name that nothing refers to. -/
  | unusedVariable (name : String) (line : Nat)
  /-- Advice: a library that does not exist. -/
  | missingLibrary (path : String) (line : Nat)
  /-- A failure while the program ran. -/
  | runtime (line : Nat) (message : String)
  /-- A failure of the output behind the program. -/
  | io (message : String)
deriving DecidableEq, Repr

namespace Diagnostic

/-- The text of a report that has a line. -/
def atLine (line : Nat) (words : String) : String :=
  "[line " ++ toString line ++ "] " ++ words

/-- The text of a diagnostic. -/
def text : Diagnostic → String
  | lex line message => atLine line ("Error: " ++ message)
  | parse place message => atLine place.line ("Error" ++ place.words ++ ": " ++ message)
  | resolve place message => atLine place.line ("Error" ++ place.words ++ ": " ++ message)
  | unusedVariable name line => atLine line ("Warning: Variable <" ++ name ++ "> was never used.")
  | missingLibrary path line => atLine line ("Warning: Could not find library '" ++ path ++ "'.")
  | runtime line message => atLine line ("Runtime error: " ++ message)
  | io message => "I/O error: " ++ message

/-- The line of a diagnostic, if it has one. -/
def line? : Diagnostic → Option Nat
  | lex line _ => some line
  | parse place _ => some place.line
  | resolve place _ => some place.line
  | unusedVariable _ line => some line
  | missingLibrary _ line => some line
  | runtime line _ => some line
  | io _ => none

/-- The diagnostic is advice, which never keeps a program from running. -/
def isAdvice : Diagnostic → Bool
  | unusedVariable .. => true
  | missingLibrary .. => true
  | _ => false

/-- The diagnostic is a failure while the program ran. -/
def isRuntime : Diagnostic → Bool
  | runtime .. => true
  | _ => false

end Diagnostic

/-- The diagnostics of a run, in the order in which they were reported. -/
structure Diagnostics where
  errors : List Diagnostic := []
  warnings : List Diagnostic := []
deriving DecidableEq, Repr

namespace Diagnostics

/-- Adds a diagnostic to the list it belongs to. -/
def report (d : Diagnostics) (x : Diagnostic) : Diagnostics :=
  if x.isAdvice then { d with warnings := d.warnings ++ [x] } else { d with errors := d.errors ++ [x] }

/-- Adds diagnostics in their order. -/
def reportAll (d : Diagnostics) (xs : List Diagnostic) : Diagnostics :=
  ⟨d.errors ++ xs.filter (!·.isAdvice), d.warnings ++ xs.filter (·.isAdvice)⟩

/-- Some error was reported. -/
def hasErrors (d : Diagnostics) : Bool :=
  !d.errors.isEmpty

/-- Some error is a failure while the program ran. -/
def hadRuntimeError (d : Diagnostics) : Bool :=
  d.errors.any (·.isRuntime)

/-- Some error is not a failure while the program ran. -/
def hadStaticError (d : Diagnostics) : Bool :=
  d.errors.any (!·.isRuntime)

/-- The exit code: errors other than failures while the program ran come first. -/
def exitCode (d : Diagnostics) : Nat :=
  if d.hadStaticError then 65 else if d.hadRuntimeError then 70 else 0

/-- All diagnostics, the advice first. -/
def all (d : Diagnostics) : List Diagnostic :=
  d.warnings ++ d.errors

end Diagnostics

end Treewalk
