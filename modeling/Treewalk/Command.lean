import Treewalk.Files
import Treewalk.Prompt
import Treewalk.Token.Printer
import Treewalk.Tree.Printer

/-!
The command line: a source can be listed as tokens, printed as trees or run, and a prompt can be opened.
-/

namespace Treewalk

/-- What the command line asks for. -/
inductive Command where
  | tokenize (file? : Option String) (asData : Bool)
  | parse (file? : Option String)
  | run (file? : Option String)
  | prompt
deriving DecidableEq, Repr

/-- A command line that was understood: the command, and whether a log is wanted. -/
structure Invocation where
  command : Command
  log : Bool
deriving DecidableEq, Repr

namespace Invocation

/-- The words behind the name of a command, sorted: those that stand for themselves, and how often each flag stands. -/
structure Words where
  names : List String := []
  logs : Nat := 0
  datas : Nat := 0

/-- Sorts the words. Behind two dashes every word stands for itself; there is no answer for an unknown flag. -/
def sortWords (onlyNames : Bool) (w : Words) : List String → Option Words
  | [] => some w
  | word :: rest =>
    if onlyNames then sortWords true { w with names := w.names ++ [word] } rest
    else if word == "--" then sortWords true w rest
    else if word == "--log" then sortWords false { w with logs := w.logs + 1 } rest
    else if word == "--json" then sortWords false { w with datas := w.datas + 1 } rest
    else if word.length > 1 && word.toList.head? == some '-' then none
    else sortWords false { w with names := w.names ++ [word] } rest

/-- The command with the given name, the names behind it and the flag for data. -/
def commandOf (name : String) (names : List String) (asData : Bool) : Option Command :=
  match name, names, asData with
  | "tokenize", [], _ => some (.tokenize none asData)
  | "tokenize", [file], _ => some (.tokenize (some file) asData)
  | "parse", [], false => some (.parse none)
  | "parse", [file], false => some (.parse (some file))
  | "run", [], false => some (.run none)
  | "run", [file], false => some (.run (some file))
  | "repl", [], false => some .prompt
  | _, _, _ => none

/-- Understands a command line. The flag for the log may stand once before the name of the command and once behind it,
the flag for data once behind it, and no name is empty. -/
def ofArguments (arguments : List String) : Option Invocation :=
  let logs := (arguments.takeWhile (· == "--log")).length
  match arguments.dropWhile (· == "--log") with
  | [] => none
  | name :: rest => do
    let w ← sortWords false {} rest
    if 1 < logs ∨ 1 < w.logs ∨ 1 < w.datas ∨ "" ∈ w.names then none
    else
      let command ← commandOf name w.names (w.datas == 1)
      return ⟨command, 0 < logs + w.logs⟩

end Invocation

namespace Command

/-- What is said if no file is named. -/
def noFile : Transcript :=
  { stdout := "No input filepath was provided. Exiting...\n" }

/-- What is said if a command line is not understood. -/
def usage : Transcript :=
  { stderr := "Usage: tokenize [FILE] [--json] | parse [FILE] | run [FILE] | repl\n", exitCode := 2 }

/-- What is said if a file cannot be read. -/
def unreadable (name : String) (fault : FileFault) : Transcript :=
  { stderr := failureText (fault.action ++ Text.quoteDescription name) fault.cause, exitCode := 1 }

/-- Texts as lines. -/
def textLines (texts : List String) : String :=
  String.join (texts.map (· ++ "\n"))

/-- Lists the tokens of a source. -/
def tokenListing (source : List UInt8) (asData : Bool) : Transcript :=
  let items := Token.scan source
  let tokens := Token.good items
  let errors := LexError.all items
  { stdout := if asData then Token.listData tokens ++ "\n" else textLines (tokens.map (·.text))
    stderr := textLines (errors.map (·.diagnostic.text))
    exitCode := if errors.isEmpty then 0 else 65 }

/-- Prints the trees of a source, or what is wrong with it. -/
def treeListing (source : List UInt8) : Transcript :=
  match ({} : Session).parse source with
  | (some statements, diagnostics, _) =>
    { stdout := textLines (statements.map (·.text)), stderr := diagnostics.lines }
  | (none, diagnostics, _) => { stderr := diagnostics.lines, exitCode := diagnostics.exitCode }

/-- Runs a source on a machine. -/
def programRun (steps : Nat) (machine : Machine) (source : List UInt8) : Option Transcript :=
  match Session.run steps { machine } source with
  | none => none
  | some (diagnostics, s) =>
    some
      { stdout := s.machine.sink.text
        stderr := diagnostics.lines
        exitCode := diagnostics.exitCode }

/-- Does something with the content of a file, if it is named and can be read. -/
def withFile (read : String → Except FileFault (List UInt8)) (file? : Option String)
    (action : List UInt8 → Option Transcript) : Option Transcript :=
  match file? with
  | none => some noFile
  | some name =>
    match read name with
    | .error fault => some (unreadable name fault)
    | .ok content => action content

/-- Carries out a command with the given files, on a machine with the given channels. -/
def perform (steps : Nat) (read : String → Except FileFault (List UInt8)) (machine : Machine) :
    Command → Option Transcript
  | .tokenize file? asData => withFile read file? fun source => some (tokenListing source asData)
  | .parse file? => withFile read file? fun source => some (treeListing source)
  | .run file? => withFile read file? fun source => programRun steps machine source
  | .prompt => Prompt.run steps { machine }

/-- The command may take lines of input, given whether its file was found. -/
def readsInput (found : Bool) : Command → Bool
  | .run _ => found
  | .prompt => true
  | _ => false

/-- The file that a command reads. -/
def file? : Command → Option String
  | .tokenize file? _ => file?
  | .parse file? => file?
  | .run file? => file?
  | .prompt => none

end Command

end Treewalk
