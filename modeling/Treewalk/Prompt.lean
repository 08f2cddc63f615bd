import Treewalk.Session

/-!
The prompt: lines of input are run one after another in a session, which reads its own input from the lines that
follow. A line that fails does not end the conversation; that its own text is refused does.
-/

namespace Treewalk

/-- What a command leaves: the two texts that it wrote and its exit code. -/
structure Transcript where
  stdout : String := ""
  stderr : String := ""
  exitCode : Nat := 0
deriving DecidableEq, Repr

/-- Diagnostics as lines. -/
def Diagnostics.lines (d : Diagnostics) : String :=
  String.join (d.all.map fun x => x.text ++ "\n")

/-- A failure of a command, with what caused it. -/
def failureText (what cause : String) : String :=
  "Error: " ++ what ++ "\n\nCaused by:\n    " ++ cause ++ "\n"

namespace Prompt

/-- What breaks a conversation off: a text of the prompt that is refused or not passed on, or a line that is not text. -/
inductive Fault where
  | unprinted (cause : String)
  | unflushed (cause : String)
  | unread (cause : String)
deriving DecidableEq, Repr

def Fault.text : Fault → String
  | unprinted cause => "failed printing to stdout: " ++ cause ++ "\n"
  | unflushed cause => failureText "Failed to flush stdout" cause
  | unread cause => failureText "Failed to read from stdin" cause

/-- A text that is refused stops the command on the spot, which has a code of its own. -/
def Fault.exitCode : Fault → Nat
  | unprinted _ => 101
  | unflushed _ | unread _ => 1

/-- What a conversation leaves that is broken off. -/
def brokenOff (s : Session) (stderr : String) (fault : Fault) : Transcript :=
  { stdout := s.machine.sink.text, stderr := stderr ++ fault.text, exitCode := fault.exitCode }

/-- What asks for a line. -/
def mark : String := "> "

/-- Asks for a line. -/
def ask (s : Session) : Session × Option Fault :=
  match s.emit mark with
  | (s, some cause) => (s, some (.unprinted cause))
  | (s, none) =>
    match s.flush with
    | (s, some cause) => (s, some (.unflushed cause))
    | (s, none) => (s, none)

/-- Ends the line of the mark behind which there was no input. -/
def close (s : Session) (stderr : String) : Transcript :=
  match s.emit "\n" with
  | (s, some cause) => brokenOff s stderr (.unprinted cause)
  | (s, none) => { stdout := s.machine.sink.text, stderr }

/-- Takes lines until the input ends, at most the given number of times. -/
def converse (steps : Nat) : Nat → Session → String → Option Transcript
  | 0, _, _ => none
  | rounds + 1, s, stderr =>
    match ask s with
    | (s, some fault) => some (brokenOff s stderr fault)
    | (s, none) =>
      let (line, input) := s.machine.input.takeLine
      let s := { s with machine := { s.machine with input } }
      match line with
      | .none => some (close s stderr)
      | .broken => some (brokenOff s stderr (.unread Input.notText))
      | .text line =>
        let source := Text.trim line
        if source.isEmpty then converse steps rounds s stderr
        else
          match Session.run steps s (Text.encode source) with
          | none => none
          | some (diagnostics, s) => converse steps rounds s (stderr ++ diagnostics.lines)

/-- The conversation of a session with its input. Each round takes a line, and one more finds the end. -/
def run (steps : Nat) (s : Session) : Option Transcript :=
  converse steps (s.machine.input.lines.length + 1) s ""

end Prompt

end Treewalk
