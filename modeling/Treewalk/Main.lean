import Std.Time.DateTime.Timestamp
import Treewalk.Command

/-!
The program: it reads its arguments, its file and its input, and writes what the command leaves.
-/

namespace Treewalk

/-- The steps granted to a program: more than can be taken. -/
def unlimited : Nat := Nat.pow 2 62

/-- The content of a file. -/
def readFile (name : String) : IO (Except FileFault (List UInt8)) :=
  try
    let content ← IO.FS.readBinFile name
    return .ok content.toList
  catch
    | .inappropriateType _ 21 _ => return .error .folder
    | .inappropriateType .. => return .error .insideFile
    | .invalidArgument .. => return .error .nameTooLong
    | .permissionDenied .. => return .error .denied
    | _ => return .error .missing

/-- All of the input. -/
def readInput : IO (List UInt8) := do
  let stdin ← IO.getStdin
  let bytes ← stdin.readBinToEnd
  return bytes.toList

/-- A clock that starts at the given time and moves on by a microsecond with each reading. -/
def clockFrom (microseconds : Nat) : Clock :=
  { reading := fun n => Number.nearest false (microseconds + n) 1000000 }

/-- Microseconds since the start of 1970. -/
def microsecondsNow : IO Nat := do
  let now ← Std.Time.Timestamp.now
  return now.toNanosecondsSinceUnixEpoch.val.toNat / 1000

end Treewalk

open Treewalk in
def main (arguments : List String) : IO UInt32 := do
  let transcript ←
    match Invocation.ofArguments arguments with
    | none => pure (some Command.usage)
    | some invocation => do
      if invocation.log then IO.FS.writeFile "app.log" ""
      let content ←
        match invocation.command.file? with
        | some name => readFile name
        | none => pure (.error .missing)
      let input ← if invocation.command.readsInput content.isOk then readInput else pure []
      let now ← microsecondsNow
      let machine := { Machine.initial with input := .ofBytes input, clock := clockFrom now }
      pure (invocation.command.perform unlimited (fun _ => content) machine)
  match transcript with
  | none => return 1
  | some t =>
    IO.print t.stdout
    IO.eprint t.stderr
    return UInt32.ofNat t.exitCode
