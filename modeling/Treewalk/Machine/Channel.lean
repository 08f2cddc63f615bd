import Treewalk.Text.Blank
import Treewalk.Text.Utf8

/-!
The ends at which a program meets the world: a sink that takes what it prints, lines of input, and a clock.
-/

namespace Treewalk

/-- A sink for text. Whether it takes the next piece, or lets itself be flushed, may depend on how often it was asked
before and on what it holds; a refusal has a reason. -/
structure Sink where
  text : String := ""
  asked : Nat := 0
  refusesWrite : Nat → String → Option String := fun _ _ => none
  refusesFlush : Nat → String → Option String := fun _ _ => none

namespace Sink

/-- Writes a piece of text; an empty piece needs no writing. -/
def write (s : Sink) (piece : String) : Sink × Option String :=
  if piece.isEmpty then (s, none)
  else
    match s.refusesWrite s.asked s.text with
    | some reason => ({ s with asked := s.asked + 1 }, some reason)
    | none => ({ s with asked := s.asked + 1, text := s.text ++ piece }, none)

/-- Writes a line: the text and then the line end. -/
def writeLine (s : Sink) (line : String) : Sink × Option String :=
  match s.write line with
  | (s, none) => s.write "\n"
  | refused => refused

/-- Asks the sink to pass on what it holds. -/
def flush (s : Sink) : Sink × Option String :=
  ({ s with asked := s.asked + 1 }, s.refusesFlush s.asked s.text)

end Sink

/-- Lines of input that have not been read, with their line ends. -/
structure Input where
  lines : List (List UInt8) := []

namespace Input

/-- Why a line that is not text cannot be read. -/
def notText : String := "stream did not contain valid UTF-8"

/-- Cuts bytes into lines. A line keeps the newline at its end, which the last line may lack. -/
def cut : List UInt8 → List (List UInt8)
  | [] => []
  | b :: rest =>
    if b == 0x0A then [b] :: cut rest
    else
      match cut rest with
      | [] => [[b]]
      | line :: lines => (b :: line) :: lines

/-- The input that consists of the given bytes. -/
def ofBytes (bytes : List UInt8) : Input :=
  ⟨cut bytes⟩

/-- What reading a line comes to. -/
inductive Line where
  | none
  | text (line : String)
  | broken
deriving DecidableEq, Repr

/-- Takes the next line, be it text or not. -/
def takeLine (i : Input) : Line × Input :=
  match i.lines with
  | [] => (.none, i)
  | line :: rest =>
    match Text.decode? line with
    | some text => (.text text, ⟨rest⟩)
    | none => (.broken, ⟨rest⟩)

/-- Takes lines up to the first that holds a word, and gives that word. There is none if only blank lines are left;
a line that is not text stops the search. -/
def firstWord : List (List UInt8) → Except String (Option String) × List (List UInt8)
  | [] => (.ok none, [])
  | line :: rest =>
    match Text.decode? line with
    | none => (.error notText, rest)
    | some text =>
      match Text.firstWord? text with
      | some word => (.ok (some word), rest)
      | none => firstWord rest

/-- Takes the next word: the first one of the next line that holds any. -/
def takeWord (i : Input) : Except String (Option String) × Input :=
  let (word, lines) := firstWord i.lines
  (word, ⟨lines⟩)

end Input

/-- A clock: its readings in their order, in seconds, and the number of those that were taken. -/
structure Clock where
  reading : Nat → Float := fun _ => 0
  taken : Nat := 0

/-- Takes a reading. -/
def Clock.take (c : Clock) : Float × Clock :=
  (c.reading c.taken, { c with taken := c.taken + 1 })

end Treewalk
