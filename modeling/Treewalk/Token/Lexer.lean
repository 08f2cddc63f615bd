import Treewalk.Number.Decimal
import Treewalk.Text.Utf8
import Treewalk.Token.Basic

/-!
From bytes to tokens. The lexer goes through its source byte by byte. Each call gives one token or one error, blanks and
comments are passed over on the way, and after an error it goes on where that was found. A part of the lexer that asks
for a byte outside of the source, or that would never come to an end, has no result.
-/

namespace Treewalk

/-- Why a stretch of bytes is no token. -/
inductive LexFault where
  | unterminatedString
  | gluedWord (word : String)
  | unexpected (byte : UInt8)
deriving DecidableEq, Repr

/-- The wording of a lexical fault. A byte that begins no token is shown as the character with its number. -/
def LexFault.message : LexFault → String
  | unterminatedString => "Unterminated string."
  | gluedWord word => "Expect a space after identifier <" ++ word ++ ">."
  | unexpected byte => "Unexpected character: " ++ (Char.ofUInt8 byte).toString

/-- A lexical error and the line on which it was found. -/
structure LexError where
  line : Nat
  fault : LexFault
deriving DecidableEq, Repr

/-- A lexer: its source, the place where the lexeme starts that it reads, the place of the next byte, the line it is on,
and the kind of the token that it has just read. -/
structure Lexer where
  source : Array UInt8
  start : Nat := 0
  current : Nat := 0
  line : Nat := 1
  pending : Option Token.Kind := none

namespace Lexer

def newline : UInt8 := 0x0A

def isDigit (b : UInt8) : Bool :=
  (Char.ofUInt8 b).isDigit

def isLetter (b : UInt8) : Bool :=
  (Char.ofUInt8 b).isAlpha

/-- The number that decimal digits denote, after those that stand in front of them. -/
def digitsValue (front : Nat) (digits : List UInt8) : Nat :=
  digits.foldl (fun n b => 10 * n + (b.toNat - '0'.toNat)) front

/-- The double that a number denotes: digits, and decimal places behind a point. -/
def numberValue (bytes : List UInt8) : Float :=
  let whole := bytes.takeWhile isDigit
  let places := (bytes.dropWhile isDigit).tail
  Number.Decimal.toFloat ⟨digitsValue (digitsValue 0 whole) places, -places.length⟩

/-! ### Places -/

/-- The lexer at the start of a source. -/
def ofSource (source : List UInt8) : Lexer :=
  { source := source.toArray }

def isAtEnd (s : Lexer) : Bool :=
  s.source.size ≤ s.current

/-- Takes the next byte. There has to be one. -/
def advance (s : Lexer) : Option (UInt8 × Lexer) := do
  let b ← s.source[s.current]?
  return (b, { s with current := s.current + 1 })

/-- The number of bytes that are left. -/
def remaining (s : Lexer) : Nat :=
  s.source.size - s.current

theorem advance_lt {s s' : Lexer} {b : UInt8} (h : s.advance = some (b, s')) : s'.remaining < s.remaining := by
  simp only [advance, Option.bind_eq_bind, Option.bind_eq_some_iff, Option.pure_def, Option.some.injEq, Prod.mk.injEq] at h
  obtain ⟨_, hbyte, -, rfl⟩ := h
  obtain ⟨hlt, -⟩ := Array.getElem?_eq_some_iff.mp hbyte
  exact Nat.sub_lt_sub_left hlt (Nat.lt_succ_self _)

/-- Takes the next byte and goes on. There is one byte less then. -/
def taking {α : Type} (s : Lexer) (goOn : UInt8 → (s' : Lexer) → s'.remaining < s.remaining → Option α) : Option α :=
  match h : s.advance with
  | none => none
  | some (b, s') => goOn b s' (advance_lt h)

/-- The next byte, which is not taken; at the end, a zero. -/
def peek (s : Lexer) : Option UInt8 :=
  if s.isAtEnd then some 0 else s.source[s.current]?

/-- The byte after the next one, or a zero. -/
def peekNext (s : Lexer) : Option UInt8 :=
  if s.source.size ≤ s.current + 1 then some 0 else s.source[s.current + 1]?

/-- Takes the next byte if it is the given character. -/
def takeIf (s : Lexer) (c : Char) : Option (Bool × Lexer) := do
  if s.isAtEnd then
    return (false, s)
  else if Char.ofUInt8 (← s.peek) == c then
    let (_, s) ← s.advance
    return (true, s)
  else
    return (false, s)

/-- The bytes from one place up to another. Both have to be in the source, in this order. -/
def slice (s : Lexer) (start stop : Nat) : Option (List UInt8) :=
  if start ≤ stop ∧ stop ≤ s.source.size then some (s.source.extract start stop).toList else none

/-- The text from the start of the lexeme on. -/
def lexeme (s : Lexer) : Option String := do
  return Text.decodeLossy (← s.slice s.start s.current)

/-! ### Lexemes -/

/-- A token was read. -/
def give (s : Lexer) (kind : Token.Kind) : Option LexError × Lexer :=
  (none, { s with pending := some kind })

/-- An error was found. -/
def refuse (s : Lexer) (fault : LexFault) : Option LexError × Lexer :=
  (some ⟨s.line, fault⟩, s)

/-- A symbol of two bytes if the given character follows, and of one byte otherwise. -/
def readMark (s : Lexer) (c : Char) (long short : Symbol) : Option (Option LexError × Lexer) := do
  let (follows, s) ← s.takeIf c
  return s.give (.symbol (if follows then long else short))

/-- Passes over the rest of a line, and leaves the line break. -/
def skipLine (s : Lexer) : Option Lexer := do
  match (← s.slice s.current s.source.size).findIdx? (· == newline) with
  | some n => return { s with current := s.current + n }
  | none => return { s with current := s.source.size }

/-- After two slashes the rest of the line is a comment. -/
def readSlash (s : Lexer) : Option (Option LexError × Lexer) := do
  let (comment, s) ← s.takeIf '/'
  if comment then
    return (none, ← s.skipLine)
  else
    return s.give (.symbol .slash)

/-- Passes over the bytes up to the next quote, over line ends too. -/
def skipToQuote (s : Lexer) : Option Lexer := do
  if s.isAtEnd then
    return s
  else if Char.ofUInt8 (← s.peek) == '"' then
    return s
  else
    s.taking fun b s' _ => skipToQuote { s' with line := if b == newline then s'.line + 1 else s'.line }
termination_by s.remaining

/-- A string goes on to the quote that closes it. -/
def readString (s : Lexer) : Option (Option LexError × Lexer) := do
  let s ← s.skipToQuote
  if s.isAtEnd then
    return s.refuse .unterminatedString
  else
    let (_, s) ← s.advance
    return s.give (.string (Text.decodeLossy (← s.slice (s.start + 1) (s.current - 1))))

def skipDigits (s : Lexer) : Option Lexer := do
  if isDigit (← s.peek) then
    s.taking fun _ s' _ => skipDigits s'
  else
    return s
termination_by s.remaining

/-- Passes over a point and the digits behind it, if there is one. -/
def skipFraction (s : Lexer) : Option Lexer := do
  if Char.ofUInt8 (← s.peek) == '.' && isDigit (← s.peekNext) then
    let (_, s) ← s.advance
    s.skipDigits
  else
    return s

/-- A number: digits, and a fraction if a point with a digit behind it follows. -/
def readNumber (s : Lexer) : Option (Option LexError × Lexer) := do
  let s ← s.skipDigits
  let s ← s.skipFraction
  return s.give (.number (numberValue (← s.slice s.start s.current)))

/-- Passes over the rest of a word, and says whether it is a path: letters, double colons, and behind the first of these
also braces. -/
def skipWord (s : Lexer) (path : Bool) : Option (Bool × Lexer) := do
  let c ← s.peek
  if isLetter c then
    s.taking fun _ s' _ => skipWord s' path
  else if Char.ofUInt8 c == ':' && Char.ofUInt8 (← s.peekNext) == ':' then
    s.taking fun _ s' _ => s'.taking fun _ s'' _ => skipWord s'' true
  else if path && (Char.ofUInt8 c == '\x7b' || Char.ofUInt8 c == '\x7d') then
    s.taking fun _ s' _ => skipWord s' path
  else
    return (path, s)
termination_by s.remaining

/-- A word: a keyword, an identifier or a path. Neither an underscore nor a digit may follow it directly. -/
def readWord (s : Lexer) : Option (Option LexError × Lexer) := do
  let (path, s) ← s.skipWord false
  let follower ← s.peek
  let lexeme ← s.lexeme
  if Char.ofUInt8 follower == '_' || isDigit follower then
    return s.refuse (.gluedWord lexeme)
  else if path then
    return s.give (.path lexeme)
  else
    match Symbol.keyword? lexeme with
    | some symbol => return s.give (.symbol symbol)
    | none => return s.give .identifier

/-- Reads on behind the first byte of a lexeme, a blank or a comment. -/
def readFrom (s : Lexer) (b : UInt8) : Option (Option LexError × Lexer) :=
  match Char.ofUInt8 b with
  | '(' => some (s.give (.symbol .leftParen))
  | ')' => some (s.give (.symbol .rightParen))
  | '\x7b' => some (s.give (.symbol .leftBrace))
  | '\x7d' => some (s.give (.symbol .rightBrace))
  | '[' => some (s.give (.symbol .leftBracket))
  | ']' => some (s.give (.symbol .rightBracket))
  | ',' => some (s.give (.symbol .comma))
  | '.' => some (s.give (.symbol .dot))
  | '+' => some (s.give (.symbol .plus))
  | ';' => some (s.give (.symbol .semicolon))
  | '*' => some (s.give (.symbol .star))
  | '?' => some (s.give (.symbol .question))
  | ':' => some (s.give (.symbol .colon))
  | '-' => s.readMark '>' .arrow .minus
  | '!' => s.readMark '=' .bangEqual .bang
  | '=' => s.readMark '=' .equalEqual .equal
  | '<' => s.readMark '=' .lessEqual .less
  | '>' => s.readMark '=' .greaterEqual .greater
  | ' ' => some (none, s)
  | '\r' => some (none, s)
  | '\t' => some (none, s)
  | '\n' => some (none, { s with line := s.line + 1 })
  | '/' => s.readSlash
  | '"' => s.readString
  | c =>
    if c.isDigit then s.readNumber
    else if c.isAlpha || c == '_' then s.readWord
    else some (s.refuse (.unexpected b))

/-- Reads one lexeme, a blank or a comment. There has to be a byte. -/
def readLexeme (s : Lexer) : Option (Option LexError × Lexer) := do
  let (b, s) ← s.advance
  s.readFrom b

/-! ### Items -/

/-- The next item, if there is one. The end of the source is an item too; behind it there is none. A blank or a comment
is passed over; if it took no byte, this would go on for ever. -/
def next (s : Lexer) : Option (Option (Except LexError Token) × Lexer) := do
  if s.current ≤ s.source.size then
    if s.current == s.source.size then
      return (some (.ok ⟨.finish, "", s.line, s.source.size⟩), { s with current := s.current + 1 })
    else
      let (error, s') ← readLexeme { s with start := s.current, pending := none }
      match error, s'.pending with
      | some e, _ => return (some (.error e), s')
      | none, some kind => return (some (.ok ⟨kind, ← s'.lexeme, s'.line, s'.start⟩), { s' with pending := none })
      | none, none => if s'.remaining < s.remaining then next s' else none
  else
    return (none, s)
termination_by s.remaining

/-- The items from here on. Without an end to them there is no result. -/
def collect (s : Lexer) : Option (List (Except LexError Token)) := do
  match ← s.next with
  | (none, _) => return []
  | (some item, s') =>
    if s'.source.size + 1 - s'.current < s.source.size + 1 - s.current then return item :: (← collect s') else none
termination_by s.source.size + 1 - s.current

end Lexer

/-- The tokens and errors of a source in their order; the last item is the token that ends the program. There is no
source on which the lexer has no result. -/
def Token.scan (source : List UInt8) : List (Except LexError Token) :=
  (Lexer.ofSource source).collect.getD []

/-- The tokens among the items. -/
def Token.good (items : List (Except LexError Token)) : List Token :=
  items.filterMap fun
    | .ok t => some t
    | .error _ => none

/-- The errors among the items. -/
def LexError.all (items : List (Except LexError Token)) : List LexError :=
  items.filterMap fun
    | .ok _ => none
    | .error e => some e

end Treewalk
