import Treewalk.Grammar.Fault
import Treewalk.Tree.Basic

/-!
A position in a list of tokens, and productions: readings of a phrase from a position on. A production gives a tree
and the position behind the phrase, or an error and the position at which it arose. One that is cut off before it has
decided is exhausted.
-/

namespace Treewalk.Grammar

/-- A position in a list of tokens: the tokens ahead, the one that was read last, the one that stands at the end, the
identity that the next node gets, and the errors found so far. -/
structure Cursor where
  ahead : List Token
  last : Token
  finish : Token
  nextId : NodeId
  errors : List ParseError

/-- What a production comes to. -/
inductive Parsed (α : Type) where
  | ok (value : α) (next : Cursor)
  | failed (error : ParseError) (next : Cursor)
  | exhausted

/-- A way to read a phrase. -/
def Production (α : Type) : Type :=
  Cursor → Parsed α

namespace Cursor

/-- The next token, which is the one at the end if none is ahead. -/
def peek (c : Cursor) : Token :=
  c.ahead.head?.getD c.finish

/-- No token is ahead. -/
def atEnd (c : Cursor) : Bool :=
  c.ahead.isEmpty

/-- The next token satisfies `p`; the end never does. -/
def check (c : Cursor) (p : Token → Bool) : Bool :=
  c.ahead.head?.any p

/-- The token behind the next one satisfies `p`. -/
def checkSecond (c : Cursor) (p : Token → Bool) : Bool :=
  c.ahead.tail.head?.any p

/-- The position behind the next token; at the end there is none. -/
def advance (c : Cursor) : Cursor :=
  match c.ahead with
  | [] => c
  | t :: rest => { c with ahead := rest, last := t }

/-- Notes an error. -/
def report (c : Cursor) (e : ParseError) : Cursor :=
  { c with errors := c.errors ++ [e] }

/-- A statement can start with the token, so that reading may resume there. -/
def startsStatement (t : Token) : Bool :=
  [Symbol.kwClass, .kwFun, .kwVar, .kwFor, .kwIf, .kwWhile, .kwPrint, .kwReturn, .kwBreak, .kwUse].any t.is

/-- Skips tokens up to the next boundary of statements: behind a semicolon, or before a token that starts a
statement. The first argument is the token read last. -/
def skip : Token → List Token → Token × List Token
  | last, [] => (last, [])
  | last, t :: rest =>
    if last.is .semicolon || startsStatement t then (last, t :: rest) else skip t rest

/-- The position at which reading resumes after an error: the token at the error is given up in any case. -/
def resume (c : Cursor) : Cursor :=
  let c := c.advance
  let (last, ahead) := skip c.last c.ahead
  { c with last, ahead }

end Cursor

namespace Production

@[inline] protected def pure {α : Type} (a : α) : Production α :=
  fun c => .ok a c

@[inline] protected def bind {α β : Type} (p : Production α) (f : α → Production β) : Production β :=
  fun c =>
    match p c with
    | .ok a next => f a next
    | .failed e next => .failed e next
    | .exhausted => .exhausted

instance : Monad Production where
  pure := Production.pure
  bind := Production.bind

/-- Nothing is decided. -/
def exhausted {α : Type} : Production α :=
  fun _ => .exhausted

/-- What the position tells. -/
@[inline] def look {α : Type} (f : Cursor → α) : Production α :=
  fun c => .ok (f c) c

/-- Fails at a token. -/
def failAt {α : Type} (token : Token) (fault : ParseFault) : Production α :=
  fun c => .failed ⟨token, fault⟩ c

/-- Fails at the next token. -/
def fail {α : Type} (fault : ParseFault) : Production α :=
  fun c => .failed ⟨c.peek, fault⟩ c

/-- Notes an error and goes on. -/
def report (token : Token) (fault : ParseFault) : Production Unit :=
  fun c => .ok () (c.report ⟨token, fault⟩)

/-- An identity that no other node has. -/
def fresh : Production NodeId :=
  fun c => .ok c.nextId { c with nextId := c.nextId + 1 }

/-- Reads the next token; at the end it is the one that was read last. -/
def advance : Production Token :=
  fun c => .ok c.advance.last c.advance

/-- Reads the next token if it satisfies `p`. -/
def acceptIf (p : Token → Bool) : Production (Option Token) :=
  fun c => if c.check p then .ok (some c.advance.last) c.advance else .ok none c

/-- Reads the given symbol if it is next. -/
def accept (s : Symbol) : Production (Option Token) :=
  acceptIf (·.is s)

/-- Reads one of the given symbols if it is next. -/
def acceptAny (symbols : List Symbol) : Production (Option Token) :=
  acceptIf fun t => symbols.any t.is

/-- Reads a token that satisfies `p`, and fails if another one is next. -/
def expectIf (p : Token → Bool) (what : Expected) : Production Token :=
  fun c => if c.check p then .ok c.advance.last c.advance else .failed ⟨c.peek, .expected what⟩ c

/-- Reads the given symbol, and fails if another token is next. -/
def expect (s : Symbol) (what : Expected) : Production Token :=
  expectIf (·.is s) what

/-- Reads an identifier, and fails if another token is next. -/
def expectName (what : Expected) : Production Token :=
  expectIf Token.isIdentifier what

/-- The given symbol is next. -/
def ahead (s : Symbol) : Production Bool :=
  look fun c => c.check (·.is s)

end Production

end Treewalk.Grammar
