/-!
Tokens: the words of a program with the line and the byte offset at which each stands.
-/

namespace Treewalk

/-- Tokens that have one spelling: punctuation, operators and keywords. -/
inductive Symbol where
  | leftParen | rightParen | leftBrace | rightBrace | leftBracket | rightBracket
  | comma | dot | minus | plus | semicolon | slash | star | question | colon | arrow
  | bang | bangEqual | equal | equalEqual | greater | greaterEqual | less | lessEqual
  | kwAnd | kwBreak | kwClass | kwElse | kwFalse | kwFun | kwFor | kwGlobal | kwIf | kwImport | kwNil | kwOr | kwPrint
  | kwReturn | kwSuper | kwThis | kwTrue | kwUse | kwVar | kwWhile
deriving DecidableEq, Repr

namespace Symbol

/-- How the symbol is written in a program. -/
def spelling : Symbol → String
  | leftParen => "("
  | rightParen => ")"
  | leftBrace => "\x7b"
  | rightBrace => "\x7d"
  | leftBracket => "["
  | rightBracket => "]"
  | comma => ","
  | dot => "."
  | minus => "-"
  | plus => "+"
  | semicolon => ";"
  | slash => "/"
  | star => "*"
  | question => "?"
  | colon => ":"
  | arrow => "->"
  | bang => "!"
  | bangEqual => "!="
  | equal => "="
  | equalEqual => "=="
  | greater => ">"
  | greaterEqual => ">="
  | less => "<"
  | lessEqual => "<="
  | kwAnd => "and"
  | kwBreak => "break"
  | kwClass => "class"
  | kwElse => "else"
  | kwFalse => "false"
  | kwFun => "fun"
  | kwFor => "for"
  | kwGlobal => "global"
  | kwIf => "if"
  | kwImport => "import"
  | kwNil => "nil"
  | kwOr => "or"
  | kwPrint => "print"
  | kwReturn => "return"
  | kwSuper => "super"
  | kwThis => "this"
  | kwTrue => "true"
  | kwUse => "use"
  | kwVar => "var"
  | kwWhile => "while"

/-- The name of the symbol in a token listing. -/
def name : Symbol → String
  | leftParen => "LEFT_PAREN"
  | rightParen => "RIGHT_PAREN"
  | leftBrace => "LEFT_BRACE"
  | rightBrace => "RIGHT_BRACE"
  | leftBracket => "LEFT_BRACKET"
  | rightBracket => "RIGHT_BRACKET"
  | comma => "COMMA"
  | dot => "DOT"
  | minus => "MINUS"
  | plus => "PLUS"
  | semicolon => "SEMICOLON"
  | slash => "SLASH"
  | star => "STAR"
  | question => "QUESTION"
  | colon => "COLON"
  | arrow => "ARROW"
  | bang => "BANG"
  | bangEqual => "BANG_EQUAL"
  | equal => "EQUAL"
  | equalEqual => "EQUAL_EQUAL"
  | greater => "GREATER"
  | greaterEqual => "GREATER_EQUAL"
  | less => "LESS"
  | lessEqual => "LESS_EQUAL"
  | kwAnd => "AND"
  | kwBreak => "BREAK"
  | kwClass => "CLASS"
  | kwElse => "ELSE"
  | kwFalse => "FALSE"
  | kwFun => "FUN"
  | kwFor => "FOR"
  | kwGlobal => "GLOBAL"
  | kwIf => "IF"
  | kwImport => "IMPORT"
  | kwNil => "NIL"
  | kwOr => "OR"
  | kwPrint => "PRINT"
  | kwReturn => "RETURN"
  | kwSuper => "SUPER"
  | kwThis => "THIS"
  | kwTrue => "TRUE"
  | kwUse => "USE"
  | kwVar => "VAR"
  | kwWhile => "WHILE"

/-- The punctuation and the operators. -/
def marks : List Symbol :=
  [leftParen, rightParen, leftBrace, rightBrace, leftBracket, rightBracket, comma, dot, minus, plus, semicolon, slash,
   star, question, colon, arrow, bang, bangEqual, equal, equalEqual, greater, greaterEqual, less, lessEqual]

/-- The words that are no identifiers. -/
def keywords : List Symbol :=
  [kwAnd, kwBreak, kwClass, kwElse, kwFalse, kwFun, kwFor, kwGlobal, kwIf, kwImport, kwNil, kwOr, kwPrint, kwReturn,
   kwSuper, kwThis, kwTrue, kwUse, kwVar, kwWhile]

/-- The keyword with the given spelling. -/
def keyword? (word : String) : Option Symbol :=
  keywords.find? (·.spelling == word)

/-- The symbol with the given name. -/
def ofName? (name : String) : Option Symbol :=
  (marks ++ keywords).find? (·.name == name)

end Symbol

/-- What a token is, with the value of a literal. -/
inductive Token.Kind where
  | symbol (symbol : Symbol)
  | identifier
  | string (text : String)
  | number (value : Float)
  | path (text : String)
  | finish
deriving DecidableEq, Repr

/-- The name of the kind in a token listing. -/
def Token.Kind.name : Token.Kind → String
  | symbol s => s.name
  | identifier => "IDENTIFIER"
  | string _ => "STRING"
  | number _ => "NUMBER"
  | path _ => "IMPORT_PATH"
  | finish => "EOF"

/-- A token: its kind, the text it was read from, the line on which it ends and the offset of its first byte. -/
structure Token where
  kind : Token.Kind
  lexeme : String
  line : Nat
  offset : Nat
deriving DecidableEq, Repr

namespace Token

/-- The token is the given symbol. -/
def is (t : Token) (s : Symbol) : Bool :=
  t.kind == .symbol s

/-- The token ends the program. -/
def isFinish (t : Token) : Bool :=
  t.kind == .finish

/-- The token is an identifier. -/
def isIdentifier (t : Token) : Bool :=
  t.kind == .identifier

/-- The token that a token list without an end is taken to end with. -/
def missing : Token :=
  ⟨.finish, "", 0, 0⟩

/-- A token that is not in the text, at the position of one that is. -/
def standIn (kind : Kind) (lexeme : String) (position : Token) : Token :=
  ⟨kind, lexeme, position.line, position.offset⟩

end Token

end Treewalk
