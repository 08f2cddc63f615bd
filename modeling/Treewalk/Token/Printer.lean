import Treewalk.Number.Text
import Treewalk.Text.Quoted
import Treewalk.Token.Basic

/-!
The two listings of tokens: a line of words for each token, and the data format with one field a line.
-/

namespace Treewalk.Token

/-- The value of a literal in a token listing. -/
def Kind.literalText : Kind → String
  | .string text => text
  | .path text => text
  | .number value => Number.tokenText value
  | _ => "null"

/-- A token in a listing: kind, lexeme, value. -/
def text (t : Token) : String :=
  t.kind.name ++ " " ++ t.lexeme ++ " " ++ t.kind.literalText

/-- A line of the data format, two blanks for each level. -/
def indented (level : Nat) (line : String) : String :=
  String.ofList (List.replicate (2 * level) ' ') ++ line

/-- The lines of a field in the data format: the name stands before the first line of the value. -/
def field (level : Nat) (name : String) (value : String) : String :=
  indented level (Text.quoteData name ++ ": " ++ value)

/-- A kind in the data format: its name, or an object that gives the value of a literal under its name. -/
def Kind.dataText (level : Nat) (kind : Kind) : String :=
  let tagged (value : String) : String :=
    "\x7b\n" ++ field (level + 1) kind.name value ++ "\n" ++ indented level "\x7d"
  match kind with
  | .string text => tagged (Text.quoteData text)
  | .path text => tagged (Text.quoteData text)
  | .number value => tagged (Number.dataText value)
  | _ => Text.quoteData kind.name

/-- A token in the data format. -/
def dataText (level : Nat) (t : Token) : String :=
  let fields :=
    [field (level + 1) "token_type" (t.kind.dataText (level + 1)),
     field (level + 1) "lexeme" (Text.quoteData t.lexeme),
     field (level + 1) "line" (toString t.line),
     field (level + 1) "offset" (toString t.offset)]
  indented level "\x7b\n" ++ String.intercalate ",\n" fields ++ "\n" ++ indented level "\x7d"

/-- A list of tokens in the data format. -/
def listData (tokens : List Token) : String :=
  if tokens.isEmpty then "[]"
  else "[\n" ++ String.intercalate ",\n" (tokens.map (dataText 1)) ++ "\n]"

end Treewalk.Token
