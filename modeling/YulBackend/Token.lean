import YulBackend.Syntax
import YulBackend.Syntax.Keyword
import YulBackend.Text.Escape

namespace YulBackend

/-- Tokens. A maximal run of name characters is one word, and as a whole it is a keyword, a truth value, a number or a
name, or else no token at all. -/
inductive Token
  | openBrace
  | closeBrace
  | openParen
  | closeParen
  | comma
  | assign
  | arrow
  | keyword (word : Keyword)
  | identifier (name : String)
  | literal (kind : LiteralKind) (value : String)
  /-- A string literal whose escape `escape` means nothing. It still has its place in the grammar. -/
  | badString (escape : String)
deriving DecidableEq, Repr

/-- A token and the bytes it was read from. -/
structure Lexeme where
  token : Token
  span : Span
deriving DecidableEq, Repr

namespace Token

def ofWord? (word : List Char) : Option Token :=
  let text := String.ofList word
  match Keyword.ofText? text with
  | some k => some (.keyword k)
  | none =>
    if Word.isBoolean word then some (.literal .boolean text)
    else if Word.isNumber word then some (.literal .number text)
    else if Word.isName word then some (.identifier text)
    else none

/-- The token of a string literal with this raw text between its quotes. -/
def ofStringBody (raw : List Char) : Token :=
  match Escape.decode raw with
  | .ok text => .literal .string (String.ofList text)
  | .error escape => .badString escape

/-- The invalid escape that a token holds. -/
def fault? : Token → Option String
  | badString escape => some escape
  | _ => none

end Token

/-- The literal that a lexeme stands for. -/
def Lexeme.literal? (lexeme : Lexeme) : Option Literal :=
  match lexeme.token with
  | .literal kind value => some { span := lexeme.span, kind, value }
  | .badString _ => some { span := lexeme.span, kind := .string, value := "" }
  | _ => none

end YulBackend
