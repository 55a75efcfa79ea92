namespace YulBackend

/-- The reserved words that open a statement or a clause. -/
inductive Keyword
  | function
  | «let»
  | «if»
  | «switch»
  | «case»
  | default
  | «for»
  | «break»
  | «continue»
  | leave
deriving DecidableEq, Repr

namespace Keyword

def text : Keyword → String
  | function => "function"
  | «let» => "let"
  | «if» => "if"
  | «switch» => "switch"
  | «case» => "case"
  | default => "default"
  | «for» => "for"
  | «break» => "break"
  | «continue» => "continue"
  | leave => "leave"

def all : List Keyword :=
  [function, «let», «if», «switch», «case», default, «for», «break», «continue», leave]

def ofText? (text : String) : Option Keyword := all.find? (·.text == text)

theorem ofText?_text (k : Keyword) : ofText? k.text = some k := by
  cases k <;> decide

end Keyword

namespace Word

/-- Characters that may stand inside a name, all of them ASCII. -/
def isNameChar (c : Char) : Bool := c.isAlphanum || c == '_' || c == '$' || c == '.'

/-- Characters that may open a name. -/
def isNameStart (c : Char) : Bool := c.isAlpha || c == '_' || c == '$'

def isHexDigit (c : Char) : Bool :=
  c.isDigit || ('a' ≤ c && c ≤ 'f') || ('A' ≤ c && c ≤ 'F')

def isDecimal (word : List Char) : Bool := !word.isEmpty && word.all Char.isDigit

def isHexadecimal : List Char → Bool
  | '0' :: 'x' :: digits => !digits.isEmpty && digits.all isHexDigit
  | _ => false

def isNumber (word : List Char) : Bool := isHexadecimal word || isDecimal word

def isBoolean (word : List Char) : Bool :=
  word == "true".toList || word == "false".toList

/-- A reserved word is one of the keywords or a truth value. -/
def isReserved (word : List Char) : Bool :=
  (Keyword.ofText? (String.ofList word)).isSome || isBoolean word

/-- A name opens with a letter, `_` or `$`, goes on with name characters and is not reserved. -/
def isName (word : List Char) : Bool :=
  word.head?.any isNameStart && word.all isNameChar && !isReserved word

end Word

end YulBackend
