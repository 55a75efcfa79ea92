import YulBackend.Syntax
import YulBackend.Text.Quoted

namespace YulBackend

def wordBits : Nat := 256

def wordBytes : Nat := 32

inductive LiteralError
  | malformed (text : String)
  | exceedsWord (text : String)
  | longString (text : String)
deriving DecidableEq, Repr

namespace LiteralError

def message : LiteralError → String
  | malformed text => "Invalid literal: " ++ text
  | exceedsWord text => "Invalid literal: " ++ text ++ " does not fit into 256 bits"
  | longString text =>
    "Invalid literal: string literal longer than 32 bytes: " ++ Quoted.encode text

end LiteralError

namespace Numeral

/-- The value of a digit or letter, letters counting on from ten. -/
def digit? (c : Char) : Option Nat :=
  if c.isDigit then some (c.toNat - '0'.toNat)
  else if c.isLower then some (c.toNat - 'a'.toNat + 10)
  else if c.isUpper then some (c.toNat - 'A'.toNat + 10)
  else none

/-- Appends one character of a numeral; an underscore between digits counts for nothing. -/
def push? (base value : Nat) (c : Char) : Option Nat :=
  if c = '_' then some value
  else do
    let d ← digit? c
    if d < base then some (base * value + d) else none

/-- Drops a plus sign in front, but none that a second one follows. -/
def dropPlus : List Char → List Char
  | '+' :: '+' :: rest => '+' :: '+' :: rest
  | '+' :: rest => rest
  | text => text

/-- The number that a numeral of this base stands for. It starts with a digit. -/
def read? (base : Nat) (text : List Char) : Option Nat :=
  match dropPlus text with
  | [] | '_' :: _ => none
  | digits => digits.foldlM (push? base) 0

end Numeral

/-- The word of a number's text, which `0x` alone does not have. -/
def numberValue? (text : List Char) : Option Nat :=
  match text with
  | ['0', 'x'] => none
  | '0' :: 'x' :: digits => Numeral.read? 16 digits
  | digits => Numeral.read? 10 digits

/-- The bytes of a text in UTF-8. -/
def utf8Bytes (text : String) : List UInt8 := text.toList.flatMap String.utf8EncodeChar

/-- The number that bytes make up, most significant first. -/
def bigEndian (bytes : List UInt8) : Nat := bytes.foldl (fun n b => 256 * n + b.toNat) 0

/-- The word whose high bytes are these and whose other bytes are zero. -/
def leftAligned (bytes : List UInt8) : Nat := bigEndian bytes <<< (8 * (wordBytes - bytes.length))

/-- The word that a literal stands for. Numbers are decimal or, behind `0x`, hexadecimal; truth values are one and
zero; the bytes of a string fill a word from its high end. -/
def Literal.word (l : Literal) : Except LiteralError Nat :=
  match l.kind with
  | .number =>
    match numberValue? l.value.toList with
    | none => .error (.malformed l.value)
    | some n => if n < 1 <<< wordBits then .ok n else .error (.exceedsWord l.value)
  | .boolean =>
    if l.value = "true" then .ok 1
    else if l.value = "false" then .ok 0
    else .error (.malformed l.value)
  | .string =>
    let bytes := utf8Bytes l.value
    if bytes.length ≤ wordBytes then .ok (leftAligned bytes) else .error (.longString l.value)

end YulBackend
