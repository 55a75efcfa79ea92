namespace YulBackend.Escape

def hexValue? (c : Char) : Option Nat :=
  if c.isDigit then some (c.toNat - '0'.toNat)
  else if 'a' ≤ c ∧ c ≤ 'f' then some (c.toNat - 'a'.toNat + 10)
  else if 'A' ≤ c ∧ c ≤ 'F' then some (c.toNat - 'A'.toNat + 10)
  else none

/-- The digits after `\x`: one or two hexadecimal digits, or one behind a plus sign. -/
def byte? : List Char → Option Nat
  | [a] => hexValue? a
  | [a, b] =>
    if a = '+' then hexValue? b
    else do return 16 * (← hexValue? a) + (← hexValue? b)
  | _ => none

/-- The character that a one-letter escape stands for. -/
def letter? : Char → Option Char
  | 'n' => some '\n'
  | 'r' => some '\r'
  | 't' => some '\t'
  | '\\' => some '\\'
  | '"' => some '"'
  | '\'' => some '\''
  | _ => none

/-- A `\x` escape with these digits, or the escape itself as the fault. -/
def hexEscape (digits : List Char) : Except String Char :=
  match byte? digits with
  | some byte => .ok (Char.ofNat byte)
  | none => .error (String.ofList ('\\' :: 'x' :: digits))

/-- Reads the characters between the quotes; the first escape that means nothing is the fault. The escapes that mean
something are `\n \r \t \\ \" \'` and `\x` with up to two hexadecimal digits. -/
def decode : List Char → Except String (List Char)
  | [] => .ok []
  | '\\' :: 'x' :: a :: b :: rest => return (← hexEscape [a, b]) :: (← decode rest)
  | '\\' :: 'x' :: digits => return [← hexEscape digits]
  | '\\' :: c :: rest =>
    match letter? c with
    | some d => return d :: (← decode rest)
    | none => .error (String.ofList ['\\', c])
  | ['\\'] => .error "\\"
  | c :: rest => return c :: (← decode rest)

def isControl (c : Char) : Bool := c.toNat < 0x20 || c.toNat == 0x7f

/-- Lower-case hexadecimal digit of a number below sixteen. -/
def hexDigit (n : Nat) : Char :=
  if n < 10 then Char.ofNat ('0'.toNat + n) else Char.ofNat ('a'.toNat + (n - 10))

def encodeChar (c : Char) : List Char :=
  if c = '"' then ['\\', '"']
  else if c = '\\' then ['\\', '\\']
  else if c = '\n' then ['\\', 'n']
  else if c = '\r' then ['\\', 'r']
  else if c = '\t' then ['\\', 't']
  else if isControl c then ['\\', 'x', hexDigit (c.toNat / 16), hexDigit (c.toNat % 16)]
  else [c]

/-- The spelling of a text between quotes. -/
def encode (text : List Char) : List Char := text.flatMap encodeChar

end YulBackend.Escape
