import YulBackend.Json

namespace YulBackend.Json.Reader

def isBlank (c : Char) : Bool := c == ' ' || c == '\t' || c == '\n' || c == '\r'

def skipBlanks (cs : List Char) : List Char := cs.dropWhile isBlank

def hexValue? (c : Char) : Option Nat :=
  if c.isDigit then some (c.toNat - '0'.toNat)
  else if 'a' ≤ c ∧ c ≤ 'f' then some (c.toNat - 'a'.toNat + 10)
  else if 'A' ≤ c ∧ c ≤ 'F' then some (c.toNat - 'A'.toNat + 10)
  else none

def hexUnit? (a b c d : Char) : Option Nat := do
  return 4096 * (← hexValue? a) + 256 * (← hexValue? b) + 16 * (← hexValue? c) + (← hexValue? d)

/-- The character of a one-letter escape. -/
def letter? : Char → Option Char
  | '"' => some '"'
  | '\\' => some '\\'
  | '/' => some '/'
  | 'b' => some '\x08'
  | 'f' => some '\x0c'
  | 'n' => some '\n'
  | 'r' => some '\r'
  | 't' => some '\t'
  | _ => none

/-- The code units of a string, each tagged with whether an escape of four digits wrote it, and the
text behind the closing quote. -/
def stringUnits? : List Char → Option (List (Bool × Nat) × List Char)
  | '"' :: rest => some ([], rest)
  | '\\' :: 'u' :: a :: b :: c :: d :: rest => do
    let unit ← hexUnit? a b c d
    let (units, rest) ← stringUnits? rest
    return ((true, unit) :: units, rest)
  | '\\' :: e :: rest => do
    let c ← letter? e
    let (units, rest) ← stringUnits? rest
    return ((false, c.toNat) :: units, rest)
  | c :: rest =>
    if c.toNat < 0x20 || c = '\\' then none
    else do
      let (units, rest) ← stringUnits? rest
      return ((false, c.toNat) :: units, rest)
  | [] => none

def isHighSurrogate (unit : Nat) : Bool := 0xD800 ≤ unit && unit < 0xDC00

def isLowSurrogate (unit : Nat) : Bool := 0xDC00 ≤ unit && unit < 0xE000

/-- Joins surrogate pairs; half a pair alone has no character. -/
def charsOfUnits? : List (Bool × Nat) → Option (List Char)
  | (true, high) :: (true, low) :: rest =>
    if isHighSurrogate high && isLowSurrogate low then do
      let c := Char.ofNat (0x10000 + (high - 0xD800) * 0x400 + (low - 0xDC00))
      return c :: (← charsOfUnits? rest)
    else if isHighSurrogate high || isLowSurrogate high then none
    else return Char.ofNat high :: (← charsOfUnits? ((true, low) :: rest))
  | (true, unit) :: rest =>
    if isHighSurrogate unit || isLowSurrogate unit then none
    else return Char.ofNat unit :: (← charsOfUnits? rest)
  | (false, code) :: rest => return Char.ofNat code :: (← charsOfUnits? rest)
  | [] => some []

/-- A string behind its opening quote. -/
def text? (cs : List Char) : Option (Option String × List Char) := do
  let (units, rest) ← stringUnits? cs
  return ((charsOfUnits? units).map String.ofList, rest)

/-- One digit or more. -/
def digits? (cs : List Char) : Option (List Char × List Char) :=
  let digits := cs.takeWhile Char.isDigit
  if digits.isEmpty then none else some (digits, cs.dropWhile Char.isDigit)

/-- The whole part of a number: a zero alone, or digits that start with another. -/
def whole? : List Char → Option (List Char × List Char)
  | '0' :: rest => if rest.head?.any Char.isDigit then none else some (['0'], rest)
  | cs => digits? cs

/-- The part behind a decimal point, if there is one. -/
def fraction? : List Char → Option (List Char × List Char)
  | '.' :: rest => (digits? rest).map fun (digits, rest) => ('.' :: digits, rest)
  | cs => some ([], cs)

/-- An exponent, if there is one. -/
def exponent? : List Char → Option (List Char × List Char)
  | c :: rest =>
    if c = 'e' ∨ c = 'E' then
      match rest with
      | '+' :: rest => (digits? rest).map fun (digits, rest) => (c :: '+' :: digits, rest)
      | '-' :: rest => (digits? rest).map fun (digits, rest) => (c :: '-' :: digits, rest)
      | rest => (digits? rest).map fun (digits, rest) => (c :: digits, rest)
    else some ([], c :: rest)
  | [] => some ([], [])

def unsigned? (cs : List Char) : Option (List Char × List Char) := do
  let (whole, rest) ← whole? cs
  let (fraction, rest) ← fraction? rest
  let (exponent, rest) ← exponent? rest
  return (whole ++ fraction ++ exponent, rest)

def number? (cs : List Char) : Option (Json × List Char) :=
  match cs with
  | '-' :: rest =>
    (unsigned? rest).map fun (text, rest) => (.number (String.ofList ('-' :: text)), rest)
  | _ => (unsigned? cs).map fun (text, rest) => (.number (String.ofList text), rest)

mutual

/-- A value, with blanks before it. The number bounds the nesting. -/
def value? : Nat → List Char → Option (Json × List Char)
  | 0, _ => none
  | fuel + 1, cs =>
    match skipBlanks cs with
    | 'n' :: 'u' :: 'l' :: 'l' :: rest => some (.null, rest)
    | 't' :: 'r' :: 'u' :: 'e' :: rest => some (.bool true, rest)
    | 'f' :: 'a' :: 'l' :: 's' :: 'e' :: rest => some (.bool false, rest)
    | '"' :: rest => do
      let (text, rest) ← text? rest
      return (.string text, rest)
    | '[' :: rest =>
      match skipBlanks rest with
      | ']' :: rest => some (.array [], rest)
      | rest => do
        let (elements, rest) ← elements? fuel rest
        return (.array elements, rest)
    | '{' :: rest =>
      match skipBlanks rest with
      | '}' :: rest => some (.object [], rest)
      | rest => do
        let (fields, rest) ← fields? fuel rest
        return (.object fields, rest)
    | rest => number? rest

/-- One element or more, up to the closing bracket. -/
def elements? : Nat → List Char → Option (List Json × List Char)
  | 0, _ => none
  | fuel + 1, cs => do
    let (first, rest) ← value? fuel cs
    match skipBlanks rest with
    | ']' :: rest => return ([first], rest)
    | ',' :: rest =>
      let (others, rest) ← elements? fuel rest
      return (first :: others, rest)
    | _ => none

/-- One field or more, up to the closing brace. -/
def fields? : Nat → List Char → Option (List (Option String × Json) × List Char)
  | 0, _ => none
  | fuel + 1, cs =>
    match skipBlanks cs with
    | '"' :: rest => do
      let (name, rest) ← text? rest
      match skipBlanks rest with
      | ':' :: rest =>
        let (first, rest) ← value? fuel rest
        match skipBlanks rest with
        | '}' :: rest => return ([(name, first)], rest)
        | ',' :: rest =>
          let (others, rest) ← fields? fuel rest
          return ((name, first) :: others, rest)
        | _ => none
      | _ => none
    | _ => none

end

end YulBackend.Json.Reader

namespace YulBackend.Json

/-- The value that a whole text is. -/
def ofText? (text : String) : Option Json := do
  let cs := text.toList
  let (value, rest) ← Reader.value? (2 * cs.length + 2) cs
  if (Reader.skipBlanks rest).isEmpty then return value else none

end YulBackend.Json
