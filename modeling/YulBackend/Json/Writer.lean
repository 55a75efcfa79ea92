import YulBackend.Json
import YulBackend.Text.Hex

namespace YulBackend.Json

def escapeChar (c : Char) : String :=
  if c = '"' then "\\\""
  else if c = '\\' then "\\\\"
  else if c = '\x08' then "\\b"
  else if c = '\x0c' then "\\f"
  else if c = '\n' then "\\n"
  else if c = '\r' then "\\r"
  else if c = '\t' then "\\t"
  else if c.toNat < 0x20 then "\\u" ++ Hex.padded 4 c.toNat
  else String.ofList [c]

def quote (text : String) : String := "\"" ++ String.join (text.toList.map escapeChar) ++ "\""

/-- A string without a text is written as a replacement character. -/
def stringText (text : Option String) : String := quote (text.getD "\ufffd")

mutual

/-- All on one line, without blanks. -/
def compact : Json → String
  | .null => "null"
  | .bool value => if value then "true" else "false"
  | .number text => text
  | .string text => stringText text
  | .array elements => "[" ++ ",".intercalate (compactElements elements) ++ "]"
  | .object fields => "\x7b" ++ ",".intercalate (compactFields fields) ++ "\x7d"

def compactElements : List Json → List String
  | [] => []
  | j :: rest => j.compact :: compactElements rest

def compactFields : List (Option String × Json) → List String
  | [] => []
  | (name, j) :: rest => (stringText name ++ ":" ++ j.compact) :: compactFields rest

end

/-- A line break and the indentation of a level. -/
def lineBreak (level : Nat) : String := "\n" ++ String.ofList (List.replicate (2 * level) ' ')

/-- Items on lines of their own between two brackets, which stay together if there is nothing in them. -/
def enclose (level : Nat) (opening closing : String) (items : List String) : String :=
  if items.isEmpty then opening ++ closing
  else
    opening ++ lineBreak (level + 1) ++ ("," ++ lineBreak (level + 1)).intercalate items ++
      lineBreak level ++ closing

mutual

def prettyAt (level : Nat) : Json → String
  | .array elements => enclose level "[" "]" (prettyElements (level + 1) elements)
  | .object fields => enclose level "\x7b" "\x7d" (prettyFields (level + 1) fields)
  | .null => "null"
  | .bool value => if value then "true" else "false"
  | .number text => text
  | .string text => stringText text

def prettyElements (level : Nat) : List Json → List String
  | [] => []
  | j :: rest => j.prettyAt level :: prettyElements level rest

def prettyFields (level : Nat) : List (Option String × Json) → List String
  | [] => []
  | (name, j) :: rest =>
    (stringText name ++ ": " ++ j.prettyAt level) :: prettyFields level rest

end

/-- An element or a field a line, indented by two blanks a level. -/
def pretty (j : Json) : String := j.prettyAt 0

end YulBackend.Json
