import YulBackend.Text.Hex
import YulBackend.Text.Printable

namespace YulBackend.Quoted

def encodeChar (c : Char) : String :=
  if c = '"' then "\\\""
  else if c = '\\' then "\\\\"
  else if c = '\n' then "\\n"
  else if c = '\r' then "\\r"
  else if c = '\t' then "\\t"
  else if c = '\x00' then "\\0"
  else if isPrintable c then String.ofList [c]
  else "\\u\x7b" ++ Hex.ofNat c.toNat ++ "\x7d"

/-- A text as it is quoted in messages: what cannot be shown is written as an escape. -/
def encode (text : String) : String :=
  "\"" ++ String.join (text.toList.map encodeChar) ++ "\""

end YulBackend.Quoted
