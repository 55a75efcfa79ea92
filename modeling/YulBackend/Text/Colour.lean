namespace YulBackend

inductive Colour
  | red
  | green
  | brightRed
  | brightGreen
  | brightYellow
  | brightBlue
  | brightMagenta
  | brightCyan
deriving DecidableEq, Repr

namespace Colour

def code : Colour → String
  | red => "31"
  | green => "32"
  | brightRed => "91"
  | brightGreen => "92"
  | brightYellow => "93"
  | brightBlue => "94"
  | brightMagenta => "95"
  | brightCyan => "96"

/-- The sequence that sets the colour. -/
def start (colour : Colour) : String := "\x1b[" ++ colour.code ++ "m"

/-- The sequence that sets the colour in bold type. -/
def boldStart (colour : Colour) : String := "\x1b[1;" ++ colour.code ++ "m"

/-- A text between the sequence that sets its colour and the one that takes every colour back. -/
def enclose (start text : String) : String := start ++ text ++ "\x1b[0m"

/-- Puts a sequence behind each place in a text where colours are taken back. -/
def setAgain (start : List Char) : List Char → List Char
  | '\x1b' :: '[' :: '0' :: 'm' :: rest =>
    '\x1b' :: '[' :: '0' :: 'm' :: (start ++ setAgain start rest)
  | c :: rest => c :: setAgain start rest
  | [] => []

/-- A text that keeps its colour to the end. -/
def encloseAll (start text : String) : String :=
  enclose start (String.ofList (setAgain start.toList text.toList))

/-- A painted text stands between the sequence that sets the colour and the one that takes every colour back. Where the
text itself takes colours back, its own is set again. -/
def paint (colour : Colour) (text : String) : String := encloseAll colour.start text

def paintBold (colour : Colour) (text : String) : String := encloseAll colour.boldStart text

end Colour

end YulBackend
