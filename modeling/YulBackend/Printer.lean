import YulBackend.Syntax
import YulBackend.Syntax.Keyword
import YulBackend.Text.Colour
import YulBackend.Text.Escape

namespace YulBackend

/-- What one level of indentation is. -/
inductive Indent
  | spaces (count : Nat)
  | tabs
deriving DecidableEq, Repr

def Indent.unit : Indent → String
  | spaces count => String.ofList (List.replicate count ' ')
  | tabs => "\t"

structure PrintStyle where
  colour : Bool
  indent : Indent
deriving DecidableEq, Repr

namespace PrintStyle

/-- Four blanks a level, no colour. -/
def plain : PrintStyle := { colour := false, indent := .spaces 4 }

/-- Four blanks a level, reserved words in colour. -/
def coloured : PrintStyle := { colour := true, indent := .spaces 4 }

end PrintStyle

/-- Where printing starts: how deep, with which unit of indentation, with or without colour. -/
structure PrintContext where
  level : Nat
  unit : String
  colour : Bool
deriving DecidableEq, Repr

namespace PrintContext

def ofStyle (style : PrintStyle) : PrintContext :=
  { level := 0, unit := style.indent.unit, colour := style.colour }

def deepen (context : PrintContext) : PrintContext := { context with level := context.level + 1 }

/-- One level less, and at the outermost level nothing. -/
def flatten (context : PrintContext) : PrintContext := { context with level := context.level - 1 }

/-- The indentation `depth` levels below the context's own. -/
def indentation (context : PrintContext) (depth : Nat) : String :=
  String.join (List.replicate (context.level + depth) context.unit)

end PrintContext

/-- What a node is laid out as: reserved words, other text, and line breaks with their depth. Rendering then decides on
the indentation and on colours, so neither can touch anything else. -/
inductive Piece
  | keyword (word : Keyword)
  | text (content : String)
  /-- A line break and the indentation that follows it. -/
  | newline (depth : Nat)
deriving DecidableEq, Repr

/-- No reserved word takes colours back, so there is none to set again. -/
def paintKeyword (word : String) : String :=
  Colour.enclose Colour.brightMagenta.boldStart word

def Piece.render (context : PrintContext) : Piece → String
  | keyword word => if context.colour then paintKeyword word.text else word.text
  | text content => content
  | newline depth => "\n" ++ context.indentation depth

def Piece.renderAll (context : PrintContext) (pieces : List Piece) : String :=
  String.join (pieces.map (·.render context))

namespace Literal

/-- Strings are quoted and escaped, other literals stand as they are. -/
def text (value : Literal) : String :=
  match value.kind with
  | .number | .boolean => value.value
  | .string => "\"" ++ String.ofList (Escape.encode value.value.toList) ++ "\""

end Literal

/-- Names with commas between them. -/
def Identifier.listText (names : List Identifier) : String :=
  ", ".intercalate (names.map (·.name))

mutual

def Expr.text : Expr → String
  | .call _ callee arguments => callee.name ++ "(" ++ ", ".intercalate (Expr.texts arguments) ++ ")"
  | .identifier name => name.name
  | .literal value => value.text

def Expr.texts : List Expr → List String
  | [] => []
  | e :: rest => e.text :: Expr.texts rest

end

mutual

/-- The pieces of a statement that stands at this depth. -/
def Stmt.pieces (depth : Nat) : Stmt → List Piece
  | .expression value => [.text value.text]
  | .assignment _ targets value => [.text (Identifier.listText targets ++ " := " ++ value.text)]
  | .declaration _ declared none =>
    [.keyword .let, .text (" " ++ Identifier.listText declared)]
  | .declaration _ declared (some value) =>
    [.keyword .let, .text (" " ++ Identifier.listText declared ++ " := " ++ value.text)]
  | .function _ name parameters returns body =>
    let arrow := if returns.isEmpty then "" else " -> " ++ Identifier.listText returns
    .keyword .function ::
      .text (" " ++ name ++ "(" ++ Identifier.listText parameters ++ ")" ++ arrow ++ " ") ::
      body.pieces depth
  | .conditional _ condition body =>
    .keyword .if :: .text (" " ++ condition.text ++ " ") :: body.pieces depth
  | .switch _ scrutinee cases =>
    .keyword .switch :: .text (" " ++ scrutinee.text) :: Case.listPieces depth cases
  | .loop _ pre condition post body =>
    .keyword .for :: .text " " :: (pre.pieces depth ++
      .text (" " ++ condition.text ++ " ") :: (post.pieces depth ++
      .text " " :: body.pieces depth))
  | .break _ => [.keyword .break]
  | .continue _ => [.keyword .continue]
  | .leave _ => [.keyword .leave]
  | .block body => body.pieces depth

/-- An empty block stays on its line; any other has a line for each statement. -/
def Block.pieces (depth : Nat) : Block → List Piece
  | ⟨_, []⟩ => [.text "\x7b \x7d"]
  | ⟨_, first :: rest⟩ =>
    .text "\x7b" :: (Stmt.listPieces (depth + 1) (first :: rest) ++ [.newline depth, .text "\x7d"])

def Stmt.listPieces (depth : Nat) : List Stmt → List Piece
  | [] => []
  | s :: rest => .newline depth :: (s.pieces depth ++ Stmt.listPieces depth rest)

/-- Every clause starts a line as deep as its `switch`. -/
def Case.listPieces (depth : Nat) : List Case → List Piece
  | [] => []
  | ⟨_, some value, body⟩ :: rest =>
    .newline depth :: .keyword .case :: .text (" " ++ value.text ++ " ") ::
      (body.pieces depth ++ Case.listPieces depth rest)
  | ⟨_, none, body⟩ :: rest =>
    .newline depth :: .keyword .default :: .text " " ::
      (body.pieces depth ++ Case.listPieces depth rest)

end

/-- Prints a block from the middle of a larger text. -/
def Block.printIn (context : PrintContext) (block : Block) : String :=
  Piece.renderAll context (block.pieces 0)

def Block.print (style : PrintStyle) (block : Block) : String :=
  block.printIn (.ofStyle style)

def Stmt.print (style : PrintStyle) (statement : Stmt) : String :=
  Piece.renderAll (.ofStyle style) (statement.pieces 0)

end YulBackend
