import YulBackend.Json
import YulBackend.Syntax

namespace YulBackend

namespace Span

def toJson (s : Span) : Json := .obj [("start", .nat s.start), ("end", .nat s.stop)]

def ofJson? (j : Json) : Option Span := do
  let j := j.record ["start", "end"]
  return ⟨← (← j.field? "start").nat?, ← (← j.field? "end").nat?⟩

/-- The span that a node holds. -/
def ofNode? (j : Json) : Option Span := do ofJson? (← j.field? "span")

end Span

namespace Identifier

def toJson (i : Identifier) : Json := .obj [("span", i.span.toJson), ("name", .str i.name)]

def listToJson (names : List Identifier) : Json := .array (names.map toJson)

def ofJson? (j : Json) : Option Identifier := do
  let j := j.record ["span", "name"]
  return ⟨← Span.ofNode? j, ← (← j.field? "name").string?⟩

/-- The names in a part of a node. -/
def listOf? (j : Json) (part : String) : Option (List Identifier) := do
  (← (← j.field? part).list?).mapM ofJson?

end Identifier

namespace LiteralKind

def name : LiteralKind → String
  | number => "Number"
  | boolean => "Boolean"
  | string => "String"

def ofName? : String → Option LiteralKind
  | "Number" => some number
  | "Boolean" => some boolean
  | "String" => some string
  | _ => none

end LiteralKind

namespace Literal

def toJson (l : Literal) : Json :=
  .obj [("span", l.span.toJson), ("kind", .str l.kind.name), ("value", .str l.value)]

def ofJson? (j : Json) : Option Literal := do
  let j := j.record ["span", "kind", "value"]
  return ⟨← Span.ofNode? j, ← LiteralKind.ofName? (← (← j.field? "kind").choice?),
    ← (← j.field? "value").string?⟩

end Literal

/-- A node of a kind, with its span. -/
def nodeJson (kind : String) (span : Span) (parts : List (String × Json)) : Json :=
  .tagged kind (.obj (("span", span.toJson) :: parts))

mutual

def Expr.toJson : Expr → Json
  | .call span callee arguments =>
    nodeJson "FunctionCall" span
      [("function_name", callee.toJson), ("arguments", .array (Expr.listToJson arguments))]
  | .identifier name => .tagged "Identifier" name.toJson
  | .literal value => .tagged "Literal" value.toJson

def Expr.listToJson : List Expr → List Json
  | [] => []
  | e :: rest => e.toJson :: Expr.listToJson rest

end

mutual

/-- A tree as JSON: a node is an object named for its kind, and holds its parts by name. -/
def Stmt.toJson : Stmt → Json
  | .expression value => .tagged "ExpressionStatement" value.toJson
  | .assignment span targets value =>
    nodeJson "Assignment" span
      [("variable_names", Identifier.listToJson targets), ("value", value.toJson)]
  | .declaration span declared value =>
    nodeJson "VariableDeclaration" span
      [("variables", Identifier.listToJson declared), ("value", .ofOption Expr.toJson value)]
  | .function span name parameters returns body =>
    nodeJson "FunctionDefinition" span
      [("name", .str name), ("parameters", Identifier.listToJson parameters),
        ("return_variables", Identifier.listToJson returns), ("body", body.toJson)]
  | .conditional span condition body =>
    nodeJson "If" span [("condition", condition.toJson), ("body", body.toJson)]
  | .switch span scrutinee cases =>
    nodeJson "Switch" span
      [("expression", scrutinee.toJson), ("cases", .array (Case.listToJson cases))]
  | .loop span pre condition post body =>
    nodeJson "ForLoop" span
      [("pre", pre.toJson), ("condition", condition.toJson), ("post", post.toJson),
        ("body", body.toJson)]
  | .break span => .tagged "Break" span.toJson
  | .continue span => .tagged "Continue" span.toJson
  | .leave span => .tagged "Leave" span.toJson
  | .block body => .tagged "Block" body.toJson

def Block.toJson : Block → Json
  | ⟨span, statements⟩ =>
    .obj [("span", span.toJson), ("statements", .array (Stmt.listToJson statements))]

def Stmt.listToJson : List Stmt → List Json
  | [] => []
  | s :: rest => s.toJson :: Stmt.listToJson rest

def Case.listToJson : List Case → List Json
  | [] => []
  | ⟨span, value, body⟩ :: rest =>
    .obj [("span", span.toJson), ("value", .ofOption Literal.toJson value), ("body", body.toJson)] ::
      Case.listToJson rest

end

/-- An expression that is nested less deep than a bound. -/
def Expr.ofJsonWithin? : Nat → Json → Option Expr
  | 0, _ => none
  | bound + 1, j => do
    match ← j.untag? with
    | ("FunctionCall", c) =>
      let c := c.record ["span", "function_name", "arguments"]
      let arguments ← (← c.field? "arguments").list?
      return .call (← Span.ofNode? c) (← Identifier.ofJson? (← c.field? "function_name"))
        (← arguments.mapM (Expr.ofJsonWithin? bound))
    | ("Identifier", i) => return .identifier (← Identifier.ofJson? i)
    | ("Literal", l) => return .literal (← Literal.ofJson? l)
    | _ => none

def Expr.ofJson? (j : Json) : Option Expr := Expr.ofJsonWithin? (j.depth + 1) j

/-- What the parts of a statement are called, in their order, unless it holds one node alone. -/
def Stmt.partNames : String → List String
  | "Assignment" => ["span", "variable_names", "value"]
  | "VariableDeclaration" => ["span", "variables", "value"]
  | "FunctionDefinition" => ["span", "name", "parameters", "return_variables", "body"]
  | "If" => ["span", "condition", "body"]
  | "Switch" => ["span", "expression", "cases"]
  | "ForLoop" => ["span", "pre", "condition", "post", "body"]
  | _ => []

mutual

/-- A statement that is nested less deep than a bound. -/
def Stmt.ofJsonWithin? : Nat → Json → Option Stmt
  | 0, _ => none
  | bound + 1, j => do
    let (kind, content) ← j.untag?
    let c := content.record (Stmt.partNames kind)
    let expr (part : String) : Option Expr := do Expr.ofJson? (← c.field? part)
    let block (part : String) : Option Block := do Block.ofJsonWithin? bound (← c.field? part)
    match kind with
    | "ExpressionStatement" => return .expression (← Expr.ofJson? c)
    | "Assignment" =>
      return .assignment (← Span.ofNode? c) (← Identifier.listOf? c "variable_names") (← expr "value")
    | "VariableDeclaration" =>
      return .declaration (← Span.ofNode? c) (← Identifier.listOf? c "variables")
        (← (c.optional? "value").mapM Expr.ofJson?)
    | "FunctionDefinition" =>
      return .function (← Span.ofNode? c) (← (← c.field? "name").string?)
        (← Identifier.listOf? c "parameters") (← Identifier.listOf? c "return_variables")
        (← block "body")
    | "If" => return .conditional (← Span.ofNode? c) (← expr "condition") (← block "body")
    | "Switch" =>
      let cases ← (← c.field? "cases").list?
      return .switch (← Span.ofNode? c) (← expr "expression") (← cases.mapM (Case.ofJsonWithin? bound))
    | "ForLoop" =>
      return .loop (← Span.ofNode? c) (← block "pre") (← expr "condition") (← block "post")
        (← block "body")
    | "Break" => return .break (← Span.ofJson? c)
    | "Continue" => return .continue (← Span.ofJson? c)
    | "Leave" => return .leave (← Span.ofJson? c)
    | "Block" => return .block (← Block.ofJsonWithin? bound c)
    | _ => none

def Block.ofJsonWithin? : Nat → Json → Option Block
  | 0, _ => none
  | bound + 1, j => do
    let j := j.record ["span", "statements"]
    let statements ← (← j.field? "statements").list?
    return ⟨← Span.ofNode? j, ← statements.mapM (Stmt.ofJsonWithin? bound)⟩

def Case.ofJsonWithin? : Nat → Json → Option Case
  | 0, _ => none
  | bound + 1, j => do
    let j := j.record ["span", "value", "body"]
    let body ← Block.ofJsonWithin? bound (← j.field? "body")
    return ⟨← Span.ofNode? j, ← (j.optional? "value").mapM Literal.ofJson?, body⟩

end

/-- A tree from JSON. The parts of a node may also stand in an array without their names. -/
def Stmt.ofJson? (j : Json) : Option Stmt := Stmt.ofJsonWithin? (j.depth + 1) j

def Block.ofJson? (j : Json) : Option Block := Block.ofJsonWithin? (j.depth + 1) j

end YulBackend
