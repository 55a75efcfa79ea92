namespace YulBackend

/-- A byte range `[start, stop)` of a source text. Nodes made by a pass have the empty range at zero. -/
structure Span where
  start : Nat := 0
  stop : Nat := 0
deriving DecidableEq, Inhabited, Repr

/-- One occurrence of a name. -/
structure Identifier where
  span : Span := {}
  name : String
deriving DecidableEq, Inhabited, Repr

inductive LiteralKind
  | number
  | boolean
  | string
deriving DecidableEq, Inhabited, Repr

/-- A literal keeps the text of a number or boolean, and the unescaped characters of a string. -/
structure Literal where
  span : Span := {}
  kind : LiteralKind
  value : String
deriving DecidableEq, Inhabited, Repr

namespace Literal

def number (value : String) : Literal := { kind := .number, value }

def boolean (value : Bool) : Literal :=
  { kind := .boolean, value := if value then "true" else "false" }

def string (value : String) : Literal := { kind := .string, value }

end Literal

inductive Expr
  | call (span : Span) (callee : Identifier) (arguments : List Expr)
  | identifier (name : Identifier)
  | literal (value : Literal)
deriving Inhabited

namespace Expr

def span : Expr → Span
  | call span _ _ => span
  | identifier name => name.span
  | literal value => value.span

/-- A call made by a pass. -/
def apply (callee : String) (arguments : List Expr) : Expr :=
  call {} { name := callee } arguments

/-- A name made by a pass. -/
def var (name : String) : Expr := identifier { name }

/-- A number made by a pass. -/
def number (value : String) : Expr := literal (.number value)

end Expr

mutual

/-- Statements of the intermediate language, over calls, names and literals. Every node carries the byte range of the
text it was read from. -/
inductive Stmt
  | expression (value : Expr)
  | assignment (span : Span) (targets : List Identifier) (value : Expr)
  | declaration (span : Span) (declared : List Identifier) (value : Option Expr)
  | function (span : Span) (name : String) (parameters returns : List Identifier) (body : Block)
  | conditional (span : Span) (condition : Expr) (body : Block)
  | switch (span : Span) (scrutinee : Expr) (cases : List Case)
  | loop (span : Span) (pre : Block) (condition : Expr) (post body : Block)
  | «break» (span : Span)
  | «continue» (span : Span)
  | leave (span : Span)
  | block (body : Block)

structure Block where
  span : Span
  statements : List Stmt

/-- One clause of a `switch`; the clause without a value is its default. -/
structure Case where
  span : Span
  value : Option Literal
  body : Block

end

namespace Block

instance : Inhabited Block := ⟨⟨{}, []⟩⟩

/-- A block made by a pass. -/
def ofList (statements : List Stmt) : Block := ⟨{}, statements⟩

end Block

end YulBackend
