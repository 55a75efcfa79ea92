import YulBackend.SortedMap
import YulBackend.Syntax

namespace YulBackend

/-- What a walk over a block has found so far. -/
structure SingleAssignment where
  /-- The tracked variables with their initialisers, of which a variable that starts at zero has none. -/
  values : SortedMap String (Option Expr) := .empty
  declaredTwice : List String := []
  assigned : List String := []

namespace SingleAssignment

/-- Sees a declaration of a name. The second one drops it for good. -/
def declare (t : SingleAssignment) (value : Option Expr) (name : String) : SingleAssignment :=
  if t.assigned.contains name || t.declaredTwice.contains name then t
  else if t.values.contains name then
    { t with values := t.values.erase name, declaredTwice := name :: t.declaredTwice }
  else { t with values := t.values.insert name value }

/-- Sees a name that takes one of several values at once, and so has no initialiser of its own. -/
def declareComponent (t : SingleAssignment) (name : String) : SingleAssignment :=
  { t with values := t.values.erase name, declaredTwice := name :: t.declaredTwice }

def assign (t : SingleAssignment) (name : String) : SingleAssignment :=
  { t with values := t.values.erase name, assigned := name :: t.assigned }

def visitDeclaration (t : SingleAssignment) (declared : List Identifier) (value : Option Expr) :
    SingleAssignment :=
  let names := declared.map (·.name)
  match declared, value with
  | [name], value => t.declare value name.name
  | _, none => names.foldl (·.declare none ·) t
  | _, some _ => names.foldl declareComponent t

mutual

def visitStmt (t : SingleAssignment) : Stmt → SingleAssignment
  | .declaration _ declared value => t.visitDeclaration declared value
  | .assignment _ targets _ => (targets.map (·.name)).foldl assign t
  | .function _ _ _ returns body => ((returns.map (·.name)).foldl (·.declare none ·) t).visitBlock body
  | .conditional _ _ body => t.visitBlock body
  | .switch _ _ cases => t.visitCases cases
  | .loop _ pre _ post body => ((t.visitBlock pre).visitBlock post).visitBlock body
  | .block body => t.visitBlock body
  | .expression _ | .break _ | .continue _ | .leave _ => t

def visitBlock (t : SingleAssignment) : Block → SingleAssignment
  | ⟨_, statements⟩ => t.visitStmts statements

def visitStmts (t : SingleAssignment) : List Stmt → SingleAssignment
  | [] => t
  | s :: rest => (t.visitStmt s).visitStmts rest

def visitCases (t : SingleAssignment) : List Case → SingleAssignment
  | [] => t
  | ⟨_, _, body⟩ :: rest => (t.visitBlock body).visitCases rest

end

end SingleAssignment

/-- The variables of a block that keep their first value, with their initialisers. Names count as unique in a block:
one that is declared twice, or assigned anywhere, is not tracked. -/
def Block.singleAssignmentValues (block : Block) : SortedMap String (Option Expr) :=
  (({} : SingleAssignment).visitBlock block).values

end YulBackend
