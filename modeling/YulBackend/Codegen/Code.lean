import YulBackend.Printer
import YulBackend.Text.Hex

namespace YulBackend

namespace Expr

def decimal (n : Nat) : Expr := .number (toString n)

def hexadecimal (n : Nat) : Expr := .number (Hex.literal n)

end Expr

namespace Stmt

/-- A call for its effect. -/
def perform (callee : String) (arguments : List Expr) : Stmt := .expression (.apply callee arguments)

def assign (targets : List String) (value : Expr) : Stmt :=
  .assignment {} (targets.map ({ name := · })) value

def «let» (name : String) (value : Expr) : Stmt := .declaration {} [{ name }] (some value)

def define (name : String) (parameters returns : List String) (body : List Stmt) : Stmt :=
  .function {} name (parameters.map ({ name := · })) (returns.map ({ name := · })) (.ofList body)

/-- Code as it is stored and handed out. -/
def code (s : Stmt) : String := s.print .plain

end Stmt

end YulBackend
