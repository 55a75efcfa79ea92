import YulBackend.Logic.Evaluation
import YulBackend.Optimizer.Encoder
import YulBackend.Optimizer.SingleAssignment

namespace YulBackend.ConstantConditions

/-- How many conditions were replaced. -/
structure Counts where
  toTrue : Nat := 0
  toFalse : Nat := 0
deriving DecidableEq, Inhabited, Repr

namespace Counts

def total (c : Counts) : Nat := c.toTrue + c.toFalse

def add (a b : Counts) : Counts := ⟨a.toTrue + b.toTrue, a.toFalse + b.toFalse⟩

end Counts

structure State (σ : Type) where
  encoding : Encoding σ
  counts : Counts := {}

abbrev Walk (σ : Type) := StateM (State σ)

variable {σ : Type}

/-- Runs an encoding step. -/
def encodingStep {α : Type} (action : StateM (Encoding σ) α) : Walk σ α := fun state =>
  let (result, encoding) := action state.encoding
  (result, { state with encoding })

def ask {α : Type} (action : StateM σ α) : Walk σ α := encodingStep (Encoder.ask action)

/-- Asserts what a declaration of one tracked variable says about it. -/
def visitDeclaration (encoder : Encoder σ) : List Identifier → Option Expr → Walk σ Unit
  | [name], some value => do
    if encoder.tracked name.name then
      let bound ← encodingStep (encoder.bind name.name)
      let definition ← encodingStep (encoder.encode value)
      ask (encoder.prover.assert (.eq bound definition))
  | _, _ => pure ()

/-- The condition after the two questions whether it is ever zero and ever anything else. Where both
answers are no the code is unreachable, and zero is taken. -/
def decide (condition : Expr) (neverZero alwaysZero : Bool) : Walk σ Expr := do
  if alwaysZero then
    modify fun s => { s with counts.toFalse := s.counts.toFalse + 1 }
    return .literal { Literal.number "0" with span := condition.span }
  else if neverZero then
    modify fun s => { s with counts.toTrue := s.counts.toTrue + 1 }
    return .literal { Literal.number "1" with span := condition.span }
  else return condition

mutual

def visitStmt (encoder : Encoder σ) : Stmt → Walk σ Stmt
  | .declaration span declared value => do
    visitDeclaration encoder declared value
    return .declaration span declared value
  | .conditional span condition body => do
    let formula ← encodingStep (encoder.encode condition)
    let neverZero ← ask (encoder.prover.refutes (.eq formula (.int 0)))
    let alwaysZero ← ask (encoder.prover.refutes (.notEq formula (.int 0)))
    let condition ← decide condition neverZero alwaysZero
    ask encoder.prover.push
    ask (encoder.prover.assert (.notEq formula (.int 0)))
    let body ← visitBlock encoder body
    ask encoder.prover.pop
    return .conditional span condition body
  | .function span name parameters returns body => do
    return .function span name parameters returns (← visitBlock encoder body)
  | .switch span scrutinee cases => do
    return .switch span scrutinee (← visitCases encoder cases)
  | .loop span pre condition post body => do
    let pre ← visitBlock encoder pre
    let body ← visitBlock encoder body
    let post ← visitBlock encoder post
    return .loop span pre condition post body
  | .block body => do
    return .block (← visitBlock encoder body)
  | .expression value => return .expression value
  | .assignment span targets value => return .assignment span targets value
  | .break span => return .break span
  | .continue span => return .continue span
  | .leave span => return .leave span

def visitBlock (encoder : Encoder σ) : Block → Walk σ Block
  | ⟨span, statements⟩ => do
    return ⟨span, ← visitStmts encoder statements⟩

def visitStmts (encoder : Encoder σ) : List Stmt → Walk σ (List Stmt)
  | [] => return []
  | s :: rest => do
    let s ← visitStmt encoder s
    return s :: (← visitStmts encoder rest)

def visitCases (encoder : Encoder σ) : List Case → Walk σ (List Case)
  | [] => return []
  | ⟨span, value, body⟩ :: rest => do
    let body ← visitBlock encoder body
    return ⟨span, value, body⟩ :: (← visitCases encoder rest)

end

/-- Replaces the `if` conditions of a block that a prover shows to be constant, and leaves the prover's session behind.
Definitions of tracked variables are asserted where the walk meets them, and the body of an `if` is walked in a scope
in which the condition is not zero, so that nothing asserted in there is seen behind it. -/
def runWith (prover : Prover σ) (dialect : Dialect) (block : Block) (session : σ) :
    (Block × Counts) × σ :=
  let values := block.singleAssignmentValues
  let encoder : Encoder σ := { dialect, tracked := values.contains, prover }
  let (block, state) := visitBlock encoder block { encoding := { session } }
  ((block, state.counts), state.encoding.session)

/-- Replaces what the evaluating prover shows to be constant. -/
def run (dialect : Dialect) (block : Block) : Block × Counts :=
  (runWith Evaluation.prover dialect block {}).1

end YulBackend.ConstantConditions
