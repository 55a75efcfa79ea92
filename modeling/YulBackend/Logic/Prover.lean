import YulBackend.Logic.Formula

namespace YulBackend

inductive Verdict
  | satisfiable
  | unsatisfiable
  /-- The prover gave up. Whoever asked must act as if the answer were `satisfiable`. -/
  | unknown
deriving DecidableEq, Repr

def Verdict.name : Verdict → String
  | satisfiable => "sat"
  | unsatisfiable => "unsat"
  | unknown => "unknown"

/-- What the optimiser needs of a theorem prover: the operations of a session with a stack of assertion scopes, whose
states have type `σ`. -/
structure Prover (σ : Type) where
  newVariable : String → ValueSort → StateM σ Formula
  assert : Formula → StateM σ Unit
  push : StateM σ Unit
  pop : StateM σ Unit
  /-- Whether all open assertions can hold together with these assumptions. -/
  check : List Formula → StateM σ Verdict

namespace Prover

variable {σ : Type}

/-- Runs an action in an assertion scope of its own. -/
def withScope {α : Type} (prover : Prover σ) (action : StateM σ α) : StateM σ α := do
  prover.push
  let result ← action
  prover.pop
  return result

/-- Whether a hypothesis contradicts the open assertions. -/
def refutes (prover : Prover σ) (hypothesis : Formula) : StateM σ Bool :=
  prover.withScope do
    prover.assert hypothesis
    return (← prover.check []) = .unsatisfiable

/-- One call of a prover's operations. -/
inductive Event
  | newVariable (name : String) (sort : ValueSort)
  | assert (formula : Formula)
  | push
  | pop
  | check (assumptions : List Formula) (verdict : Verdict)
deriving DecidableEq

/-- A line of a log of calls. -/
def Event.text : Event → String
  | newVariable name sort => "var " ++ name ++ " " ++ sort.name
  | assert formula => "assert " ++ formula.text
  | push => "push"
  | pop => "pop"
  | check _ verdict => "check " ++ verdict.name

/-- The same prover with a record of its calls, latest first, beside its own state. -/
def traced (prover : Prover σ) : Prover (σ × List Event) where
  newVariable name sort := fun (s, events) =>
    let (formula, s) := prover.newVariable name sort s
    (formula, s, .newVariable name sort :: events)
  assert formula := fun (s, events) =>
    let (result, s) := prover.assert formula s
    (result, s, .assert formula :: events)
  push := fun (s, events) =>
    let (result, s) := prover.push s
    (result, s, .push :: events)
  pop := fun (s, events) =>
    let (result, s) := prover.pop s
    (result, s, .pop :: events)
  check assumptions := fun (s, events) =>
    let (verdict, s) := prover.check assumptions s
    (verdict, s, .check assumptions verdict :: events)

end Prover

end YulBackend
