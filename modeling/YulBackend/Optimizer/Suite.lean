import YulBackend.Optimizer.ConstantConditions

namespace YulBackend

/-- What a step leaves behind, whether or not it failed. -/
structure OptimizerStep.Outcome (State : Type) where
  block : Block
  state : State
  failure : Option String := none

/-- A step over a block. It keeps a state from run to run and reports on it. -/
structure OptimizerStep where
  name : String
  description : String := "No description provided"
  State : Type
  state : State
  run : Dialect → Block → State → OptimizerStep.Outcome State
  /-- One line on what the step did so far. -/
  summary : State → Option String := fun _ => none

namespace OptimizerStep

/-- Replaces constant conditions and counts them over all runs. -/
def constantConditions : OptimizerStep where
  name := "ReasoningBasedSimplifier"
  description := "Replaces if conditions that are provably constant"
  State := ConstantConditions.Counts
  state := {}
  run dialect block counts :=
    let (block, more) := ConstantConditions.run dialect block
    { block, state := counts.add more }
  summary counts :=
    some (toString counts.toTrue ++ " condition(s) always true, " ++ toString counts.toFalse ++
      " always false")

end OptimizerStep

/-- A line of the report on a suite: a step that ran, and its summary at that time. -/
structure StepReport where
  name : String
  summary : Option String
deriving DecidableEq, Repr

structure OptimizerSuite where
  steps : List OptimizerStep
  collectsStatistics : Bool := false
  statistics : List StepReport := []

namespace OptimizerSuite

/-- Runs steps in order up to the first that fails. Gives back the steps with their new states, the
block as the last step left it, the reports, and the failure. -/
def runSteps (dialect : Dialect) (block : Block) :
    List OptimizerStep → List OptimizerStep × Block × List StepReport × Option String
  | [] => ([], block, [], none)
  | step :: rest =>
    let outcome := step.run dialect block step.state
    let ran := { step with state := outcome.state }
    match outcome.failure with
    | some failure => (ran :: rest, outcome.block, [], some failure)
    | none =>
      let (rest, block, reports, failure) := runSteps dialect outcome.block rest
      (ran :: rest, block, ⟨step.name, step.summary outcome.state⟩ :: reports, failure)

/-- Runs all steps over a block. -/
def run (suite : OptimizerSuite) (dialect : Dialect) (block : Block) :
    OptimizerSuite × Block × Option String :=
  let (steps, block, reports, failure) := runSteps dialect block suite.steps
  let statistics :=
    if suite.collectsStatistics then suite.statistics ++ reports else suite.statistics
  ({ suite with steps, statistics }, block, failure)

end OptimizerSuite

end YulBackend
