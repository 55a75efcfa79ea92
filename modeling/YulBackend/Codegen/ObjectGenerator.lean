import YulBackend.Codegen.Context

namespace YulBackend

/-- Produces the text of a function, and reports to the context all that the function refers to. -/
abbrev Lowering := Function → Contextual String

/-- What works on one object of a contract. Lowering a function can queue others and meet calls through pointers, and
promoting references can queue more again, so the queue is emptied and references are promoted in turn until neither
makes new work. -/
structure Generator where
  context : Context
  /-- Every function whose lowering was started, latest first. -/
  lowered : List Function := []

/-- Work of a generator. It has no result if it was not given enough steps to finish. -/
abbrev Generating := ExceptT Fault (StateT Generator Option)

/-- The text of an object, with the maps that its dispatchers were made from. -/
structure GeneratedObject where
  name : String
  code : String
  dispatch : DispatchMap
  leftover : DispatchMap

namespace Generating

/-- Works on the context. -/
def onContext {α : Type} (work : Contextual α) : Generating α := fun g =>
  let (result, context) := work g.context
  some (result, { g with context })

/-- Gives up for want of steps. -/
def outOfFuel {α : Type} : Generating α := fun _ => none

/-- Lowers a function whose name is reserved. If that fails the name is free again. -/
def lower (lowering : Lowering) (f : Function) : Generating Unit := do
  modify fun g => { g with lowered := f :: g.lowered }
  onContext do
    Contextual.perform fun c => ((), c.clearLocals)
    let code ←
      tryCatch (lowering f) fun fault => do
        Contextual.release f.codeName
        throw fault
    Contextual.define f.codeName code

/-- Lowers queued functions and promotes references until the queue stays empty. Gives the number of
functions lowered and the evidence that the maps are complete. Each step lowers one queued function or
promotes once. -/
def generateQueued (lowering : Lowering) : Nat → Generating (Nat × FixedPoint)
  | 0 => outOfFuel
  | fuel + 1 => do
    if (← get).context.queue.isEmpty then
      match ← onContext (.step Context.promoteReferences) with
      | some fixedPoint => return (0, fixedPoint)
      | none => generateQueued lowering fuel
    else
      let f ← onContext (.step Context.dequeue)
      if ← onContext (.reserve f.codeName) then
        lower lowering f
        let (count, fixedPoint) ← generateQueued lowering fuel
        return (count + 1, fixedPoint)
      else generateQueued lowering fuel

/-- Takes the maps and makes a dispatcher for each arity. -/
def generateDispatchers (fixedPoint : FixedPoint) : Generating (DispatchMap × DispatchMap) := do
  let maps ← onContext (.step (·.consumeDispatch fixedPoint))
  maps.1.entries.forM fun (arity, functions) =>
    onContext do discard (Contextual.dispatcher arity functions)
  return maps

/-- Generates an object from the functions that it is entered by. -/
def generateObject (lowering : Lowering) (fuel : Nat) (name : String) (entries : List Function) :
    Generating GeneratedObject := do
  entries.forM fun f => onContext do discard (Contextual.perform (·.enqueue f))
  let (_, fixedPoint) ← generateQueued lowering fuel
  let (dispatch, leftover) ← generateDispatchers fixedPoint
  let code ← onContext .takeFunctions
  return { name, code, dispatch, leftover }

/-- What one object offers to the next: every function that it dispatched or kept as a candidate. -/
def offered (object : GeneratedObject) : DispatchMap :=
  object.dispatch.entries.foldl
    (fun m (arity, functions) =>
      if functions.isEmpty then m else m.addAll arity functions.values)
    object.leftover

/-- Generates the creation object and then the runtime object of a contract. Pointers set during
construction can be stored and called later, so the functions behind them are offered to the runtime
object. -/
def generateContract (lowering : Lowering) (fuel : Nat) (contract : Contract)
    (creation runtime : List Function) : Generating (GeneratedObject × GeneratedObject) := do
  onContext (.perform fun c => ((), { c with mostDerived := some contract }))
  let created ← generateObject lowering fuel contract.creationName creation
  onContext (.step fun c => do return ((), ← c.seedCandidates (offered created)))
  let deployed ← generateObject lowering fuel contract.runtimeName runtime
  return (created, deployed)

end Generating

end YulBackend
