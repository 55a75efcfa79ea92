import YulBackend.Proofs.Codegen.CodeRequests
import YulBackend.Proofs.Codegen.Partition

namespace YulBackend

namespace Contextual

/-- The same work, of which the result does not matter. -/
def silent {α : Type} (work : Contextual α) : Contextual Unit := fun c => ((work c).1.map fun _ => (), (work c).2)

/-- Changes the context, or fails and changes nothing. -/
def change (f : Context → Except Fault Context) : Contextual Unit := step fun c => do return ((), ← f c)

end Contextual

/-- One use of a context. -/
inductive ContextOperation
  | dispatch (operation : DispatchOperation)
  | setMostDerived (contract : Contract)
  | mostDerived
  | bindLocal (v : Variable)
  | localVariable (v : Variable)
  | clearLocals
  | registerImmutable (v : Variable)
  | immutableOffset (v : Variable)
  | finalizeReserved
  | registerState (v : Variable) (slot byte : Nat)
  | storageLocation (v : Variable)
  | newTemporary
  | addSubObject (contract : Contract)
  | generate (request : CodeRequest)
  | reserve (name : String)
  | define (name code : String)
  | release (name : String)
  | takeFunctions
  /-- Asks for a function that anyone may make in any way. -/
  | create (name : String) (creator : Helper String)

/-- Uses the context for pointers to functions. -/
def DispatchOperation.run : DispatchOperation → Contextual Unit
  | seed candidates => .change (·.seedCandidates candidates)
  | collect expression f => .silent (.step (·.collectReference expression f))
  | forget expression => .change (·.forgetReference expression)
  | register arity => .silent (.perform (·.registerDispatch arity))
  | enqueue f => .silent (.perform (·.enqueue f))
  | dequeue => .silent (.step Context.dequeue)
  | promote => .silent (.step Context.promoteReferences)
  | consume fixedPoint => .silent (.step (·.consumeDispatch fixedPoint))

namespace ContextOperation

/-- Uses the context. -/
def run : ContextOperation → Contextual Unit
  | dispatch operation => operation.run
  | setMostDerived contract => .change fun c => .ok { c with mostDerived := some contract }
  | mostDerived => .silent (.ask Context.contract)
  | bindLocal v => .silent (.step (·.bindLocal v))
  | localVariable v => .silent (.ask (·.localVariable v))
  | clearLocals => .change fun c => .ok c.clearLocals
  | registerImmutable v => .change (·.registerImmutable v)
  | immutableOffset v => .silent (.ask (·.immutableOffset v))
  | finalizeReserved => .silent (.step Context.finalizeReserved)
  | registerState v slot byte => .change fun c => .ok (c.registerState v slot byte)
  | storageLocation v => .silent (.ask (·.storageLocation v))
  | newTemporary => .silent (.perform Context.newTemporary)
  | addSubObject contract => .change fun c => .ok (c.addSubObject contract)
  | generate request => .silent request.run
  | reserve name => .silent (.reserve name)
  | define name code => .define name code
  | release name => .release name
  | takeFunctions => .silent .takeFunctions
  | create name creator => .silent (.collect fun _ => Collecting.create name creator)

/-- The context after operations, one after the other, whether or not they succeed. -/
def runAll (c : Context) (operations : List ContextOperation) : Context :=
  operations.foldl (fun c o => (o.run c).2) c

end ContextOperation

namespace Contextual.Effects

def seed (candidates : DispatchMap) : Contextual Unit := do
  if (← get).table.isClean then
    modify fun c => { c with table := { c.table with candidates } }
    if !(← get).table.candidates.isEmpty then
      modify fun c => { c with table := c.table.touch }
  else throw (.violation .seedNotClean)

def collect (expression : NodeId) (f : Function) : Contextual String := do
  if (← get).table.pending.contains expression then throw (.violation (.alreadyReferenced expression))
  modify fun c => { c with table := { c.table with pending := c.table.pending.insert expression f } }
  modify fun c => { c with table := c.table.touch }
  return f.arity.dispatcherName

/-- What waits is dropped before it is checked that something waited. -/
def forget (expression : NodeId) : Contextual Unit := do
  let held := (← get).table.pending.contains expression
  modify fun c => { c with table := { c.table with pending := c.table.pending.erase expression } }
  if held then modify fun c => { c with table := c.table.touch }
  else throw (.violation (.nothingToForget expression))

/-- The first function is taken off before it is checked that there was one. -/
def dequeue : Contextual Function := do
  let first := (← get).queue.entries.head?
  modify fun c => { c with queue := first.elim c.queue fun e => c.queue.erase e.1 }
  match first with
  | some (_, f) => return f
  | none => throw (.violation .queueEmpty)

def consume : Contextual (DispatchMap × DispatchMap) := do
  if !(← get).queue.isEmpty then throw (.violation .functionsQueued)
  if !(← get).table.pending.isEmpty then throw (.violation .referencesPending)
  if (← get).table.phase ≠ .ready then throw (.violation .notAtFixedPoint)
  modify fun c => { c with table := { c.table with phase := .idle } }
  let dispatch := (← get).table.dispatch
  modify fun c => { c with table := { c.table with dispatch := .empty } }
  let candidates := (← get).table.candidates
  modify fun c => { c with table := { c.table with candidates := .empty } }
  return (dispatch, candidates)

def bindLocal (v : Variable) : Contextual StackVariable := do
  if (← get).locals.contains v.id then throw (.violation (.localBoundTwice v.name))
  let bound := StackVariable.ofVariable v
  modify fun c => { c with locals := c.locals.insertIfNew v.id bound }
  return bound

def registerImmutable (v : Variable) : Contextual Unit := do
  if v.mutability ≠ .immutable then throw (.violation (.notImmutable v.name))
  if !v.type.isValueType || v.type.sizeOnStack != 1 then throw (.unsupported (.immutableType v.type))
  match (← get).reserved with
  | none => throw (.violation .reservationClosed)
  | some offset =>
    if v.type.headSize ≠ 32 then throw (.violation (.notOneWord v.name))
    modify fun c => { c with reserved := some (offset + v.type.headSize) }
    modify fun c => { c with immutables := c.immutables.insert v.id offset }

/-- The reservation is taken before it is checked that there was one. -/
def finalizeReserved : Contextual Nat := do
  let reserved := (← get).reserved
  modify fun c => { c with reserved := none }
  match reserved with
  | some reserved => return reserved
  | none => throw (.violation .reservationClosedTwice)

def define (name code : String) : Contextual Unit := do
  match (← get).collector.functions.get? name with
  | some none => modify fun c => { c with collector := ⟨c.collector.functions.insert name (some code)⟩ }
  | _ => throw (.violation (.definedWithoutReservation name))

def takeFunctions : Contextual String := do
  if !(← get).collector.functions.values.all Option.isSome then throw (.violation .takenWhileReserved)
  let functions := (← get).collector.functions
  modify fun c => { c with collector := {} }
  return "\n".intercalate (functions.values.filterMap id)

end Contextual.Effects

namespace Contextual

section

variable {α : Type} (c : Context)

@[simp]
theorem pure_apply (a : α) : (pure a : Contextual α) c = (.ok a, c) := rfl

@[simp]
theorem throw_apply (fault : Fault) : (throw fault : Contextual α) c = (.error fault, c) := rfl

@[simp]
theorem get_bind_apply (k : Context → Contextual α) : ((get : Contextual Context) >>= k) c = k c c := rfl

@[simp]
theorem modify_apply (f : Context → Context) : (modify f : Contextual Unit) c = (.ok (), f c) := rfl

@[simp]
theorem modify_bind_apply (f : Context → Context) (k : Unit → Contextual α) :
    ((modify f : Contextual Unit) >>= k) c = k () (f c) := rfl

@[simp]
theorem map_modify_apply (f : Context → Context) (g : Unit → α) :
    (g <$> (modify f : Contextual Unit)) c = (.ok (g ()), f c) := rfl

end

namespace Effects

/-- Seeding candidates, effect by effect, is the one change that `seedCandidates` describes or a fault that changes
nothing. -/
theorem seed_eq (candidates : DispatchMap) : seed candidates = .change (·.seedCandidates candidates) := by
  funext c
  rw [change, step, Context.seedCandidates, DispatchTable.seed]
  by_cases hclean : c.table.isClean
  · by_cases hempty : candidates.isEmpty <;> simp [seed, hclean, hempty]
  · simp [seed, hclean]

/-- Collecting a reference, effect by effect, is one step of the context. -/
theorem collect_eq (expression : NodeId) (f : Function) :
    collect expression f = .step (·.collectReference expression f) := by
  funext c
  rw [step, Context.collectReference, DispatchTable.collect]
  by_cases hheld : c.table.pending.contains expression
  · simp [collect, hheld]
  · simp [collect, hheld]

/-- Dropping what was not there drops nothing. -/
theorem forget_eq (expression : NodeId) : forget expression = .change (·.forgetReference expression) := by
  funext c
  rw [change, step, Context.forgetReference, DispatchTable.forget]
  by_cases hheld : c.table.pending.contains expression
  · simp [forget, hheld]
  · simp [forget, hheld, SortedMap.erase_of_not_contains hheld]

/-- Taking a function from the queue, effect by effect, is one step of the context. -/
theorem dequeue_eq : dequeue = .step Context.dequeue := by
  funext c
  rw [step, Context.dequeue]
  cases h : c.queue.entries <;> simp [dequeue, h]

/-- Consuming the tables, effect by effect, is one step of the context. -/
theorem consume_eq (fixedPoint : FixedPoint) : consume = .step (·.consumeDispatch fixedPoint) := by
  funext c
  rw [step, Context.consumeDispatch]
  by_cases hqueue : c.queue.isEmpty
  · by_cases hpending : c.table.pending.isEmpty
    · by_cases hphase : c.table.phase = .ready
      · -- no reference waits, so what is left is the empty table
        have hempty : c.table.pending = .empty := SortedMap.ext_entries (List.isEmpty_iff.1 hpending)
        simp [consume, DispatchTable.consume, hqueue, hpending, hphase, ← hempty]
      · simp [consume, DispatchTable.consume, hqueue, hpending, hphase]
    · simp [consume, DispatchTable.consume, hqueue, hpending]
  · simp [consume, hqueue]
    rfl

/-- Binding a local variable, effect by effect, is one step of the context. -/
theorem bindLocal_eq (v : Variable) : bindLocal v = .step (·.bindLocal v) := by
  funext c
  rw [step, Context.bindLocal]
  by_cases hbound : c.locals.contains v.id
  · simp [bindLocal, hbound]
  · simp [bindLocal, hbound, SortedMap.insertIfNew_of_not_contains hbound]

/-- Registering an immutable, effect by effect, is one change of the context. -/
theorem registerImmutable_eq (v : Variable) : registerImmutable v = .change (·.registerImmutable v) := by
  funext c
  rw [change, step, Context.registerImmutable]
  by_cases hmutability : v.mutability = .immutable
  · by_cases hslot : !v.type.isValueType || v.type.sizeOnStack != 1
    · simp only [registerImmutable, hmutability, hslot]
      simp
    · cases hreserved : c.reserved with
      | none => simp [registerImmutable, hmutability, hslot, hreserved]
      | some reserved => simp [registerImmutable, hmutability, hslot, hreserved, SourceType.headSize]
  · simp [registerImmutable, hmutability]

/-- Finalising the reserved memory, effect by effect, is one step of the context. -/
theorem finalizeReserved_eq : finalizeReserved = .step Context.finalizeReserved := by
  funext c
  rw [step, Context.finalizeReserved]
  cases h : c.reserved with
  | none =>
    have hsame : { c with reserved := none } = c := by rw [← h]
    simp [finalizeReserved, h, hsame]
  | some reserved => simp [finalizeReserved, h]

/-- Defining a function, effect by effect, is one change of the collector. -/
theorem define_eq (name code : String) : define name code = .define name code := by
  funext c
  rw [Contextual.define, step, Collector.define]
  cases h : c.collector.functions.get? name with
  | none => simp [define, h]
  | some entry => cases entry <;> simp [define, h]

/-- Taking the functions, effect by effect, hands over the code and empties the collector, or changes nothing. -/
theorem takeFunctions_eq : takeFunctions = .takeFunctions := by
  funext c
  rw [Contextual.takeFunctions, step, Collector.take, takeFunctions, get_bind_apply]
  cases c.collector.functions.values.all Option.isSome <;> rfl

end Effects

end Contextual

namespace ContextOperation

open Contextual

/-- Uses the context, one effect after the other. -/
def effects : ContextOperation → Contextual Unit
  | dispatch (.seed candidates) => Effects.seed candidates
  | dispatch (.collect expression f) => .silent (Effects.collect expression f)
  | dispatch (.forget expression) => Effects.forget expression
  | dispatch .dequeue => .silent Effects.dequeue
  | dispatch (.consume _) => .silent Effects.consume
  | bindLocal v => .silent (Effects.bindLocal v)
  | registerImmutable v => Effects.registerImmutable v
  | finalizeReserved => .silent Effects.finalizeReserved
  | define name code => Effects.define name code
  | takeFunctions => .silent Effects.takeFunctions
  | o => o.run

/-- Nothing that was done before a check fails can be seen afterwards. -/
theorem effects_eq (o : ContextOperation) : o.effects = o.run := by
  cases o with
  | dispatch operation =>
    cases operation with
    | seed candidates => exact Effects.seed_eq candidates
    | collect expression f => exact congrArg silent (Effects.collect_eq expression f)
    | forget expression => exact Effects.forget_eq expression
    | dequeue => exact congrArg silent Effects.dequeue_eq
    | consume fixedPoint => exact congrArg silent (Effects.consume_eq fixedPoint)
    | _ => rfl
  | bindLocal v => exact congrArg silent (Effects.bindLocal_eq v)
  | registerImmutable v => exact Effects.registerImmutable_eq v
  | finalizeReserved => exact congrArg silent Effects.finalizeReserved_eq
  | define name code => exact Effects.define_eq name code
  | takeFunctions => exact congrArg silent Effects.takeFunctions_eq
  | _ => rfl

end ContextOperation

end YulBackend
