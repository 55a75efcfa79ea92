import YulBackend.Codegen.AbiTuple
import YulBackend.Codegen.Dispatcher
import YulBackend.Codegen.StackVariable
import YulBackend.Codegen.WordArithmetic

namespace YulBackend

/-- Where memory for general use starts. Immutables lie right above it during construction. -/
def generalMemoryStart : Nat := 0x80

/-- What lowering a contract keeps track of: functions still to be lowered, pointers to functions, locals, immutables,
state variables and the helper functions in use. One context serves the creation object and then the runtime object of
a contract. -/
structure Context where
  settings : Settings
  mostDerived : Option Contract := none
  locals : SortedMap NodeId StackVariable := .empty
  /-- Offsets of immutables from where their memory starts. -/
  immutables : SortedMap NodeId Nat := .empty
  /-- Bytes reserved for immutables, until the reservation is closed. -/
  reserved : Option Nat := some 0
  /-- Slot and byte offset in storage of each state variable. -/
  stateVariables : SortedMap NodeId (Nat × Nat) := .empty
  collector : Collector := {}
  /-- The number of the latest temporary. -/
  temporaries : Nat := 0
  queue : FunctionSet := .empty
  table : DispatchTable := {}
  subObjects : SortedMap NodeId Contract := .empty

namespace Context

/-- Queues a function unless its code exists or is being made, and gives its name. -/
def enqueue (c : Context) (f : Function) : String × Context :=
  if c.collector.contains f.codeName || c.queue.contains f.id then (f.codeName, c)
  else (f.codeName, { c with queue := c.queue.add f, table := c.table.touch })

/-- Takes the queued function with the lowest identity. -/
def dequeue (c : Context) : Except Fault (Function × Context) :=
  match c.queue.entries with
  | [] => .error (.violation .queueEmpty)
  | (id, f) :: _ => .ok (f, { c with queue := c.queue.erase id })

def contract (c : Context) : Except Fault Contract :=
  match c.mostDerived with
  | some contract => .ok contract
  | none => .error (.violation .noContract)

/-- A name that no other temporary has: `_1`, `_2` and so on. -/
def newTemporary (c : Context) : String × Context :=
  ("_" ++ toString (c.temporaries + 1), { c with temporaries := c.temporaries + 1 })

def addSubObject (c : Context) (contract : Contract) : Context :=
  { c with subObjects := c.subObjects.insert contract.id contract }

def bindLocal (c : Context) (v : Variable) : Except Fault (StackVariable × Context) :=
  if c.locals.contains v.id then .error (.violation (.localBoundTwice v.name))
  else
    let bound := StackVariable.ofVariable v
    .ok (bound, { c with locals := c.locals.insert v.id bound })

def isLocal (c : Context) (v : Variable) : Bool := c.locals.contains v.id

def localVariable (c : Context) (v : Variable) : Except Fault StackVariable :=
  match c.locals.get? v.id with
  | some bound => .ok bound
  | none => .error (.violation (.unknownLocal v.name))

def clearLocals (c : Context) : Context := { c with locals := .empty }

/-- Reserves a word of memory for an immutable during construction. -/
def registerImmutable (c : Context) (v : Variable) : Except Fault Context :=
  if v.mutability ≠ .immutable then .error (.violation (.notImmutable v.name))
  else if !v.type.isValueType || v.type.sizeOnStack != 1 then
    .error (.unsupported (.immutableType v.type))
  else
    match c.reserved with
    | none => .error (.violation .reservationClosed)
    | some reserved =>
      if v.type.headSize ≠ 32 then .error (.violation (.notOneWord v.name))
      else
        .ok { c with
          reserved := some (reserved + v.type.headSize)
          immutables := c.immutables.insert v.id reserved }

/-- Where in memory an immutable lies. -/
def immutableOffset (c : Context) (v : Variable) : Except Fault Nat :=
  match c.immutables.get? v.id with
  | some offset => .ok (generalMemoryStart + offset)
  | none => .error (.violation (.unknownImmutable v.name))

/-- Bytes reserved for immutables. There can be no more of them afterwards. -/
def finalizeReserved (c : Context) : Except Fault (Nat × Context) :=
  match c.reserved with
  | some reserved => .ok (reserved, { c with reserved := none })
  | none => .error (.violation .reservationClosedTwice)

def registerState (c : Context) (v : Variable) (slot byte : Nat) : Context :=
  { c with stateVariables := c.stateVariables.insert v.id (slot, byte) }

def isState (c : Context) (v : Variable) : Bool := c.stateVariables.contains v.id

def storageLocation (c : Context) (v : Variable) : Except Fault (Nat × Nat) :=
  match c.stateVariables.get? v.id with
  | some location => .ok location
  | none => .error (.violation (.unknownStateVariable v.name))

def seedCandidates (c : Context) (candidates : DispatchMap) : Except Fault Context := do
  return { c with table := ← c.table.seed candidates }

/-- Stages a reference by value, and gives the name of the dispatcher that it needs. -/
def collectReference (c : Context) (expression : NodeId) (f : Function) :
    Except Fault (String × Context) := do
  return (f.arity.dispatcherName, { c with table := ← c.table.collect expression f })

def forgetReference (c : Context) (expression : NodeId) : Except Fault Context := do
  return { c with table := ← c.table.forget expression }

/-- Notes a call through a pointer, and gives the name of the dispatcher that it calls. -/
def registerDispatch (c : Context) (arity : Arity) : String × Context :=
  (arity.dispatcherName, { c with table := c.table.register arity })

/-- Promotes references and queues what became dispatchable. If nothing is queued then, the maps are
complete, and the evidence for it is handed out. -/
def promoteReferences (c : Context) : Except Fault (Option FixedPoint × Context) := do
  let (functions, table) ← c.table.promote
  let c := functions.foldl (fun c f => (c.enqueue f).2) { c with table }
  if c.queue.isEmpty then
    let (fixedPoint, table) := c.table.markReady
    return (some fixedPoint, { c with table })
  else return (none, c)

/-- Hands out the dispatch map and the candidates that are left. -/
def consumeDispatch (c : Context) (fixedPoint : FixedPoint) :
    Except Fault ((DispatchMap × DispatchMap) × Context) := do
  if c.queue.isEmpty then
    let (maps, table) ← c.table.consume fixedPoint
    return (maps, { c with table })
  else throw (.violation .functionsQueued)

end Context

/-- The variable that holds whether a `try` call succeeded. -/
def CallSite.successName (site : CallSite) : Except Fault String :=
  if site.isTry then .ok ("trySuccessCondition_" ++ toString site.id)
  else .error (.violation (.notTry site.id))

/-- Work on a context that may fail. What it did before it failed stays done. -/
abbrev Contextual := ExceptT Fault (StateM Context)

namespace Contextual

/-- Takes a step that either succeeds or changes nothing. -/
def step {α : Type} (f : Context → Except Fault (α × Context)) : Contextual α := fun c =>
  match f c with
  | .ok (a, c) => (.ok a, c)
  | .error fault => (.error fault, c)

/-- Takes a step that cannot fail. -/
def perform {α : Type} (f : Context → α × Context) : Contextual α := fun c =>
  let (a, c) := f c
  (.ok a, c)

/-- Looks something up. -/
def ask {α : Type} (f : Context → Except Fault α) : Contextual α := fun c => (f c, c)

/-- Works on the collector. -/
def collect {α : Type} (work : Settings → Helper α) : Contextual α := fun c =>
  let (result, collector) := work c.settings c.collector
  (result, { c with collector })

/-- The name of the dispatcher of an arity over these functions, which is made on the first request. -/
def dispatcher (arity : Arity) (functions : FunctionSet) : Contextual String :=
  collect fun _ => do
    let definition ← Dispatcher.definition arity functions
    Collecting.create arity.dispatcherName (pure definition.code)

def cleanup (type : SourceType) : Contextual String := collect fun _ => Helper.cleanup type

def shiftRight (bits : Nat) : Contextual String :=
  collect fun settings => Helper.shiftRight settings.evmVersion bits

def roundUp : Contextual String := collect fun _ => Helper.roundUp

def panic (code : PanicCode) : Contextual String := collect fun _ => Helper.panic code

def revert (message : String) : Contextual String :=
  collect fun settings => Helper.revert settings.revertStrings message

/-- The statements that revert with a message, for use in place. -/
def revertText (message : String) : Contextual String :=
  ask fun c => .ok (YulBackend.revertText c.settings.revertStrings message)

def tupleEncoder (types : List SourceType) : Contextual String :=
  collect fun _ => AbiTuple.encoder types

def tupleDecoder (types : List SourceType) : Contextual String :=
  collect fun settings => AbiTuple.decoder settings.revertStrings types

/-- Claims the name of a function whose text comes later; false if it is taken. -/
def reserve (name : String) : Contextual Bool := perform fun c =>
  match c.collector.reserve? name with
  | some collector => (true, { c with collector })
  | none => (false, c)

def define (name code : String) : Contextual Unit := step fun c => do
  return ((), { c with collector := ← c.collector.define name code })

def release (name : String) : Contextual Unit := perform fun c =>
  ((), { c with collector := c.collector.release name })

/-- The text of all functions made so far, which leaves the collector empty. -/
def takeFunctions : Contextual String := step fun c => do
  let (text, collector) ← c.collector.take
  return (text, { c with collector })

end Contextual

end YulBackend
