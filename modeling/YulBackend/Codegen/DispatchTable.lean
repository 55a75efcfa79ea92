import YulBackend.Codegen.Fault
import YulBackend.Codegen.Names
import YulBackend.SortedMap

namespace YulBackend

/-- Functions by identity. -/
abbrev FunctionSet := SortedMap NodeId Function

namespace FunctionSet

/-- Adds a function; of two with one identity the first stays. -/
def add (s : FunctionSet) (f : Function) : FunctionSet := s.insertIfNew f.id f

/-- The set of these functions, of which a later one wins over an earlier of the same identity. -/
def ofList (functions : List Function) : FunctionSet :=
  SortedMap.ofList (functions.map fun f => (f.id, f))

end FunctionSet

/-- Functions by the arity of the dispatcher that reaches them. An arity without functions counts: a
call through a pointer of that arity exists, though no such pointer was ever set. -/
abbrev DispatchMap := SortedMap Arity FunctionSet

namespace DispatchMap

/-- Files a function under its own arity. -/
def file (m : DispatchMap) (f : Function) : DispatchMap :=
  m.alter f.arity fun old => (old.getD .empty).add f

/-- Adds functions to those of an arity. -/
def addAll (m : DispatchMap) (arity : Arity) (functions : List Function) : DispatchMap :=
  m.alter arity fun old => functions.foldl FunctionSet.add (old.getD .empty)

end DispatchMap

inductive DispatchPhase
  /-- Nothing was recorded since the maps were handed out. -/
  | idle
  /-- References, calls or queued functions were recorded since the last promotion. -/
  | collecting
  /-- A promotion left nothing to lower, so the maps may be handed out. -/
  | ready
deriving DecidableEq, Repr

def DispatchPhase.name : DispatchPhase → String
  | idle => "idle"
  | collecting => "collecting"
  | ready => "ready"

/-- Evidence that a promotion left nothing to lower. It goes stale when more work is recorded. -/
structure FixedPoint where
  private mk ::

/-- Which functions can be reached through pointers. A function has to be in the dispatcher of its arity if it is
referenced other than by a direct call and some call through a pointer of that arity exists. Neither is known when a
reference is met, so references wait, become candidates, and are promoted into the dispatch map once their arity is
called. -/
structure DispatchTable where
  dispatch : DispatchMap := .empty
  candidates : DispatchMap := .empty
  /-- References that wait for the next promotion, by the expression that makes them. -/
  pending : SortedMap NodeId Function := .empty
  phase : DispatchPhase := .idle

namespace DispatchTable

def isClean (t : DispatchTable) : Bool :=
  t.dispatch.isEmpty && t.candidates.isEmpty && t.pending.isEmpty

/-- Notes that work was recorded after the last promotion. -/
def touch (t : DispatchTable) : DispatchTable := { t with phase := .collecting }

/-- Offers functions whose pointers another object may have set. -/
def seed (t : DispatchTable) (candidates : DispatchMap) : Except Fault DispatchTable :=
  if t.isClean then
    let t := { t with candidates }
    .ok (if candidates.isEmpty then t else t.touch)
  else .error (.violation .seedNotClean)

/-- Stages a reference that an expression makes. -/
def collect (t : DispatchTable) (expression : NodeId) (f : Function) : Except Fault DispatchTable :=
  if t.pending.contains expression then .error (.violation (.alreadyReferenced expression))
  else .ok { t with pending := t.pending.insert expression f }.touch

/-- Drops a reference that turned out to be a direct call. -/
def forget (t : DispatchTable) (expression : NodeId) : Except Fault DispatchTable :=
  if t.pending.contains expression then
    .ok { t with pending := t.pending.erase expression }.touch
  else .error (.violation (.nothingToForget expression))

/-- Notes a call through a pointer of an arity. -/
def register (t : DispatchTable) (arity : Arity) : DispatchTable :=
  if t.dispatch.contains arity then t
  else { t with dispatch := t.dispatch.insert arity .empty }.touch

/-- Moves the candidates of a dispatched arity over, and gives those functions. -/
def promoteArity (t : DispatchTable) (arity : Arity) (members : FunctionSet) :
    Except Fault (List Function × DispatchTable) :=
  match t.candidates.get? arity with
  | none => .ok ([], t)
  | some candidates =>
    if members.isEmpty then
      .ok (candidates.values,
        { t with
          dispatch := t.dispatch.insert arity candidates
          candidates := t.candidates.erase arity })
    else .error (.violation (.membersAndCandidates arity))

/-- Files a reference under its arity, and gives the function if it became dispatchable. -/
def promoteReference (t : DispatchTable) (f : Function) :
    Except Fault (List Function × DispatchTable) :=
  match t.dispatch.get? f.arity with
  | none => .ok ([], { t with candidates := t.candidates.file f })
  | some members =>
    if t.candidates.contains f.arity then .error (.violation (.dispatchedAndCandidate f.arity))
    else if members.contains f.id then .ok ([], t)
    else .ok ([f], { t with dispatch := t.dispatch.file f })

/-- Takes steps one after the other and joins what they give. -/
def runAll {α : Type} (step : DispatchTable → α → Except Fault (List Function × DispatchTable))
    (t : DispatchTable) : List α → Except Fault (List Function × DispatchTable)
  | [] => .ok ([], t)
  | a :: rest => do
    let (first, t) ← step t a
    let (others, t) ← runAll step t rest
    return (first ++ others, t)

/-- No arity may be in both maps. -/
def checkPartition (t : DispatchTable) : Except Fault Unit :=
  match t.dispatch.keys.find? t.candidates.contains with
  | some arity => .error (.violation (.keyOfBothMaps arity))
  | none => .ok ()

/-- Promotes the candidates of every dispatched arity and then files the waiting references. Gives the
functions that became dispatchable, which have to be queued, for they may hold further references. -/
def promote (t : DispatchTable) : Except Fault (List Function × DispatchTable) := do
  let (moved, t) ← runAll (fun t e => t.promoteArity e.1 e.2) t t.dispatch.entries
  let (filed, t) ← runAll promoteReference { t with pending := .empty } t.pending.values
  t.checkPartition
  return (moved ++ filed, t)

/-- Declares the maps complete. -/
def markReady (t : DispatchTable) : FixedPoint × DispatchTable := (⟨⟩, { t with phase := .ready })

/-- Hands out the dispatch map and the candidates that are left, and starts over. -/
def consume (t : DispatchTable) (_ : FixedPoint) :
    Except Fault ((DispatchMap × DispatchMap) × DispatchTable) :=
  if !t.pending.isEmpty then .error (.violation .referencesPending)
  else if t.phase ≠ .ready then .error (.violation .notAtFixedPoint)
  else .ok ((t.dispatch, t.candidates), {})

end DispatchTable

end YulBackend
