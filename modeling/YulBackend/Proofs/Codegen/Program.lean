import YulBackend.Codegen.ObjectGenerator
import YulBackend.Proofs.Codegen.Names
import YulBackend.Proofs.Codegen.Partition
import YulBackend.Proofs.Codegen.PromotedFunctions

namespace YulBackend

/-- What the body of a function comes to. -/
structure Body where
  code : String
  callees : List Function
  /-- The functions that are referred to by value, by the expression that does so. -/
  references : SortedMap NodeId Function
  /-- The arities of calls through pointers. -/
  pointerCalls : List Arity

structure Program where
  declared : Function → Prop
  body : Function → Body
  /-- The identity of the function whose body an expression stands in. -/
  owner : NodeId → NodeId
  idsIdentify : IdsIdentify declared
  declared_callee : ∀ f g, declared f → g ∈ (body f).callees → declared g
  declared_reference : ∀ f g, declared f → g ∈ (body f).references.values → declared g

/-- The references that wait after an operation. -/
def DispatchOperation.stage (pending : SortedMap NodeId Function) :
    DispatchOperation → SortedMap NodeId Function
  | .collect expression f => pending.insertIfNew expression f
  | .forget expression => pending.erase expression
  | _ => pending

namespace Program

/-- What lowering a function may report. A reference that turns out to be a call is dropped again. -/
def MayReport (p : Program) (f : Function) : DispatchOperation → Prop
  | .enqueue g => g ∈ (p.body f).callees
  | .register arity => arity ∈ (p.body f).pointerCalls
  | .collect expression _ => p.owner expression = f.id
  | .forget expression => p.owner expression = f.id
  | _ => False

/-- Operations that report the body of a function, in any order and as often as they like. -/
structure Reports (p : Program) (f : Function) (operations : List DispatchOperation) : Prop where
  mayReport : ∀ operation ∈ operations, p.MayReport f operation
  callees : ∀ g ∈ (p.body f).callees, .enqueue g ∈ operations
  references : operations.foldl DispatchOperation.stage .empty = (p.body f).references
  pointerCalls : ∀ arity ∈ (p.body f).pointerCalls, .register arity ∈ operations

/-- A lowering of a program gives the text of a function and reports its body. Whatever else it does with
the context, it makes no function by the name of one of the program. -/
def LoweredBy (p : Program) (lowering : Lowering) : Prop :=
  ∀ f c code c', p.declared f → lowering f c = (.ok code, c') →
    code = (p.body f).code ∧
      (∃ operations, p.Reports f operations ∧
        c'.queue = (c.operateAll operations).queue ∧ c'.table = (c.operateAll operations).table) ∧
      ∀ g, p.declared g →
        c'.collector.functions.get? g.codeName = c.collector.functions.get? g.codeName

/-- The functions that have to be lowered for these entries and offered functions. -/
inductive Reached (p : Program) (entries : List Function) (offered : Function → Prop) :
    Function → Prop
  | entry {f} : f ∈ entries → Reached p entries offered f
  | callee {f g} : Reached p entries offered f → g ∈ (p.body f).callees → Reached p entries offered g
  | referenced {f g h} : Reached p entries offered h → g ∈ (p.body h).references.values →
      Reached p entries offered f → g.arity ∈ (p.body f).pointerCalls → Reached p entries offered g
  | offered {f g} : offered g → Reached p entries offered f → g.arity ∈ (p.body f).pointerCalls →
      Reached p entries offered g

/-- Functions whose pointers can be set: those that are offered and those that a lowered function refers
to by value. -/
def Pointed (p : Program) (entries : List Function) (offered : Function → Prop) (f : Function) : Prop :=
  offered f ∨ ∃ h, p.Reached entries offered h ∧ f ∈ (p.body h).references.values

/-- Arities of the calls through pointers in lowered functions. -/
def Called (p : Program) (entries : List Function) (offered : Function → Prop) (a : Arity) : Prop :=
  ∃ f, p.Reached entries offered f ∧ a ∈ (p.body f).pointerCalls

/-- A context that has seen nothing of a program, except for functions that another object offers. -/
structure Fresh (p : Program) (c : Context) : Prop where
  collector : c.collector.isEmpty
  queue : c.queue.isEmpty
  dispatch : c.table.dispatch.isEmpty
  pending : c.table.pending.isEmpty
  candidates : c.table.candidates.WellFiled p.declared
  inhabited : c.table.candidates.Inhabited

/-- An object that holds exactly what its entries can reach. -/
structure Closure (p : Program) (entries : List Function) (offered : Function → Prop)
    (object : GeneratedObject) (lowered : List Function) : Prop where
  once : lowered.Nodup
  lowered : ∀ f, f ∈ lowered ↔ p.Reached entries offered f
  dispatched : ∀ a, object.dispatch.contains a ↔ p.Called entries offered a
  members : ∀ a members, object.dispatch.get? a = some members →
    ∀ f, f ∈ members.values ↔ p.Pointed entries offered f ∧ f.arity = a
  leftover : ∀ a, object.leftover.contains a ↔
    (∃ f, p.Pointed entries offered f ∧ f.arity = a) ∧ ¬ p.Called entries offered a
  candidates : ∀ a candidates, object.leftover.get? a = some candidates →
    ∀ f, f ∈ candidates.values ↔ p.Pointed entries offered f ∧ f.arity = a
  code : ∃ collector rest : Collector, collector.take = .ok (object.code, rest) ∧
    ∀ f, p.declared f →
      (p.Reached entries offered f → collector.code? f.codeName = some (p.body f).code) ∧
      (¬ p.Reached entries offered f → collector.contains f.codeName = false)

end Program

end YulBackend
