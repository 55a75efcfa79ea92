import YulBackend.Arity
import YulBackend.SourceType

namespace YulBackend

/-- The number that tells a declaration of the front end from all others. Two declarations with the same number are the
same. -/
abbrev NodeId := Nat

/-- Stands for a function pointer that was never set, so no function may carry it. -/
def uninitializedFunction : NodeId := 0

inductive FunctionKind
  | regular
  | constructor
  | fallback
  | receive
deriving DecidableEq, Inhabited, Repr

structure Function where
  id : NodeId
  name : String
  kind : FunctionKind := .regular
  parameters : List SourceType := []
  returns : List SourceType := []
deriving Inhabited

namespace Function

def isConstructor (f : Function) : Bool := f.kind = .constructor

/-- Stack slots in and out under the internal calling convention. -/
def arity (f : Function) : Arity :=
  ⟨SourceType.tupleSizeOnStack f.parameters, SourceType.tupleSizeOnStack f.returns⟩

/-- The type of a pointer to the function. -/
def type (f : Function) : SourceType := .function .internal f.parameters f.returns

end Function

inductive Mutability
  | mutable
  | immutable
  | constant
deriving DecidableEq, Inhabited, Repr

structure Variable where
  id : NodeId
  name : String
  type : SourceType
  mutability : Mutability := .mutable
deriving Inhabited

structure Contract where
  id : NodeId
  name : String
deriving DecidableEq, Inhabited, Repr

/-- A call in the source, which may be the subject of a `try`. -/
structure CallSite where
  id : NodeId
  isTry : Bool
deriving DecidableEq, Inhabited, Repr

end YulBackend
