import YulBackend.Codegen.Code
import YulBackend.Codegen.DispatchTable

namespace YulBackend.Dispatcher

/-- What can be reached are functions of the dispatcher's arity, no constructors, with an identity. -/
def check (arity : Arity) (f : Function) : Except Fault Unit :=
  if f.arity ≠ arity then
    .error (.violation (.dispatchedUnderOtherArity f.codeName f.arity arity))
  else if f.isConstructor then .error (.violation (.dispatchedConstructor f.name))
  else if f.id = uninitializedFunction then .error (.violation .dispatchedWithoutId)
  else .ok ()

def inputs (arity : Arity) : List String := numberedNames "in_" arity.inputs

def outputs (arity : Arity) : List String := numberedNames "out_" arity.outputs

/-- The call of a function with the dispatcher's own arguments, whose results become the dispatcher's. -/
def forward (arity : Arity) (f : Function) : Stmt :=
  let call := Expr.apply f.codeName ((inputs arity).map .var)
  if arity.outputs = 0 then .expression call else .assign (outputs arity) call

def case (arity : Arity) (f : Function) : Case :=
  ⟨{}, some (.number (toString f.id)), .ofList [forward arity f]⟩

def unknownCase : Case := ⟨{}, none, .ofList [.perform "invalid" []]⟩

/-- The function that makes calls through pointers of an arity. It takes the identity of the function to call and its
arguments, and calls it; an identity that it does not know, zero among them, is an invalid operation. -/
def definition (arity : Arity) (functions : FunctionSet) : Except Fault Stmt := do
  functions.values.forM (check arity)
  let cases := functions.values.map (case arity) ++ [unknownCase]
  return .define arity.dispatcherName ("fun" :: inputs arity) (outputs arity)
    [.switch {} (.var "fun") cases]

end YulBackend.Dispatcher
