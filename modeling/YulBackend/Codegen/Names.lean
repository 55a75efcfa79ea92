import YulBackend.Declaration

namespace YulBackend

/-- A function as it is shown to a reader, with its identity. -/
def Function.label (f : Function) : String := f.name ++ "#" ++ toString f.id

/-- The name of a function in generated code. Other tools match on the names of what is generated, so their forms are
fixed. -/
def Function.codeName (f : Function) : String := "fun_" ++ f.name ++ "_" ++ toString f.id

def Variable.getterName (v : Variable) : String := "getter_fun_" ++ v.name ++ "_" ++ toString v.id

def Variable.localName (v : Variable) : String := "vloc_" ++ v.name ++ "_" ++ toString v.id

def Contract.creationName (c : Contract) : String := c.name ++ "_" ++ toString c.id

def Contract.runtimeName (c : Contract) : String := c.creationName ++ "_deployed"

def Arity.dispatcherName (a : Arity) : String := "dispatch_internal_" ++ a.text

/-- The names `stem0`, `stem1` and so on, as many as asked for. -/
def numberedNames (stem : String) (count : Nat) : List String :=
  (List.range count).map fun i => stem ++ toString i

end YulBackend
