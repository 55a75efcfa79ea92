import YulBackend.Dialect
import YulBackend.Literal
import YulBackend.Logic.Prover
import YulBackend.SortedMap

namespace YulBackend

/-- What encoding depends on: the builtins, and the variables that keep their value. -/
structure Encoder (σ : Type) where
  dialect : Dialect
  tracked : String → Bool
  prover : Prover σ

/-- Prover variables bound so far, the number of the next fresh one, and the prover's session. -/
structure Encoding (σ : Type) where
  bindings : SortedMap String Formula := .empty
  fresh : Nat := 0
  session : σ

namespace Encoder

variable {σ : Type}

/-- Runs an action of the prover. -/
def ask {α : Type} (action : StateM σ α) : StateM (Encoding σ) α := fun encoding =>
  let (result, session) := action encoding.session
  (result, { encoding with session })

/-- A variable that stands for an unknown value. -/
def freshVariable (encoder : Encoder σ) : StateM (Encoding σ) Formula := do
  let encoding ← get
  set { encoding with fresh := encoding.fresh + 1 }
  ask (encoder.prover.newVariable ("expr_" ++ toString encoding.fresh) .int)

/-- Binds a program variable to a prover variable of its own. -/
def bind (encoder : Encoder σ) (name : String) : StateM (Encoding σ) Formula := do
  let bound ← ask (encoder.prover.newVariable ("yul_" ++ name) .int)
  modify fun encoding => { encoding with bindings := encoding.bindings.insert name bound }
  return bound

/-- One if a condition holds, else zero. -/
def wordOf (condition : Formula) : Formula := .ite condition (.int 1) (.int 0)

/-- The formula of an instruction on these arguments, where it is modelled. -/
def model? : Instruction → List Formula → Option Formula
  | .lt, [a, b] => some (wordOf (.lt a b))
  | .gt, [a, b] => some (wordOf (.gt a b))
  | .eq, [a, b] => some (wordOf (.eq a b))
  | .isZero, [a] => some (wordOf (.eq a (.int 0)))
  | .add, [a, b] => some (.add a b)
  | _, _ => none

mutual

/-- The formula of an expression. Only `lt`, `gt`, `eq`, `iszero` and `add` are modelled; all else is a fresh variable
that nothing constrains. Integers have no largest word, so a sum does not wrap around. Arguments are encoded before it
is known whether the instruction is modelled. -/
def encode (encoder : Encoder σ) : Expr → StateM (Encoding σ) Formula
  | .call _ callee arguments =>
    match encoder.dialect.instruction? callee.name with
    | none => encoder.freshVariable
    | some instruction => do
      match model? instruction (← encoder.encodeAll arguments) with
      | some formula => return formula
      | none => encoder.freshVariable
  | .identifier name => do
    match (← get).bindings.get? name.name with
    | some bound => if encoder.tracked name.name then return bound else encoder.freshVariable
    | none => encoder.freshVariable
  | .literal value =>
    match value.word with
    | .ok word => return .int word
    | .error _ => encoder.freshVariable

def encodeAll (encoder : Encoder σ) : List Expr → StateM (Encoding σ) (List Formula)
  | [] => return []
  | e :: rest => do
    let formula ← encoder.encode e
    return formula :: (← encoder.encodeAll rest)

end

end Encoder

end YulBackend
