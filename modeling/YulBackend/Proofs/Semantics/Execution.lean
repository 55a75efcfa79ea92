import YulBackend.Dialect
import YulBackend.Literal

namespace YulBackend

/-- The values of the variables in scope. -/
abbrev Locals := String → Option Nat

/-- Why a run ends early. -/
inductive Stop
  /-- A builtin ended it. -/
  | halted
  /-- The code means nothing: a name is unknown, or a number of values does not fit. -/
  | stuck
  | outOfFuel
deriving DecidableEq, Repr

/-- How control leaves a statement. -/
inductive Mode
  | normal
  | «break»
  | «continue»
  | leave
deriving DecidableEq, Repr

/-- What the meaning of code depends on. -/
structure Interpretation (W : Type) where
  dialect : Dialect
  /-- What a builtin gives and does to the world. One that gives nothing ends the run. -/
  builtin : String → List Nat → W → Option (List Nat) × W
  /-- The value of a literal that no word stands for. -/
  unvalued : Literal → Nat

/-- One evaluation of the condition of an `if`. -/
structure Decision (W : Type) where
  condition : Expr
  before : W
  result : Except Stop Nat
  after : W

structure Machine (W : Type) where
  world : W
  /-- Every condition that was reached so far, latest first. -/
  decisions : List (Decision W) := []

/-- Work on a machine that may end the run. -/
abbrev Exec (W : Type) := ExceptT Stop (StateM (Machine W))

/-- The functions that blocks define, innermost block first. -/
structure Definition where
  name : String
  parameters : List String
  returns : List String
  body : Block

abbrev Functions := List (List Definition)

/-- A function, with the functions that its body can call. -/
def Functions.find? (name : String) : Functions → Option (Definition × Functions)
  | [] => none
  | frame :: outer =>
    match frame.find? (·.name = name) with
    | some d => some (d, frame :: outer)
    | none => Functions.find? name outer

/-- The functions that can be called anywhere in a block, behind or before their definition. -/
def Stmt.definitions : List Stmt → List Definition
  | [] => []
  | .function _ name parameters returns body :: rest =>
    ⟨name, parameters.map (·.name), returns.map (·.name), body⟩ :: Stmt.definitions rest
  | _ :: rest => Stmt.definitions rest

namespace Locals

def empty : Locals := fun _ => none

def set (V : Locals) (name : String) (value : Nat) : Locals :=
  fun x => if x = name then some value else V x

/-- Gives these names these values, in order. -/
def setAll (V : Locals) : List (String × Nat) → Locals
  | [] => V
  | (name, value) :: rest => (V.set name value).setAll rest

/-- What is left of the variables at the end of a block. -/
def restrict (V outer : Locals) : Locals := fun x => if (outer x).isSome then V x else none

end Locals

/-- The value of an instruction with a fixed meaning on its right number of arguments. -/
def Instruction.value? : Instruction → List Nat → Option Nat
  | .lt, [a, b] => some (if a < b then 1 else 0)
  | .gt, [a, b] => some (if b < a then 1 else 0)
  | .eq, [a, b] => some (if a = b then 1 else 0)
  | .isZero, [a] => some (if a = 0 then 1 else 0)
  | .add, [a, b] => some (a + b)
  | _, _ => none

namespace Interpretation

variable {W : Type} (I : Interpretation W)

def literal (value : Literal) : Nat :=
  match value.word with
  | .ok word => word
  | .error _ => I.unvalued value

/-- Runs a builtin. -/
def perform (name : String) (values : List Nat) : Exec W (List Nat) :=
  match (I.dialect.instruction? name).bind (·.value? values) with
  | some value => return [value]
  | none => fun m =>
    match I.builtin name values m.world with
    | (some results, world) => (.ok results, { m with world })
    | (none, world) => (.error .halted, { m with world })

end Interpretation

namespace Exec

variable {W : Type}

def stop {α : Type} (reason : Stop) : Exec W α := throw reason

/-- The only one of several values. -/
def single : List Nat → Exec W Nat
  | [value] => return value
  | _ => stop .stuck

/-- Records how the evaluation of a condition went. -/
def decide (condition : Expr) (evaluation : Exec W Nat) : Exec W Nat := fun m =>
  let (result, m') := evaluation m
  (result, { m' with decisions := ⟨condition, m.world, result, m'.world⟩ :: m'.decisions })

/-- Pairs names with as many values. -/
def zip (names : List String) (values : List Nat) : Exec W (List (String × Nat)) :=
  if names.length = values.length then return names.zip values else stop .stuck

/-- Runs a loop. The body may leave it, or go on to what stands behind it. -/
def iterate (condition : Locals → Exec W Nat) (body post : Locals → Exec W (Mode × Locals)) :
    Nat → Locals → Exec W (Mode × Locals)
  | 0, _ => stop .outOfFuel
  | fuel + 1, V => do
    if (← condition V) = 0 then return (.normal, V)
    let (mode, V) ← body V
    match mode with
    | .break => return (.normal, V)
    | .leave => return (.leave, V)
    | .normal | .continue =>
      let (mode, V) ← post V
      match mode with
      | .normal => iterate condition body post fuel V
      | mode => return (mode, V)

end Exec

namespace Execution

variable {W : Type} (I : Interpretation W)

/-- What calling a function by its name does. -/
abbrev Calls (W : Type) := Functions → String → List Nat → Exec W (List Nat)

mutual

/-- Evaluates an expression. Arguments are evaluated last to first. -/
def eval (call : String → List Nat → Exec W (List Nat)) (V : Locals) : Expr → Exec W (List Nat)
  | .literal value => return [I.literal value]
  | .identifier name =>
    match V name.name with
    | some value => return [value]
    | none => Exec.stop .stuck
  | .call _ callee arguments => do
    let values ← evalAll call V arguments
    if (I.dialect.builtin? callee.name).isSome then I.perform callee.name values
    else call callee.name values

def evalAll (call : String → List Nat → Exec W (List Nat)) (V : Locals) :
    List Expr → Exec W (List Nat)
  | [] => return []
  | e :: rest => do
    let others ← evalAll call V rest
    let value ← Exec.single (← eval call V e)
    return value :: others

end

/-- The one value of an expression. -/
def evalOne (call : String → List Nat → Exec W (List Nat)) (V : Locals) (e : Expr) : Exec W Nat := do
  Exec.single (← eval I call V e)

def matches? (value : Nat) (c : Case) : Bool := c.value.any (I.literal · = value)

mutual

/-- Runs a statement. Every loop in it takes at most `fuel` turns. -/
def exec (calls : Calls W) (fuel : Nat) (F : Functions) (V : Locals) : Stmt → Exec W (Mode × Locals)
  | .expression value => do
    let _ ← Exec.zip [] (← eval I (calls F) V value)
    return (.normal, V)
  | .assignment _ targets value => do
    let values ← Exec.zip (targets.map (·.name)) (← eval I (calls F) V value)
    if targets.all fun t => (V t.name).isSome then return (.normal, V.setAll values)
    else Exec.stop .stuck
  | .declaration _ declared none => return (.normal, V.setAll (declared.map fun x => (x.name, 0)))
  | .declaration _ declared (some value) => do
    let values ← Exec.zip (declared.map (·.name)) (← eval I (calls F) V value)
    return (.normal, V.setAll values)
  | .function .. => return (.normal, V)
  | .conditional _ condition body => do
    let value ← Exec.decide condition (evalOne I (calls F) V condition)
    if value = 0 then return (.normal, V) else execBlock calls fuel F V body
  | .switch _ scrutinee cases => do
    let value ← evalOne I (calls F) V scrutinee
    execCases calls fuel F V value cases
  | .loop _ pre condition post body => do
    let F := Stmt.definitions pre.statements :: F
    let (mode, inner) ← execInit calls fuel F V pre
    match mode with
    | .normal =>
      let (mode, inner) ← Exec.iterate (fun V => evalOne I (calls F) V condition)
        (fun V => execBlock calls fuel F V body) (fun V => execBlock calls fuel F V post) fuel inner
      return (mode, inner.restrict V)
    | mode => return (mode, inner.restrict V)
  | .break _ => return (.break, V)
  | .continue _ => return (.continue, V)
  | .leave _ => return (.leave, V)
  | .block body => execBlock calls fuel F V body

/-- Runs the statements of a block whose scope goes on behind it. -/
def execInit (calls : Calls W) (fuel : Nat) (F : Functions) (V : Locals) :
    Block → Exec W (Mode × Locals)
  | ⟨_, statements⟩ => execAll calls fuel F V statements

def execBlock (calls : Calls W) (fuel : Nat) (F : Functions) (V : Locals) :
    Block → Exec W (Mode × Locals)
  | ⟨_, statements⟩ => do
    let (mode, inner) ← execAll calls fuel (Stmt.definitions statements :: F) V statements
    return (mode, inner.restrict V)

def execAll (calls : Calls W) (fuel : Nat) (F : Functions) (V : Locals) :
    List Stmt → Exec W (Mode × Locals)
  | [] => return (.normal, V)
  | s :: rest => do
    let (mode, V) ← exec calls fuel F V s
    match mode with
    | .normal => execAll calls fuel F V rest
    | mode => return (mode, V)

/-- Runs the first clause for a value, or else the default. -/
def execCases (calls : Calls W) (fuel : Nat) (F : Functions) (V : Locals) (value : Nat) :
    List Case → Exec W (Mode × Locals)
  | [] => return (.normal, V)
  | ⟨_, some label, body⟩ :: rest =>
    if I.literal label = value then execBlock calls fuel F V body
    else execCases calls fuel F V value rest
  | ⟨_, none, body⟩ :: rest =>
    if rest.any (matches? I value) then execCases calls fuel F V value rest
    else execBlock calls fuel F V body

end

/-- Calls a function. There are at most `fuel` calls inside one another. -/
def callFunction : Nat → Calls W
  | 0, _, _, _ => Exec.stop .outOfFuel
  | fuel + 1, F, name, values =>
    match F.find? name with
    | none => Exec.stop .stuck
    | some (d, F) => do
      let arguments ← Exec.zip d.parameters values
      let V := (Locals.empty.setAll arguments).setAll (d.returns.map fun x => (x, 0))
      let (mode, V) ← execBlock I (callFunction fuel) fuel F V d.body
      match mode with
      | .normal | .leave => return d.returns.filterMap V
      | .break | .continue => Exec.stop .stuck

end Execution

/-- Runs a block from a world. Gives how control leaves it, or why it ended early, the world that it
leaves behind, and every condition that it reached. -/
def Block.run {W : Type} (I : Interpretation W) (fuel : Nat) (block : Block) (world : W) :
    Except Stop Mode × Machine W :=
  ((·.1) <$> Execution.execBlock I (Execution.callFunction I fuel) fuel [] .empty block : Exec W Mode)
    { world }

end YulBackend
