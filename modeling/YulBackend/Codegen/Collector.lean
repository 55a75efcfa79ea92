import YulBackend.Codegen.Fault
import YulBackend.SortedMap

namespace YulBackend

/-- Generated functions by name. Each is made once, no matter how many ask for it, and `take` hands them out in name
order. A name without a text is reserved while the text of its function is being made. -/
structure Collector where
  /-- The text of each function, which a reserved name does not have yet. -/
  functions : SortedMap String (Option String) := .empty
deriving Inhabited

namespace Collector

def contains (c : Collector) (name : String) : Bool := c.functions.contains name

def size (c : Collector) : Nat := c.functions.size

def isEmpty (c : Collector) : Bool := c.functions.isEmpty

/-- The text of a finished function. -/
def code? (c : Collector) (name : String) : Option String := (c.functions.get? name).join

/-- Claims a name that is not taken. -/
def reserve? (c : Collector) (name : String) : Option Collector :=
  if c.contains name then none else some { functions := c.functions.insert name none }

/-- Fills in a reserved name. -/
def define (c : Collector) (name code : String) : Except Fault Collector :=
  match c.functions.get? name with
  | some none => .ok { functions := c.functions.insert name (some code) }
  | _ => .error (.violation (.definedWithoutReservation name))

/-- Gives up a reservation; a finished function stays. -/
def release (c : Collector) (name : String) : Collector :=
  match c.functions.get? name with
  | some none => { functions := c.functions.erase name }
  | _ => c

/-- The text of all functions in name order, which leaves nothing behind. -/
def take (c : Collector) : Except Fault (String × Collector) :=
  if c.functions.values.all Option.isSome then
    .ok ("\n".intercalate (c.functions.values.filterMap id), {})
  else .error (.violation .takenWhileReserved)

end Collector

/-- Work on a collector that may fail. What it did before it failed stays done. -/
abbrev Collecting (m : Type → Type) := ExceptT Fault (StateT Collector m)

namespace Collecting

variable {m : Type → Type} [Monad m]

/-- Takes a step that either succeeds or changes nothing. -/
def step {α : Type} (f : Collector → Except Fault (α × Collector)) : Collecting m α := fun c =>
  match f c with
  | .ok (a, c) => pure (.ok a, c)
  | .error fault => pure (.error fault, c)

/-- The name of a function, which `creator` is asked to make if nobody has taken the name. The name is
reserved meanwhile, so a creator that asks for its own function gets the name. -/
def create (name : String) (creator : Collecting m String) : Collecting m String := fun c =>
  match c.reserve? name with
  | none => pure (.ok name, c)
  | some c => do
    match ← creator c with
    | (.ok code, c) =>
      match c.define name code with
      | .ok c => pure (.ok name, c)
      | .error fault => pure (.error fault, c)
    | (.error fault, c) => pure (.error fault, c.release name)

end Collecting

/-- Work on a collector that does nothing else. -/
abbrev Helper := Collecting Id

end YulBackend
