import YulBackend.Logic.Prover

namespace YulBackend.Evaluation

inductive Value
  | int (value : Int)
  | bool (value : Bool)
deriving DecidableEq, Repr

/-- Terms by the variable that they define. -/
abbrev Definitions := List (String × Formula)

def Definitions.erase (definitions : Definitions) (name : String) : Definitions :=
  definitions.filter (·.1 ≠ name)

/-- Erasing a name that `lookup` finds leaves fewer definitions, which is why `value?` comes to an end. -/
theorem Definitions.length_erase_lt {definitions : Definitions} {name : String} {term : Formula}
    (h : definitions.lookup name = some term) :
    (definitions.erase name).length < definitions.length := by
  refine List.length_filter_lt_length_iff_exists.2 ⟨(name, term), ?_, by simp⟩
  induction definitions with
  | nil => simp at h
  | cons head tail ih =>
    obtain ⟨n, t⟩ := head
    by_cases hn : name = n
    · subst hn
      simp at h
      simp [h]
    · have hb : (name == n) = false := by simp [hn]
      simp only [List.lookup_cons, hb] at h
      exact List.mem_cons_of_mem _ (ih h)

/-- The value that definitions give a formula. While the term of a variable is evaluated the variable
itself has no definition, so one that hangs on itself has no value. -/
def value? (definitions : Definitions) (formula : Formula) : Option Value :=
  match formula with
  | .int n => some (.int n)
  | .bool b => some (.bool b)
  | .var name _ =>
    match _h : definitions.lookup name with
    | none => none
    | some term => value? (definitions.erase name) term
  | .add a b => do
    match ← value? definitions a, ← value? definitions b with
    | .int a, .int b => return .int (a + b)
    | _, _ => none
  | .lt a b => do
    match ← value? definitions a, ← value? definitions b with
    | .int a, .int b => return .bool (a < b)
    | _, _ => none
  | .gt a b => do
    match ← value? definitions a, ← value? definitions b with
    | .int a, .int b => return .bool (b < a)
    | _, _ => none
  | .eq a b => do
    return .bool ((← value? definitions a) = (← value? definitions b))
  | .not a => do
    match ← value? definitions a with
    | .bool a => return .bool !a
    | .int _ => none
  | .ite condition yes no => do
    match ← value? definitions condition with
    | .bool true => value? definitions yes
    | .bool false => value? definitions no
    | .int _ => none
termination_by (definitions.length, formula)
decreasing_by
  all_goals first
    | exact Prod.Lex.left _ _ (Definitions.length_erase_lt _h)
    | (apply Prod.Lex.right; decreasing_tactic)

/-- Assertions sorted into definitions and constraints. -/
structure Problem where
  definitions : Definitions := []
  constraints : List Formula := []

/-- An equation with a variable on the left that has no definition yet becomes one. -/
def Problem.add (problem : Problem) (formula : Formula) : Problem :=
  match formula with
  | .eq (.var name _) term =>
    if (problem.definitions.lookup name).isNone then
      { problem with definitions := problem.definitions ++ [(name, term)] }
    else { problem with constraints := problem.constraints ++ [formula] }
  | _ => { problem with constraints := problem.constraints ++ [formula] }

def Problem.ofList (formulas : List Formula) : Problem := formulas.foldl Problem.add {}

/-- A definition whose term has no value leaves its variable open. -/
def Problem.verdict (problem : Problem) : Verdict :=
  let value := value? problem.definitions
  if problem.constraints.any (value · = some (.bool false)) then .unsatisfiable
  else if problem.definitions.all (fun d => (value d.2).isSome) &&
      problem.constraints.all (value · = some (.bool true)) then .satisfiable
  else .unknown

/-- The assertions of the base and of each open scope, outermost first, each in the order made. -/
structure Session where
  base : List Formula := []
  /-- Open scopes, innermost first. -/
  scopes : List (List Formula) := []
  checks : Nat := 0
deriving Inhabited

namespace Session

def depth (s : Session) : Nat := s.scopes.length

/-- All open assertions, oldest scope first. -/
def assertions (s : Session) : List Formula := s.base ++ s.scopes.reverse.flatten

def assertionCount (s : Session) : Nat := s.assertions.length

def assert (s : Session) (formula : Formula) : Session :=
  match s.scopes with
  | [] => { s with base := s.base ++ [formula] }
  | scope :: outer => { s with scopes := (scope ++ [formula]) :: outer }

def push (s : Session) : Session := { s with scopes := [] :: s.scopes }

/-- Closes the innermost scope. The base stays. -/
def pop (s : Session) : Session := { s with scopes := s.scopes.tail }

def verdict (s : Session) (assumptions : List Formula) : Verdict :=
  (Problem.ofList (s.assertions ++ assumptions)).verdict

end Session

/-- A prover that decides by evaluation. The first assertion `x = t` defines `x`; every other assertion is a
constraint. A constraint that the definitions alone make false shows that nothing satisfies them all, and what hangs on
an undefined variable stays open. -/
def prover : Prover Session where
  newVariable name sort := pure (.var name sort)
  assert formula := modify (·.assert formula)
  push := modify (·.push)
  pop := modify (·.pop)
  check assumptions := fun s => (s.verdict assumptions, { s with checks := s.checks + 1 })

end YulBackend.Evaluation
