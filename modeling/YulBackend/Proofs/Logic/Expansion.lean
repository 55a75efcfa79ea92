import YulBackend.Proofs.Logic.Satisfiability

namespace YulBackend

namespace Formula

def height : Formula → Nat
  | int _ | bool _ | var .. => 1
  | add a b | lt a b | gt a b | eq a b => max a.height b.height + 1
  | not a => a.height + 1
  | ite condition yes no => max condition.height (max yes.height no.height) + 1

theorem height_pos (f : Formula) : 0 < f.height := by
  cases f <;> exact Nat.succ_pos _

theorem exists_eq_add_one_of_height_le {f : Formula} {more fuel : Nat} (h : f.height + more ≤ fuel) :
    ∃ fuel', fuel = fuel' + 1 :=
  Nat.exists_eq_add_one_of_ne_zero (Nat.ne_of_gt (Nat.lt_of_lt_of_le (Nat.add_pos_left f.height_pos more) h))

def maxHeight (fs : List Formula) : Nat := fs.foldr (fun f => max f.height) 0

/-- No formula of a list is higher than the highest. -/
theorem height_le_maxHeight {f : Formula} {fs : List Formula} (h : f ∈ fs) : f.height ≤ maxHeight fs := by
  induction h with
  | head rest => exact Nat.le_max_left _ _
  | tail first _ ih => exact Nat.le_trans ih (Nat.le_max_right _ _)

end Formula

namespace Evaluation

variable {definitions : Definitions}

/-- The value of a formula while the variables on a path are being expanded. Without enough fuel there is no
answer, not even that the formula has no value. -/
def evaluate? (definitions : Definitions) : Nat → List String → Formula → Option (Option Value)
  | 0, _, _ => none
  | fuel + 1, path, formula =>
    match formula with
    | .int n => some (some (.int n))
    | .bool b => some (some (.bool b))
    | .var name _ =>
      match definitions.lookup name with
      | none => some none
      | some term =>
        if path.contains name then some none else evaluate? definitions fuel (name :: path) term
    | .add a b => do
      let some a ← evaluate? definitions fuel path a | return none
      let some b ← evaluate? definitions fuel path b | return none
      match a, b with
      | .int a, .int b => return some (.int (a + b))
      | _, _ => return none
    | .lt a b => do
      let some a ← evaluate? definitions fuel path a | return none
      let some b ← evaluate? definitions fuel path b | return none
      match a, b with
      | .int a, .int b => return some (.bool (a < b))
      | _, _ => return none
    | .gt a b => do
      let some a ← evaluate? definitions fuel path a | return none
      let some b ← evaluate? definitions fuel path b | return none
      match a, b with
      | .int a, .int b => return some (.bool (b < a))
      | _, _ => return none
    | .eq a b => do
      let some a ← evaluate? definitions fuel path a | return none
      let some b ← evaluate? definitions fuel path b | return none
      return some (.bool (a = b))
    | .not a => do
      let some a ← evaluate? definitions fuel path a | return none
      match a with
      | .bool a => return some (.bool !a)
      | .int _ => return none
    | .ite condition yes no => do
      let some condition ← evaluate? definitions fuel path condition | return none
      match condition with
      | .bool true => evaluate? definitions fuel path yes
      | .bool false => evaluate? definitions fuel path no
      | .int _ => return none

/-- The definitions of variables that are not on a path. -/
def Definitions.without (definitions : Definitions) (path : List String) : Definitions :=
  path.foldr (fun name rest => rest.erase name) definitions

/-- Leaving out the definitions of a path leaves all others in place. -/
theorem lookup_without (definitions : Definitions) (path : List String) (x : String) :
    (definitions.without path).lookup x = if x ∈ path then none else definitions.lookup x := by
  induction path with
  | nil => rfl
  | cons name rest ih =>
    have herase : definitions.without (name :: rest) = (definitions.without rest).erase name := rfl
    rw [herase, lookup_erase, ih]
    by_cases hx : x = name <;> simp [hx]

/-- With fuel for as many terms as there are definitions off the path, and for the formula, expanding a variable
at a time comes to what these definitions give. -/
theorem evaluate?_eq {height fuel : Nat} {path : List String} {f : Formula}
    (hterms : ∀ x term, definitions.lookup x = some term → term.height ≤ height)
    (hfuel : f.height + (definitions.without path).length * height ≤ fuel) :
    evaluate? definitions fuel path f = some (value? (definitions.without path) f) := by
  generalize hless : definitions.without path = less at hfuel
  -- the definitions get fewer where a variable joins the path
  fun_induction value? less f generalizing path fuel with
  | case1 less n | case2 less b =>
    obtain ⟨fuel, rfl⟩ := Formula.exists_eq_add_one_of_height_le hfuel
    rfl
  | case3 less name sort hlookup =>
    obtain ⟨fuel, rfl⟩ := Formula.exists_eq_add_one_of_height_le hfuel
    rw [← hless, lookup_without] at hlookup
    rw [evaluate?]
    split
    next => rfl
    next term hdefined =>
      rw [hdefined] at hlookup
      -- A variable that has a definition lost it only by being expanded already.
      have hpath : name ∈ path := by
        by_contra hnew
        rw [if_neg hnew] at hlookup
        cases hlookup
      rw [if_pos (List.contains_iff_mem.2 hpath)]
  | case4 less name sort term hlookup ih =>
    obtain ⟨fuel, rfl⟩ := Formula.exists_eq_add_one_of_height_le hfuel
    have hfewer := Definitions.length_erase_lt hlookup
    subst hless
    rw [lookup_without] at hlookup
    split at hlookup
    · cases hlookup
    next hnew =>
      rw [evaluate?, hlookup]
      refine (if_neg (mt List.contains_iff_mem.1 hnew)).trans (ih rfl ?_)
      have hterm := hterms name term hlookup
      have hmul := Nat.mul_le_mul_right height hfewer
      rw [Nat.succ_mul] at hmul
      rw [Formula.height] at hfuel
      omega
  | case5 less a b iha ihb | case6 less a b iha ihb | case7 less a b iha ihb =>
    obtain ⟨fuel, rfl⟩ := Formula.exists_eq_add_one_of_height_le hfuel
    rw [Formula.height] at hfuel
    rw [evaluate?, iha hless (by omega), ihb hless (by omega)]
    cases value? less a with
    | none => rfl
    | some va =>
      cases value? less b with
      | none => rfl
      | some vb => cases va <;> cases vb <;> rfl
  | case8 less a b iha ihb =>
    obtain ⟨fuel, rfl⟩ := Formula.exists_eq_add_one_of_height_le hfuel
    rw [Formula.height] at hfuel
    rw [evaluate?, iha hless (by omega), ihb hless (by omega)]
    cases value? less a <;> cases value? less b <;> rfl
  | case9 less a ih =>
    obtain ⟨fuel, rfl⟩ := Formula.exists_eq_add_one_of_height_le hfuel
    rw [Formula.height] at hfuel
    rw [evaluate?, ih hless (by omega)]
    cases value? less a with
    | none => rfl
    | some va => cases va <;> rfl
  | case10 less condition yes no ihc ihy ihn =>
    obtain ⟨fuel, rfl⟩ := Formula.exists_eq_add_one_of_height_le hfuel
    rw [Formula.height] at hfuel
    rw [evaluate?, ihc hless (by omega), ihy hless (by omega), ihn hless (by omega)]
    cases value? less condition with
    | none => rfl
    | some vc =>
      cases vc with
      | int n => rfl
      | bool b => cases b <;> rfl

namespace Problem

/-- The answer after some constraints were found true or open, for those that are left. -/
def settle? (problem : Problem) (fuel : Nat) (isOpen : Bool) : List Formula → Option Verdict
  | [] => some (if isOpen then .unknown else .satisfiable)
  | c :: rest => do
    match ← evaluate? problem.definitions fuel [] c with
    | some (.bool false) => return .unsatisfiable
    | some (.bool true) => problem.settle? fuel isOpen rest
    | _ => problem.settle? fuel true rest

def isOpen? (problem : Problem) (fuel : Nat) (definition : String × Formula) : Option Bool :=
  (evaluate? problem.definitions fuel [] definition.2).map Option.isNone

/-- The verdict, found with limited fuel for each formula: the definitions are tried first, up to one that is
open, then the constraints up to the first that is false. -/
def verdict? (problem : Problem) (fuel : Nat) : Option Verdict := do
  let isOpen ← problem.definitions.anyM (problem.isOpen? fuel)
  problem.settle? fuel isOpen problem.constraints

/-- The formulas that a verdict depends on. -/
def terms (problem : Problem) : List Formula := problem.definitions.map (·.2) ++ problem.constraints

variable {problem : Problem} {fuel : Nat}

/-- Fuel for the height of the formulas once for each definition, and once more, is enough: no path expands a variable
twice. -/
theorem evaluate?_eq_of_mem (hfuel : (problem.definitions.length + 1) * Formula.maxHeight problem.terms ≤ fuel)
    {f : Formula} (hf : f ∈ problem.terms) :
    evaluate? problem.definitions fuel [] f = some (value? problem.definitions f) := by
  have hterms : ∀ x term, problem.definitions.lookup x = some term →
      term.height ≤ Formula.maxHeight problem.terms := fun x term hlookup =>
    Formula.height_le_maxHeight
      (List.mem_append_left _ (List.mem_map_of_mem (mem_of_lookup_eq_some hlookup)))
  refine evaluate?_eq hterms (Nat.le_trans ?_ hfuel)
  rw [Nat.succ_mul, Nat.add_comm]
  exact Nat.add_le_add_left (Formula.height_le_maxHeight hf) _

/-- With enough fuel the constraints are settled by their values: unsatisfiable if one is false, satisfiable if all are
true and nothing was open, and else unknown. -/
theorem settle?_eq {constraints : List Formula} {isOpen : Bool}
    (h : ∀ c ∈ constraints, evaluate? problem.definitions fuel [] c = some (value? problem.definitions c)) :
    problem.settle? fuel isOpen constraints = some
      (if constraints.any (value? problem.definitions · = some (.bool false)) then .unsatisfiable
      else if !isOpen && constraints.all (value? problem.definitions · = some (.bool true)) then .satisfiable
      else .unknown) := by
  induction constraints generalizing isOpen with
  | nil => cases isOpen <;> rfl
  | cons c rest ih =>
    rw [List.forall_mem_cons] at h
    rw [settle?, h.1, Option.bind_eq_bind, Option.bind_some, List.any_cons, List.all_cons]
    rcases value? problem.definitions c with _ | ⟨n⟩ | ⟨_ | _⟩
    · simp [ih h.2]
    · simp [ih h.2]
    · rfl
    · simp [ih h.2]

/-- With enough fuel the definitions are tried for an open one by their values. -/
theorem anyM_isOpen? {definitions : Definitions}
    (h : ∀ d ∈ definitions, evaluate? problem.definitions fuel [] d.2 = some (value? problem.definitions d.2)) :
    definitions.anyM (problem.isOpen? fuel) =
      some (definitions.any fun d => (value? problem.definitions d.2).isNone) := by
  induction definitions with
  | nil => rfl
  | cons d rest ih =>
    rw [List.forall_mem_cons] at h
    have hd : problem.isOpen? fuel d = some (value? problem.definitions d.2).isNone := by
      rw [isOpen?, h.1, Option.map_some]
    rw [List.anyM, hd, List.any_cons, Option.bind_eq_bind, Option.bind_some]
    cases (value? problem.definitions d.2).isNone
    · exact ih h.2
    · rfl

/-- With enough fuel there is an answer, whatever the definitions are. -/
theorem verdict?_eq (hfuel : (problem.definitions.length + 1) * Formula.maxHeight problem.terms ≤ fuel) :
    problem.verdict? fuel = some problem.verdict := by
  have hdefinitions : ∀ d ∈ problem.definitions, evaluate? problem.definitions fuel [] d.2 =
      some (value? problem.definitions d.2) := fun d hd =>
    evaluate?_eq_of_mem hfuel (List.mem_append_left _ (List.mem_map_of_mem hd))
  have hconstraints : ∀ c ∈ problem.constraints, evaluate? problem.definitions fuel [] c =
      some (value? problem.definitions c) := fun c hc =>
    evaluate?_eq_of_mem hfuel (List.mem_append_right _ hc)
  rw [verdict?, anyM_isOpen? hdefinitions, Option.bind_eq_bind, Option.bind_some, settle?_eq hconstraints,
    verdict, List.not_any_eq_all_not]
  simp only [Option.not_isNone]

end Problem

end Evaluation

end YulBackend
