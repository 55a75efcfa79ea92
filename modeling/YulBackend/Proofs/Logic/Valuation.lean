import YulBackend.Logic.Evaluation

namespace YulBackend

open Evaluation

/-- The values that the variables of formulas stand for. -/
abbrev Valuation := String → Value

namespace Formula

/-- What a formula stands for. A formula that mixes integers and truth values stands for nothing. -/
def valueIn (ν : Valuation) : Formula → Option Value
  | .int n => some (.int n)
  | .bool b => some (.bool b)
  | .var name _ => some (ν name)
  | .add a b => do
    match ← a.valueIn ν, ← b.valueIn ν with
    | .int a, .int b => return .int (a + b)
    | _, _ => none
  | .lt a b => do
    match ← a.valueIn ν, ← b.valueIn ν with
    | .int a, .int b => return .bool (a < b)
    | _, _ => none
  | .gt a b => do
    match ← a.valueIn ν, ← b.valueIn ν with
    | .int a, .int b => return .bool (b < a)
    | _, _ => none
  | .eq a b => do
    return .bool ((← a.valueIn ν) = (← b.valueIn ν))
  | .not a => do
    match ← a.valueIn ν with
    | .bool a => return .bool !a
    | .int _ => none
  | .ite condition yes no => do
    match ← condition.valueIn ν with
    | .bool true => yes.valueIn ν
    | .bool false => no.valueIn ν
    | .int _ => none

/-- A formula is true. -/
def TrueIn (ν : Valuation) (f : Formula) : Prop := f.valueIn ν = some (.bool true)

/-- An equation defines its variable. -/
theorem trueIn_eq_var_iff {ν : Valuation} {name : String} {sort : ValueSort} {term : Formula} :
    (Formula.eq (.var name sort) term).TrueIn ν ↔ term.valueIn ν = some (ν name) := by
  rw [TrueIn, valueIn, valueIn]
  cases term.valueIn ν with
  | none => simp
  | some v => simp [eq_comm]

end Formula

namespace Evaluation

variable {ν : Valuation}

/-- Every definition is true. -/
def Definitions.TrueIn (definitions : Definitions) (ν : Valuation) : Prop :=
  ∀ name term, (name, term) ∈ definitions → term.valueIn ν = some (ν name)

theorem Definitions.TrueIn.erase {definitions : Definitions} (h : definitions.TrueIn ν) (name : String) :
    (definitions.erase name).TrueIn ν :=
  fun x term hmem => h x term (List.mem_filter.1 hmem).1

theorem mem_of_lookup_eq_some {definitions : Definitions} {name : String} {term : Formula}
    (h : definitions.lookup name = some term) : (name, term) ∈ definitions := by
  obtain ⟨earlier, later, rfl, _⟩ := List.lookup_eq_some_iff.1 h
  exact List.mem_append_right _ List.mem_cons_self

/-- A variable has the value of its definition, in which its own name is no longer defined. -/
theorem value?_var (definitions : Definitions) (name : String) (sort : ValueSort) :
    value? definitions (.var name sort) =
      (definitions.lookup name).bind (value? (definitions.erase name)) := by
  rw [value?]
  split
  next hnone => rw [hnone, Option.bind_none]
  next term hsome => rw [hsome, Option.bind_some]

/-- Evaluation agrees with variables that have the values it gives them. -/
theorem valueIn_of_forall_var {definitions : Definitions}
    (hvars : ∀ name sort v, value? definitions (.var name sort) = some v → ν name = v) {f : Formula}
    {v : Value} (h : value? definitions f = some v) : f.valueIn ν = some v := by
  induction f generalizing v with
  | int n | bool b =>
    rw [value?] at h
    exact h
  | var name sort => rw [Formula.valueIn, hvars name sort v h]
  | add a b iha ihb | lt a b iha ihb | gt a b iha ihb | eq a b iha ihb =>
    rw [value?] at h
    obtain ⟨va, ha, h⟩ := Option.bind_eq_some_iff.1 h
    obtain ⟨vb, hb, h⟩ := Option.bind_eq_some_iff.1 h
    rw [Formula.valueIn, iha ha, ihb hb]
    exact h
  | not a ih =>
    rw [value?] at h
    obtain ⟨va, ha, h⟩ := Option.bind_eq_some_iff.1 h
    rw [Formula.valueIn, ih ha]
    exact h
  | ite condition yes no ihc ihy ihn =>
    rw [value?] at h
    obtain ⟨vc, hc, h⟩ := Option.bind_eq_some_iff.1 h
    rw [Formula.valueIn, ihc hc]
    cases vc with
    | int n => cases h
    | bool b =>
      cases b with
      | true => exact ihy h
      | false => exact ihn h

/-- Where definitions give a formula a value, the formula has it whenever they are true. -/
theorem valueIn_of_value?_eq_some {definitions : Definitions} (hν : definitions.TrueIn ν) {f : Formula}
    {v : Value} (h : value? definitions f = some v) : f.valueIn ν = some v := by
  refine valueIn_of_forall_var (fun name sort v hv => ?_) h
  rw [value?_var] at hv
  obtain ⟨term, hlookup, hterm⟩ := Option.bind_eq_some_iff.1 hv
  -- the term has its value from fewer definitions
  have hvalue := valueIn_of_value?_eq_some (hν.erase name) hterm
  rw [hν name term (mem_of_lookup_eq_some hlookup)] at hvalue
  exact Option.some.inj hvalue
termination_by definitions.length
decreasing_by exact Definitions.length_erase_lt hlookup

namespace Problem

/-- The definitions stay, or the first equation for a variable joins them. -/
theorem definitions_add (problem : Problem) (f : Formula) :
    (problem.add f).definitions = problem.definitions ∨
      ∃ name sort term, f = .eq (.var name sort) term ∧ problem.definitions.lookup name = none ∧
        (problem.add f).definitions = problem.definitions ++ [(name, term)] := by
  rw [add.eq_def]
  split
  next name sort term =>
    split
    next hnew => exact .inr ⟨name, sort, term, rfl, Option.isNone_iff_eq_none.1 hnew, rfl⟩
    next => exact .inl rfl
  next => exact .inl rfl

theorem ofList_concat (fs : List Formula) (f : Formula) : ofList (fs ++ [f]) = (ofList fs).add f := by
  rw [ofList, List.foldl_append]
  rfl

/-- Every definition and every constraint is true. -/
structure TrueIn (problem : Problem) (ν : Valuation) : Prop where
  definitions : problem.definitions.TrueIn ν
  constraints : ∀ c ∈ problem.constraints, c.TrueIn ν

/-- Whether a formula becomes a definition or a constraint, it has to be true. -/
theorem trueIn_add_iff {problem : Problem} {f : Formula} :
    (problem.add f).TrueIn ν ↔ problem.TrueIn ν ∧ f.TrueIn ν := by
  have hconstraint : Problem.TrueIn { problem with constraints := problem.constraints ++ [f] } ν ↔
      problem.TrueIn ν ∧ f.TrueIn ν := by
    refine ⟨fun h => ⟨⟨h.definitions, fun c hc => h.constraints c (List.mem_append_left _ hc)⟩,
      h.constraints f (List.mem_append_right _ List.mem_cons_self)⟩, fun ⟨h, hf⟩ =>
      ⟨h.definitions, fun c hc => ?_⟩⟩
    rcases List.mem_append.1 hc with hc | hc
    · exact h.constraints c hc
    · rw [List.mem_singleton.1 hc]
      exact hf
  rw [add.eq_def]
  split
  next name sort term =>
    split
    · rw [Formula.trueIn_eq_var_iff]
      refine ⟨fun h => ⟨⟨fun x t hmem => h.definitions x t (List.mem_append_left _ hmem), h.constraints⟩,
        h.definitions name term (List.mem_append_right _ List.mem_cons_self)⟩, fun ⟨h, hterm⟩ =>
        ⟨fun x t hmem => ?_, h.constraints⟩⟩
      rcases List.mem_append.1 hmem with hmem | hmem
      · exact h.definitions x t hmem
      · cases List.mem_singleton.1 hmem
        exact hterm
    · exact hconstraint
  next => exact hconstraint

/-- Adding formulas, as definitions or as constraints, asks of a valuation just that it makes them true as well. -/
theorem trueIn_foldl_add_iff {problem : Problem} {fs : List Formula} :
    TrueIn (fs.foldl add problem) ν ↔ problem.TrueIn ν ∧ ∀ f ∈ fs, f.TrueIn ν := by
  induction fs generalizing problem with
  | nil => simp
  | cons f rest ih => rw [List.foldl_cons, ih, trueIn_add_iff, List.forall_mem_cons, and_assoc]

/-- A valuation makes the problem of some formulas true exactly when it makes each of them true. -/
theorem trueIn_ofList_iff {fs : List Formula} : (ofList fs).TrueIn ν ↔ ∀ f ∈ fs, f.TrueIn ν := by
  have hnone : Problem.TrueIn {} ν :=
    ⟨fun _ _ hmem => absurd hmem List.not_mem_nil, fun _ hmem => absurd hmem List.not_mem_nil⟩
  rw [ofList, trueIn_foldl_add_iff, and_iff_right hnone]

/-- A refuted problem has a constraint that the definitions make false. -/
theorem exists_of_verdict_eq {problem : Problem} (h : problem.verdict = .unsatisfiable) :
    ∃ c ∈ problem.constraints, value? problem.definitions c = some (.bool false) := by
  rw [Problem.verdict] at h
  split at h
  next hany =>
    obtain ⟨c, hc, hvalue⟩ := List.any_eq_true.1 hany
    exact ⟨c, hc, of_decide_eq_true hvalue⟩
  next =>
    split at h
    · cases h
    · cases h

/-- No constraint of a problem evaluates to false when some valuation makes the problem true. -/
theorem TrueIn.value?_ne {problem : Problem} (h : problem.TrueIn ν) {c : Formula}
    (hc : c ∈ problem.constraints) : value? problem.definitions c ≠ some (.bool false) := by
  intro hvalue
  have hfalse := valueIn_of_value?_eq_some h.definitions hvalue
  rw [h.constraints c hc] at hfalse
  cases hfalse

/-- Nothing makes all formulas of a refuted problem true. -/
theorem TrueIn.verdict_ne {problem : Problem} (h : problem.TrueIn ν) :
    problem.verdict ≠ .unsatisfiable := by
  intro hverdict
  obtain ⟨c, hc, hvalue⟩ := exists_of_verdict_eq hverdict
  exact h.value?_ne hc hvalue

end Problem

end Evaluation

end YulBackend
