import Mathlib.Data.List.Forall2
import YulBackend.Proofs.Logic.Denotation
import YulBackend.Proofs.Logic.Satisfiability

namespace YulBackend

open Evaluation

namespace Formula

/-- The same formula with other names for its variables. -/
def rename (ρ : String → String) : Formula → Formula
  | int n => .int n
  | bool b => .bool b
  | var name sort => .var (ρ name) sort
  | add a b => .add (a.rename ρ) (b.rename ρ)
  | lt a b => .lt (a.rename ρ) (b.rename ρ)
  | gt a b => .gt (a.rename ρ) (b.rename ρ)
  | eq a b => .eq (a.rename ρ) (b.rename ρ)
  | not a => .not (a.rename ρ)
  | ite condition yes no => .ite (condition.rename ρ) (yes.rename ρ) (no.rename ρ)

/-- Only the names that occur matter. -/
theorem rename_congr {ρ ρ' : String → String} {f : Formula} (h : ∀ x ∈ f.variableNames, ρ x = ρ' x) :
    f.rename ρ = f.rename ρ' := by
  induction f with
  | int n | bool b => rfl
  | var name sort => rw [rename, rename, h name List.mem_cons_self]
  | not a ih => rw [rename, rename, ih h]
  | ite condition yes no ihc ihy ihn =>
    simp only [variableNames, List.forall_mem_append] at h
    rw [rename, rename, ihc h.1.1, ihy h.1.2, ihn h.2]
  | add a b iha ihb | lt a b iha ihb | gt a b iha ihb | eq a b iha ihb =>
    rw [variableNames, List.forall_mem_append] at h
    rw [rename, rename, iha h.1, ihb h.2]

/-- The variables of a renamed formula are the renamed variables. -/
theorem variableNames_rename (ρ : String → String) (f : Formula) :
    (f.rename ρ).variableNames = f.variableNames.map ρ := by
  induction f with
  | int n | bool b | var name sort => rfl
  | not a ih => exact ih
  | ite condition yes no ihc ihy ihn =>
    rw [rename, variableNames, ihc, ihy, ihn, ← List.map_append, ← List.map_append, variableNames]
  | add a b iha ihb | lt a b iha ihb | gt a b iha ihb | eq a b iha ihb =>
    rw [rename, variableNames, iha, ihb, ← List.map_append, variableNames]

end Formula

namespace Evaluation

def Definitions.rename (ρ : String → String) (definitions : Definitions) : Definitions :=
  definitions.map fun d => (ρ d.1, d.2.rename ρ)

theorem Definitions.rename_append (ρ : String → String) (definitions more : Definitions) :
    Definitions.rename ρ (definitions ++ more) = definitions.rename ρ ++ more.rename ρ :=
  List.map_append

/-- A formula that may define something is an equation with a variable on the left. -/
theorem exists_eq_of_isEquation {f : Formula} (h : isEquation f) :
    ∃ name sort term, f = .eq (.var name sort) term := by
  rw [isEquation.eq_def] at h
  split at h
  next name sort term => exact ⟨name, sort, term, rfl⟩
  next => cases h

/-- Renaming keeps a formula an equation for a variable, or keeps it from being one. -/
theorem isEquation_rename (ρ : String → String) (f : Formula) : isEquation (f.rename ρ) = isEquation f := by
  cases f with
  | eq a b => cases a <;> rfl
  | int | bool | var | add | lt | gt | not | ite => rfl

section

variable {ρ : String → String} (hρ : Function.Injective ρ)
include hρ

/-- Under an injective renaming, a renamed variable has the renamed definition. -/
theorem Definitions.lookup_rename (definitions : Definitions) (x : String) :
    (definitions.rename ρ).lookup (ρ x) = (definitions.lookup x).map (·.rename ρ) := by
  induction definitions with
  | nil => rfl
  | cons d rest ih =>
    have hrename : Definitions.rename ρ (d :: rest) = (ρ d.1, d.2.rename ρ) :: Definitions.rename ρ rest := rfl
    rw [hrename, List.lookup_cons, ← Prod.eta d, List.lookup_cons]
    by_cases hx : x = d.1
    · rw [hx, beq_self_eq_true, beq_self_eq_true]
      rfl
    · rw [beq_false_of_ne hx, beq_false_of_ne (mt (@hρ _ _) hx)]
      exact ih

/-- Under an injective renaming, erasing a renamed variable erases the right definition. -/
theorem Definitions.erase_rename (definitions : Definitions) (x : String) :
    (definitions.rename ρ).erase (ρ x) = (definitions.erase x).rename ρ := by
  rw [Definitions.rename, Definitions.erase, List.filter_map, Definitions.rename, Definitions.erase]
  refine congrArg _ (List.filter_congr fun d _ => ?_)
  simp [hρ.eq_iff]

/-- The value of a formula does not depend on the names of its variables, as long as different ones stay different. -/
theorem value?_rename (definitions : Definitions) (f : Formula) :
    value? (definitions.rename ρ) (f.rename ρ) = value? definitions f := by
  fun_induction value? definitions f with
  | case1 | case2 => rw [Formula.rename, value?]
  | case3 definitions name sort hlookup =>
    rw [Formula.rename, value?_var, Definitions.lookup_rename hρ, hlookup]
    rfl
  | case4 definitions name sort term hlookup ih =>
    rw [Formula.rename, value?_var, Definitions.lookup_rename hρ, hlookup, Option.map_some, Option.bind_some,
      Definitions.erase_rename hρ]
    exact ih
  | case5 definitions a b iha ihb | case6 definitions a b iha ihb | case7 definitions a b iha ihb
  | case8 definitions a b iha ihb =>
    rw [Formula.rename, value?, iha, ihb]
  | case9 definitions a ih =>
    rw [Formula.rename, value?, ih]
  | case10 definitions condition yes no ihc ihy ihn =>
    rw [Formula.rename, value?, ihc, ihy, ihn]

end

/-- A formula that defines nothing, and is true whatever the definitions are. -/
structure IsValid (f : Formula) : Prop where
  isEquation : isEquation f = false
  value : ∀ definitions, value? definitions f = some (.bool true)

/-- A formula says what another one says under other names, or, if that one defines nothing, it says nothing. -/
def Weakens (ρ : String → String) (f f' : Formula) : Prop :=
  f' = f.rename ρ ∨ IsValid f ∧ isEquation f' = false

namespace Problem

theorem verdict_eq_of_mem {problem : Problem} {c : Formula} (hc : c ∈ problem.constraints)
    (hvalue : value? problem.definitions c = some (.bool false)) : problem.verdict = .unsatisfiable := by
  rw [verdict, if_pos (List.any_eq_true.2 ⟨c, hc, decide_eq_true hvalue⟩)]

/-- A problem found unsatisfiable stays so when a formula is added, since the definitions it rests on stay. -/
theorem verdict_add {problem : Problem} (h : problem.verdict = .unsatisfiable) (f : Formula) :
    (problem.add f).verdict = .unsatisfiable := by
  obtain ⟨c, hc, hvalue⟩ := exists_of_verdict_eq h
  have hconstraint : c ∈ (problem.add f).constraints := by
    rw [add.eq_def]
    split
    · split
      · exact hc
      · exact List.mem_append_left _ hc
    · exact List.mem_append_left _ hc
  have hwithin : problem.definitions.Within (problem.add f).definitions := by
    intro x term hx
    rcases definitions_add problem f with hsame | ⟨name, sort, t, _, _, hmore⟩
    · rwa [hsame]
    · rw [hmore, List.lookup_append, hx, Option.some_or]
  exact verdict_eq_of_mem hconstraint (value?_mono hwithin hvalue)

/-- More formulas do not make a refuted problem any better. -/
theorem verdict_ofList_append {fs : List Formula} (h : (ofList fs).verdict = .unsatisfiable)
    (fs' : List Formula) : (ofList (fs ++ fs')).verdict = .unsatisfiable := by
  induction fs' using List.reverseRecOn with
  | nil => rwa [List.append_nil]
  | append_singleton fs' f ih =>
    rw [← List.append_assoc, ofList_concat]
    exact verdict_add ih f

/-- The same definitions under other names, and no other constraints but such that say nothing. -/
structure Weakens (ρ : String → String) (problem problem' : Problem) : Prop where
  definitions : problem'.definitions = problem.definitions.rename ρ
  constraints : ∀ c ∈ problem.constraints, IsValid c ∨ c.rename ρ ∈ problem'.constraints

namespace Weakens

variable {ρ : String → String} (hρ : Function.Injective ρ)
include hρ

/-- Adding a formula to the stronger problem, and to the weaker one a formula that weakens it, keeps the one weaker
than the other. -/
theorem add {problem problem' : Problem} (h : problem.Weakens ρ problem') {f f' : Formula}
    (hf : Evaluation.Weakens ρ f f') : (problem.add f).Weakens ρ (problem'.add f') := by
  have hconstraint {c c' : Formula} (hc : IsValid c ∨ c.rename ρ = c') :
      Weakens ρ { problem with constraints := problem.constraints ++ [c] }
        { problem' with constraints := problem'.constraints ++ [c'] } := by
    refine ⟨h.definitions, fun a ha => ?_⟩
    rcases List.mem_append.1 ha with ha | ha
    · exact (h.constraints a ha).imp_right (List.mem_append_left _)
    · rw [List.mem_singleton.1 ha]
      exact hc.imp_right fun heq => List.mem_append_right _ (List.mem_singleton.2 heq)
  rcases hf with rfl | ⟨hvalid, hf'⟩
  · by_cases hequation : isEquation f
    · obtain ⟨name, sort, term, rfl⟩ := exists_eq_of_isEquation hequation
      rw [Formula.rename, Formula.rename, Problem.add, Problem.add, h.definitions,
        Definitions.lookup_rename hρ, Option.isNone_map]
      split
      · exact ⟨(Definitions.rename_append ρ problem.definitions [(name, term)]).symm, h.constraints⟩
      · rw [← h.definitions]
        exact hconstraint (.inr rfl)
    · rw [Bool.not_eq_true] at hequation
      rw [add_of_not_isEquation hequation, add_of_not_isEquation ((isEquation_rename ρ f).trans hequation)]
      exact hconstraint (.inr rfl)
  · rw [add_of_not_isEquation hvalid.isEquation, add_of_not_isEquation hf']
    exact hconstraint (.inl hvalid)

/-- A list of formulas that weaken those of another one by one gives a weaker problem. -/
theorem ofList {fs fs' : List Formula} (h : List.Forall₂ (Evaluation.Weakens ρ) fs fs') :
    (Problem.ofList fs).Weakens ρ (Problem.ofList fs') := by
  have hfoldl : ∀ problem problem' : Problem, problem.Weakens ρ problem' →
      Weakens ρ (fs.foldl Problem.add problem) (fs'.foldl Problem.add problem') := by
    induction h with
    | nil => exact fun _ _ h => h
    | cons hf _ ih => exact fun _ _ h => ih _ _ (h.add hρ hf)
  exact hfoldl {} {} ⟨rfl, fun _ hc => absurd hc List.not_mem_nil⟩

/-- What is refuted of the weaker problem is refuted of the stronger one under its own names. -/
theorem verdict_eq {problem problem' : Problem} (h : problem.Weakens ρ problem')
    (hverdict : problem.verdict = .unsatisfiable) : problem'.verdict = .unsatisfiable := by
  obtain ⟨c, hc, hvalue⟩ := exists_of_verdict_eq hverdict
  rcases h.constraints c hc with hvalid | hmem
  · rw [hvalid.value] at hvalue
    cases hvalue
  · refine verdict_eq_of_mem hmem ?_
    rw [h.definitions, value?_rename hρ, hvalue]

end Weakens

end Problem

end Evaluation

end YulBackend
