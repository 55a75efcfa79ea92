import Mathlib
import YulBackend.Proofs.Logic.Satisfiability

namespace YulBackend

/-- One use of a prover. -/
inductive Prover.Operation
  | assert (formula : Formula)
  | push
  | pop
  | check (assumptions : List Formula)

namespace Prover

variable {σ : Type}

def perform (prover : Prover σ) : Operation → StateM σ Unit
  | .assert formula => prover.assert formula
  | .push => prover.push
  | .pop => prover.pop
  | .check assumptions => discard (prover.check assumptions)

/-- The state after operations, one after the other. -/
def performAll (prover : Prover σ) (s : σ) (operations : List Operation) : σ :=
  operations.foldl (fun s operation => (prover.perform operation s).2) s

/-- How many scopes are open after an operation. Where none is open none is closed. -/
def Operation.depthAfter (depth : Nat) : Operation → Nat
  | push => depth + 1
  | pop => depth - 1
  | assert _ | check _ => depth

/-- How many scopes operations leave open. -/
def openScopes (operations : List Operation) : Nat := operations.foldl Operation.depthAfter 0

/-- A formula was asserted when so many scopes were open, and the innermost of them was not closed since. -/
def IsAssertedAt (depth : Nat) (operations : List Operation) (f : Formula) : Prop :=
  ∃ before after, operations = before ++ .assert f :: after ∧ openScopes before = depth ∧
    ∀ later, later <+: after → depth ≤ openScopes (before ++ .assert f :: later)

/-- A formula was asserted, and the scope in which that was done is still open. -/
def IsAsserted (operations : List Operation) (f : Formula) : Prop :=
  ∃ depth, IsAssertedAt depth operations f

theorem openScopes_concat (operations : List Operation) (operation : Operation) :
    openScopes (operations ++ [operation]) = operation.depthAfter (openScopes operations) := by
  rw [openScopes, List.foldl_append]
  rfl

/-- An operation leaves open what it does not close, and opens what it asserts. -/
theorem isAssertedAt_concat_iff {depth : Nat} {operations : List Operation} {operation : Operation}
    {f : Formula} :
    IsAssertedAt depth (operations ++ [operation]) f ↔
      (IsAssertedAt depth operations f ∧ depth ≤ openScopes (operations ++ [operation])) ∨
        (operation = .assert f ∧ openScopes operations = depth) := by
  constructor
  · rintro ⟨before, after, heq, hdepth, hstays⟩
    rcases List.eq_nil_or_concat after with rfl | ⟨after, last, rfl⟩
    · obtain ⟨rfl, hlast⟩ := List.append_inj' heq rfl
      cases hlast
      exact .inr ⟨rfl, hdepth⟩
    · simp only [List.concat_eq_append] at heq hstays
      have hall := hstays _ (List.prefix_refl _)
      rw [← heq] at hall
      rw [← List.cons_append, ← List.append_assoc] at heq
      obtain ⟨rfl, hlast⟩ := List.append_inj' heq rfl
      refine .inl ⟨⟨before, after, rfl, hdepth, fun later hlater => ?_⟩, hall⟩
      exact hstays later (hlater.trans (List.prefix_append after [last]))
  · rintro (⟨⟨before, after, rfl, hdepth, hstays⟩, hall⟩ | ⟨rfl, hdepth⟩)
    · refine ⟨before, after ++ [operation], by simp, hdepth, fun later hlater => ?_⟩
      rcases List.prefix_concat_iff.1 hlater with rfl | hlater
      · simpa using hall
      · exact hstays later hlater
    · refine ⟨operations, [], rfl, hdepth, fun later hlater => ?_⟩
      rw [List.prefix_nil.1 hlater, openScopes_concat, hdepth]
      exact Nat.le_refl _

end Prover

namespace Evaluation

open Prover

/-- A formula stands on the level of a stack that has so many levels below it. -/
def StandsAt (depth : Nat) (f : Formula) : List (List Formula) → Prop
  | [] => False
  | level :: below => (below.length = depth ∧ f ∈ level) ∨ StandsAt depth f below

/-- A formula stands at a depth that the stack reaches. -/
theorem StandsAt.lt {depth : Nat} {f : Formula} {levels : List (List Formula)}
    (h : StandsAt depth f levels) : depth < levels.length := by
  induction levels with
  | nil => cases h
  | cons level below ih =>
    rw [List.length_cons]
    rcases h with ⟨rfl, _⟩ | h
    · exact Nat.lt_succ_self _
    · exact Nat.lt_succ_of_lt (ih h)

/-- A formula stands somewhere on the stack when it is on one of the levels. -/
theorem exists_standsAt_iff {f : Formula} {levels : List (List Formula)} :
    (∃ depth, StandsAt depth f levels) ↔ ∃ level ∈ levels, f ∈ level := by
  induction levels with
  | nil => simp [StandsAt]
  | cons level below ih => simp [StandsAt, exists_or, ih]

namespace Session

/-- The assertions of the open scopes, innermost first, and of the base. -/
def levels (s : Session) : List (List Formula) := s.scopes ++ [s.base]

theorem length_levels (s : Session) : s.levels.length = s.depth + 1 := by
  rw [levels, List.length_append]
  rfl

/-- As many scopes are open as there are levels below the innermost. -/
theorem depth_of_levels_eq {s : Session} {level : List Formula} {below : List (List Formula)}
    (h : s.levels = level :: below) : s.depth = below.length := by
  have hlength := s.length_levels
  rw [h, List.length_cons] at hlength
  omega

theorem mem_assertions_iff {s : Session} {f : Formula} :
    f ∈ s.assertions ↔ ∃ depth, StandsAt depth f s.levels := by
  rw [exists_standsAt_iff]
  simp [assertions, levels, or_comm]

theorem levels_assert (s : Session) (f : Formula) :
    ∃ level below, s.levels = level :: below ∧ (s.assert f).levels = (level ++ [f]) :: below := by
  rw [assert, levels, levels]
  split
  next hscopes => exact ⟨_, _, by rw [hscopes]; rfl, by rw [hscopes]; rfl⟩
  next scope outer hscopes => exact ⟨_, _, by rw [hscopes]; rfl, rfl⟩

/-- Closing a scope takes away the innermost level. Where only the base is left it stays. -/
theorem levels_pop (s : Session) :
    ∃ level below, s.levels = level :: below ∧ s.pop.levels = if below = [] then [level] else below := by
  rw [pop, levels, levels]
  cases s.scopes with
  | nil => exact ⟨s.base, [], rfl, rfl⟩
  | cons scope outer => exact ⟨scope, outer ++ [s.base], rfl, by simp⟩

/-- The session after an operation. -/
def perform (s : Session) (operation : Operation) : Session := (prover.perform operation s).2

/-- An operation changes the number of open scopes as `depthAfter` says. -/
theorem depth_perform (s : Session) (operation : Operation) :
    (s.perform operation).depth = operation.depthAfter s.depth := by
  cases operation with
  | assert f =>
    change (s.assert f).depth = s.depth
    rw [assert, depth, depth]
    split
    · rfl
    next scope outer hscopes => rw [hscopes]; rfl
  | push => rfl
  | pop => exact List.length_tail
  | check assumptions => rfl

/-- An operation leaves what stands on the levels that stay, and asserts on the innermost. -/
theorem standsAt_perform_iff {s : Session} {operation : Operation} {depth : Nat} {f : Formula} :
    StandsAt depth f (s.perform operation).levels ↔
      (StandsAt depth f s.levels ∧ depth ≤ (s.perform operation).depth) ∨
        (operation = .assert f ∧ s.depth = depth) := by
  have hbound : StandsAt depth f s.levels → depth ≤ s.depth := fun h => by
    have hlt := h.lt
    rw [length_levels] at hlt
    exact Nat.le_of_lt_succ hlt
  rw [depth_perform]
  cases operation with
  | assert g =>
    obtain ⟨level, below, hlevels, hassert⟩ := s.levels_assert g
    change StandsAt depth f (s.assert g).levels ↔ (_ ∧ depth ≤ s.depth) ∨ _
    rw [and_iff_left_of_imp hbound, hassert, depth_of_levels_eq hlevels, hlevels, StandsAt, StandsAt,
      List.mem_append, List.mem_singleton, Operation.assert.injEq, eq_comm (a := g)]
    tauto
  | push =>
    change StandsAt depth f ([] :: s.levels) ↔ (_ ∧ depth ≤ s.depth + 1) ∨ _
    rw [and_iff_left_of_imp fun h => Nat.le_succ_of_le (hbound h)]
    simp [StandsAt]
  | pop =>
    obtain ⟨level, below, hlevels, hpop⟩ := s.levels_pop
    change StandsAt depth f s.pop.levels ↔ (_ ∧ depth ≤ s.depth - 1) ∨ _
    rw [hpop, hlevels, depth_of_levels_eq hlevels]
    split
    next hbase =>
      -- the base is never closed
      rw [hlevels, depth_of_levels_eq hlevels, hbase] at hbound
      rw [hbase]
      refine ⟨fun h => .inl ⟨h, hbound h⟩, ?_⟩
      rintro (⟨h, _⟩ | ⟨h, _⟩)
      · exact h
      · cases h
    next hscope =>
      have hpositive := List.length_pos_iff.2 hscope
      rw [StandsAt]
      refine ⟨fun h => .inl ⟨.inr h, Nat.le_sub_one_of_lt h.lt⟩, ?_⟩
      rintro (⟨⟨rfl, _⟩ | h, hdepth⟩ | ⟨h, _⟩)
      · omega
      · exact h
      · cases h
  | check assumptions =>
    change StandsAt depth f s.levels ↔ (_ ∧ depth ≤ s.depth) ∨ _
    rw [and_iff_left_of_imp hbound]
    simp

end Session

theorem performAll_concat (s : Session) (operations : List Operation) (operation : Operation) :
    prover.performAll s (operations ++ [operation]) =
      (prover.performAll s operations).perform operation := by
  rw [performAll, List.foldl_append]
  rfl

/-- After operations as many scopes are open as `openScopes` counts. -/
theorem depth_performAll (operations : List Operation) :
    (prover.performAll {} operations).depth = openScopes operations := by
  induction operations using List.reverseRecOn with
  | nil => rfl
  | append_singleton operations operation ih =>
    rw [performAll_concat, Session.depth_perform, ih, openScopes_concat]

/-- A formula stands at a depth after operations exactly when it was asserted at that depth and the scope was not
closed since. The induction is on the last operation. -/
theorem standsAt_performAll_iff {operations : List Operation} {depth : Nat} {f : Formula} :
    StandsAt depth f (prover.performAll {} operations).levels ↔ IsAssertedAt depth operations f := by
  induction operations using List.reverseRecOn with
  | nil =>
    refine iff_of_false ?_ ?_
    · simp [performAll, Session.levels, StandsAt]
    · rintro ⟨before, after, heq, _⟩
      simp at heq
  | append_singleton operations operation ih =>
    have hdepth := depth_performAll (operations ++ [operation])
    rw [performAll_concat] at hdepth ⊢
    rw [Session.standsAt_perform_iff, ih, hdepth, depth_performAll, isAssertedAt_concat_iff]

/-- The assertions of a session are those whose scopes are open. -/
theorem mem_assertions_performAll_iff {operations : List Operation} {f : Formula} :
    f ∈ (prover.performAll {} operations).assertions ↔ IsAsserted operations f := by
  rw [Session.mem_assertions_iff, IsAsserted]
  exact exists_congr fun _ => standsAt_performAll_iff

/-- After any operations of a prover, `pop` without a scope to close included, `check` is right both ways: if it
refutes the open assertions and the assumptions then nothing makes them true together, and if it finds them satisfiable
then something does. -/
theorem check_performAll {sorts : String → ValueSort} {operations : List Operation}
    {assumptions : List Formula} (hasserted : ∀ f, IsAsserted operations f → f.IsAssertion sorts)
    (hassumptions : ∀ f ∈ assumptions, f.IsAssertion sorts) :
    let verdict := (prover.check assumptions (prover.performAll {} operations)).1
    (verdict = .unsatisfiable →
      ¬ ∃ ν : Valuation, ν.Respects sorts ∧
        ∀ f, IsAsserted operations f ∨ f ∈ assumptions → f.TrueIn ν) ∧
    (verdict = .satisfiable →
      ∃ ν : Valuation, ν.Respects sorts ∧
        ∀ f, IsAsserted operations f ∨ f ∈ assumptions → f.TrueIn ν) := by
  have hmem : ∀ f, f ∈ (prover.performAll {} operations).assertions ++ assumptions ↔
      IsAsserted operations f ∨ f ∈ assumptions := by
    intro f
    rw [List.mem_append, mem_assertions_performAll_iff]
  have hassertions : ∀ f ∈ (prover.performAll {} operations).assertions ++ assumptions,
      f.IsAssertion sorts := fun f hf => ((hmem f).1 hf).elim (hasserted f) (hassumptions f)
  simp only [← hmem]
  exact Problem.verdict_ofList hassertions

end Evaluation

namespace Redefinition

def x : Formula := .var "x" .int

/-- A variable is defined, and once more in a scope that is closed again; then one scope too many is closed, and
the variable is defined a third time through itself. -/
def operations : List Prover.Operation :=
  [.assert (.eq x (.int 1)), .push, .assert (.eq x (.int 2)), .pop, .pop, .check [],
    .assert (.eq x (.ite (.lt x (.int 3)) (.int 1) x))]

end Redefinition

open Redefinition in
/-- The definition that stays decides both ways. -/
theorem Evaluation.check_performAll_redefinition :
    (∃ ν : Valuation, ν.Respects (fun _ => .int) ∧
      ∀ f, Prover.IsAsserted operations f ∨ f ∈ [Formula.lt x (.int 3)] → f.TrueIn ν) ∧
    ¬ ∃ ν : Valuation, ν.Respects (fun _ => .int) ∧
      ∀ f, Prover.IsAsserted operations f ∨ f ∈ [Formula.gt x (.int 3)] → f.TrueIn ν := by
  have hasserted : ∀ f, Prover.IsAsserted operations f → f.IsAssertion fun _ => .int := by
    rintro f ⟨_, before, after, heq, _⟩
    have hf : Prover.Operation.assert f ∈ operations := by simp [heq]
    have hcases : f = .eq x (.int 1) ∨ f = .eq x (.int 2) ∨
        f = .eq x (.ite (.lt x (.int 3)) (.int 1) x) := by simpa [operations] using hf
    rcases hcases with rfl | rfl | rfl <;> simp [Formula.IsAssertion, Formula.WellSorted, Formula.sort, x]
  constructor
  · refine (check_performAll hasserted ?_).2 ?_
    · simp [Formula.IsAssertion, Formula.WellSorted, Formula.sort, x]
    · cbv
  · refine (check_performAll hasserted ?_).1 ?_
    · simp [Formula.IsAssertion, Formula.WellSorted, Formula.sort, x]
    · cbv

end YulBackend
