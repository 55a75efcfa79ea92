import Mathlib.Data.List.Induction
import YulBackend.Proofs.Logic.Valuation

namespace YulBackend

open Evaluation

/-- The integers that the variables of formulas stand for. -/
abbrev Assignment := String → Int

/-- The same integers as values. -/
def Assignment.valuation (ρ : Assignment) : Valuation := fun x => .int (ρ x)

namespace Formula

/-- What a formula stands for. A formula that mixes integers and truth values stands for nothing. -/
def denote (ρ : Assignment) : Formula → Option Value
  | .int n => some (.int n)
  | .bool b => some (.bool b)
  | .var name _ => some (.int (ρ name))
  | .add a b => do
    match ← a.denote ρ, ← b.denote ρ with
    | .int a, .int b => return .int (a + b)
    | _, _ => none
  | .lt a b => do
    match ← a.denote ρ, ← b.denote ρ with
    | .int a, .int b => return .bool (a < b)
    | _, _ => none
  | .gt a b => do
    match ← a.denote ρ, ← b.denote ρ with
    | .int a, .int b => return .bool (b < a)
    | _, _ => none
  | .eq a b => do
    return .bool ((← a.denote ρ) = (← b.denote ρ))
  | .not a => do
    match ← a.denote ρ with
    | .bool a => return .bool !a
    | .int _ => none
  | .ite condition yes no => do
    match ← condition.denote ρ with
    | .bool true => yes.denote ρ
    | .bool false => no.denote ρ
    | .int _ => none

/-- A formula is true under an assignment. -/
def Holds (ρ : Assignment) (f : Formula) : Prop := f.denote ρ = some (.bool true)

/-- A formula stands for an integer. -/
def Denotes (ρ : Assignment) (f : Formula) (n : Int) : Prop := f.denote ρ = some (.int n)

/-- Over integers, what a formula denotes is its value under the same integers. -/
theorem denote_eq_valueIn (ρ : Assignment) (f : Formula) : f.denote ρ = f.valueIn ρ.valuation := by
  induction f with
  | int n | bool b | var name sort => rfl
  | not a ih =>
    rewrite [denote, valueIn, ih]
    rfl
  | ite condition yes no ihc ihy ihn =>
    rewrite [denote, valueIn, ihc, ihy, ihn]
    rfl
  | eq a b iha ihb => rw [denote, valueIn, iha, ihb]
  | add a b iha ihb | lt a b iha ihb | gt a b iha ihb =>
    rewrite [denote, valueIn, iha, ihb]
    rfl

theorem holds_iff_trueIn (ρ : Assignment) (f : Formula) : f.Holds ρ ↔ f.TrueIn ρ.valuation := by
  rw [Holds, TrueIn, denote_eq_valueIn]

theorem denotes_int (ρ : Assignment) (n : Int) : (Formula.int n).Denotes ρ n := rfl

theorem denotes_var (ρ : Assignment) (name : String) (sort : ValueSort) :
    (var name sort).Denotes ρ (ρ name) := rfl

/-- Only the variables of a formula matter for it. -/
theorem denote_congr {ρ ρ' : Assignment} {f : Formula} (h : ∀ x ∈ f.variableNames, ρ x = ρ' x) :
    f.denote ρ = f.denote ρ' := by
  induction f with
  | int n => rfl
  | bool b => rfl
  | var name sort =>
    rw [denote, denote, h name List.mem_cons_self]
  | not a ih =>
    rw [denote, denote, ih h]
  | ite condition yes no ihc ihy ihn =>
    have hc := ihc fun x hx => h x (List.mem_append_left _ (List.mem_append_left _ hx))
    have hy := ihy fun x hx => h x (List.mem_append_left _ (List.mem_append_right _ hx))
    have hn := ihn fun x hx => h x (List.mem_append_right _ hx)
    rw [denote, denote, hc, hy, hn]
  | add a b iha ihb | lt a b iha ihb | gt a b iha ihb | eq a b iha ihb =>
    have ha := iha fun x hx => h x (List.mem_append_left _ hx)
    have hb := ihb fun x hx => h x (List.mem_append_right _ hx)
    rw [denote, denote, ha, hb]

/-- Whether a formula holds depends only on its own variables, so a fresh variable may be given any value. -/
theorem Holds.congr {ρ ρ' : Assignment} {f : Formula} (hf : f.Holds ρ)
    (h : ∀ x ∈ f.variableNames, ρ x = ρ' x) : f.Holds ρ' := by
  rw [Holds, ← denote_congr h]
  exact hf

theorem Denotes.congr {ρ ρ' : Assignment} {f : Formula} {n : Int} (hf : f.Denotes ρ n)
    (h : ∀ x ∈ f.variableNames, ρ x = ρ' x) : f.Denotes ρ' n := by
  rw [Denotes, ← denote_congr h]
  exact hf

section

variable {ρ : Assignment} {a b : Formula} {m n : Int}

theorem Denotes.denote_lt (ha : a.Denotes ρ m) (hb : b.Denotes ρ n) :
    (lt a b).denote ρ = some (.bool (m < n)) := by
  rw [denote, ha, hb]
  rfl

theorem Denotes.denote_gt (ha : a.Denotes ρ m) (hb : b.Denotes ρ n) :
    (gt a b).denote ρ = some (.bool (n < m)) := by
  rw [denote, ha, hb]
  rfl

theorem Denotes.denote_eq (ha : a.Denotes ρ m) (hb : b.Denotes ρ n) :
    (eq a b).denote ρ = some (.bool (Value.int m = .int n)) := by
  rw [denote, ha, hb]
  rfl

theorem Denotes.add (ha : a.Denotes ρ m) (hb : b.Denotes ρ n) : (add a b).Denotes ρ (m + n) := by
  rw [Denotes, denote, ha, hb]
  rfl

end

/-- An equation says that both sides stand for the same integer. -/
theorem Denotes.holds_eq_iff {ρ : Assignment} {a b : Formula} {m n : Int} (ha : a.Denotes ρ m)
    (hb : b.Denotes ρ n) : (Formula.eq a b).Holds ρ ↔ m = n := by
  simp only [Denotes] at ha hb
  simp [Holds, denote, ha, hb]

theorem Denotes.holds_notEq_iff {ρ : Assignment} {a b : Formula} {m n : Int} (ha : a.Denotes ρ m)
    (hb : b.Denotes ρ n) : (Formula.notEq a b).Holds ρ ↔ m ≠ n := by
  simp only [Denotes] at ha hb
  simp [Holds, notEq, denote, ha, hb]

end Formula

namespace Evaluation

/-- A formula that may define a variable. -/
def isEquation : Formula → Bool
  | .eq (.var _ _) _ => true
  | _ => false

/-- A formula that cannot define a variable joins the constraints. -/
theorem Problem.add_of_not_isEquation {f : Formula} (h : isEquation f = false) (problem : Problem) :
    problem.add f = { problem with constraints := problem.constraints ++ [f] } := by
  rw [Problem.add.eq_def]
  split
  next => cases h
  next => rfl

theorem Problem.trueIn_ofList {ρ : Assignment} {fs : List Formula} (h : ∀ f ∈ fs, f.Holds ρ) :
    (Problem.ofList fs).TrueIn ρ.valuation :=
  Problem.trueIn_ofList_iff.2 fun f hf => (f.holds_iff_trueIn ρ).1 (h f hf)

/-- If formulas can be true together, and cannot with one more that defines nothing, then their definitions
make that one false. -/
theorem value?_eq_false_of_verdict_eq {fs : List Formula} {ρ : Assignment} (hfs : ∀ f ∈ fs, f.Holds ρ)
    {f : Formula} (hf : isEquation f = false)
    (h : (Problem.ofList (fs ++ [f])).verdict = .unsatisfiable) :
    value? (Problem.ofList fs).definitions f = some (.bool false) := by
  rw [Problem.ofList_concat] at h
  obtain ⟨c, hc, hvalue⟩ := Problem.exists_of_verdict_eq h
  rw [Problem.add_of_not_isEquation hf] at hc hvalue
  rcases List.mem_append.1 hc with hc | hc
  · exact absurd hvalue ((Problem.trueIn_ofList hfs).value?_ne hc)
  · rw [← List.mem_singleton.1 hc]
    exact hvalue

/-- What formulas do not mention they do not define. -/
theorem lookup_ofList_eq_none {fs : List Formula} {x : String} (h : ∀ f ∈ fs, x ∉ f.variableNames) :
    (Problem.ofList fs).definitions.lookup x = none := by
  induction fs using List.reverseRecOn with
  | nil => rfl
  | append_singleton fs f ih =>
    have hfs := ih fun g hg => h g (List.mem_append_left _ hg)
    have hf := h f (List.mem_append_right _ List.mem_cons_self)
    rw [Problem.ofList_concat]
    rcases (Problem.ofList fs).definitions_add f with hsame | ⟨name, sort, term, rfl, _, hmore⟩
    · rw [hsame, hfs]
    · have hne : x ≠ name := fun heq => hf (heq ▸ List.mem_cons_self)
      simp [hmore, List.lookup_append, hfs, hne]

namespace Session

/-- One session goes on from another: the same scopes are open, and some formulas were asserted in the
innermost one. Checks do not count. -/
structure Extends (s s' : Session) (fs : List Formula) : Prop where
  base : s'.base = (fs.foldl assert s).base
  scopes : s'.scopes = (fs.foldl assert s).scopes

/-- Assertions are made in the same scope whatever was asked before, as checks do not change the scopes. -/
theorem foldl_assert_congr {s s' : Session} (hbase : s'.base = s.base) (hscopes : s'.scopes = s.scopes)
    (fs : List Formula) : Extends s (fs.foldl assert s') fs := by
  induction fs generalizing s s' with
  | nil => exact ⟨hbase, hscopes⟩
  | cons f rest ih =>
    have hassert : (s'.assert f).base = (s.assert f).base ∧ (s'.assert f).scopes = (s.assert f).scopes := by
      rw [assert, assert, hscopes]
      split
      · exact ⟨by rw [hbase], rfl⟩
      · exact ⟨hbase, rfl⟩
    obtain ⟨hbase', hscopes'⟩ := ih hassert.1 hassert.2
    exact ⟨hbase', hscopes'⟩

namespace Extends

variable {s s' s'' : Session} {fs fs' : List Formula}

theorem refl (s : Session) : Extends s s [] := ⟨rfl, rfl⟩

theorem assert (s : Session) (f : Formula) : Extends s (s.assert f) [f] := ⟨rfl, rfl⟩

/-- Sessions that go on from each other in turn collect the formulas asserted in both. -/
theorem trans (h : Extends s s' fs) (h' : Extends s' s'' fs') : Extends s s'' (fs ++ fs') := by
  have hcongr := foldl_assert_congr h.base h.scopes fs'
  refine ⟨?_, ?_⟩
  · rw [h'.base, hcongr.base, List.foldl_append]
  · rw [h'.scopes, hcongr.scopes, List.foldl_append]

theorem push (h : Extends s s' []) : Extends s.push s'.push [] := ⟨h.base, congrArg ([] :: ·) h.scopes⟩

end Extends

theorem assertions_assert (s : Session) (f : Formula) : (s.assert f).assertions = s.assertions ++ [f] := by
  rw [assert, assertions, assertions]
  split
  next hscopes => simp [hscopes]
  next scope outer hscopes => simp [hscopes]

theorem assertions_foldl_assert (s : Session) (fs : List Formula) :
    (fs.foldl assert s).assertions = s.assertions ++ fs := by
  induction fs generalizing s with
  | nil => exact (List.append_nil _).symm
  | cons f rest ih => rw [List.foldl_cons, ih, assertions_assert, List.append_assoc, List.singleton_append]

theorem Extends.assertions {s s' : Session} {fs : List Formula} (h : Extends s s' fs) :
    s'.assertions = s.assertions ++ fs := by
  rw [← assertions_foldl_assert, Session.assertions, Session.assertions, h.base, h.scopes]

theorem assertions_push (s : Session) : s.push.assertions = s.assertions := by
  simp [push, assertions]

/-- Assertions under an open scope go to that scope, so closing it takes them all back. -/
theorem foldl_assert_of_scopes {s : Session} {scope : List Formula} {outer : List (List Formula)}
    (h : s.scopes = scope :: outer) (fs : List Formula) :
    (fs.foldl assert s).base = s.base ∧ (fs.foldl assert s).scopes = (scope ++ fs) :: outer := by
  induction fs generalizing s scope with
  | nil => simp [h]
  | cons f rest ih =>
    have hassert : s.assert f = { s with scopes := (scope ++ [f]) :: outer } := by
      rw [assert, h]
    have hscope : (s.assert f).scopes = (scope ++ [f]) :: outer := by rw [hassert]
    obtain ⟨hbase, hscopes⟩ := ih hscope
    rw [List.foldl_cons]
    refine ⟨hbase.trans (by rw [hassert]), ?_⟩
    rw [hscopes, List.append_assoc, List.singleton_append]

/-- Closing a scope undoes whatever was asserted since it was opened. -/
theorem Extends.pop {s s' : Session} {fs : List Formula} (h : Extends s.push s' fs) :
    Extends s s'.pop [] := by
  obtain ⟨hbase, hscopes⟩ := foldl_assert_of_scopes (s := s.push) rfl fs
  refine ⟨h.base.trans hbase, ?_⟩
  rw [Session.pop, h.scopes, hscopes]
  rfl

/-- A question about a hypothesis leaves a session as it was, but for the count of checks. -/
theorem refutes_eq (f : Formula) (s : Session) :
    prover.refutes f s =
      (decide ((Problem.ofList (s.assertions ++ [f])).verdict = .unsatisfiable),
        { s with checks := s.checks + 1 }) := by
  have hassertions : (s.push.assert f).assertions = s.assertions ++ [f] := by
    rw [assertions_assert, assertions_push]
  have hverdict : (s.push.assert f).verdict [] = (Problem.ofList (s.assertions ++ [f])).verdict := by
    rw [verdict, List.append_nil, hassertions]
  rw [← hverdict]
  rfl

end Session

end Evaluation

end YulBackend
