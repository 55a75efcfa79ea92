import Mathlib.Data.List.Induction
import YulBackend.Proofs.Logic.Valuation

namespace YulBackend

open Evaluation

def Evaluation.Value.sort : Value → ValueSort
  | .int _ => .int
  | .bool _ => .bool

/-- The value of a variable of which nothing is known. -/
def ValueSort.zero : ValueSort → Value
  | int => .int 0
  | bool => .bool false

/-- Every variable stands for a value of its sort. -/
def Valuation.Respects (ν : Valuation) (sorts : String → ValueSort) : Prop := ∀ x, (ν x).sort = sorts x

namespace Formula

/-- Operands have the sorts that their operators ask for, and every variable is used at one sort. -/
def WellSorted (sorts : String → ValueSort) : Formula → Prop
  | int _ | bool _ => True
  | var name sort => sort = sorts name
  | add a b | lt a b | gt a b =>
    (a.WellSorted sorts ∧ a.sort = .int) ∧ b.WellSorted sorts ∧ b.sort = .int
  | eq a b => a.WellSorted sorts ∧ b.WellSorted sorts ∧ a.sort = b.sort
  | not a => a.WellSorted sorts ∧ a.sort = .bool
  | ite condition yes no =>
    (condition.WellSorted sorts ∧ condition.sort = .bool) ∧
      yes.WellSorted sorts ∧ no.WellSorted sorts ∧ yes.sort = no.sort

/-- A well-sorted formula that is true or false. -/
def IsAssertion (sorts : String → ValueSort) (f : Formula) : Prop := f.WellSorted sorts ∧ f.sort = .bool

end Formula

namespace Evaluation

theorem Value.exists_eq_int {v : Value} (h : v.sort = .int) : ∃ n, v = .int n := by
  cases v with
  | int n => exact ⟨n, rfl⟩
  | bool b => cases h

theorem Value.exists_eq_bool {v : Value} (h : v.sort = .bool) : ∃ b, v = .bool b := by
  cases v with
  | int n => cases h
  | bool b => exact ⟨b, rfl⟩

end Evaluation

namespace Evaluation

variable {sorts : String → ValueSort}

/-- The terms of definitions have the sorts of their variables. -/
def Definitions.WellSorted (definitions : Definitions) (sorts : String → ValueSort) : Prop :=
  ∀ name term, (name, term) ∈ definitions → term.WellSorted sorts ∧ term.sort = sorts name

theorem Definitions.WellSorted.erase {definitions : Definitions} (h : definitions.WellSorted sorts)
    (name : String) : (definitions.erase name).WellSorted sorts :=
  fun x term hmem => h x term (List.mem_filter.1 hmem).1

/-- The value of a well-sorted formula has the formula's sort, and so the operators never meet a value of the wrong
kind. -/
theorem sort_of_value?_eq_some {definitions : Definitions} (hdefinitions : definitions.WellSorted sorts)
    {f : Formula} (hf : f.WellSorted sorts) {v : Value} (h : value? definitions f = some v) :
    v.sort = f.sort := by
  fun_induction value? definitions f generalizing v with
  | case1 | case2 =>
    cases h
    rfl
  | case3 => cases h
  | case4 definitions name sort term hlookup ih =>
    obtain ⟨hterm, hsort⟩ := hdefinitions name term (mem_of_lookup_eq_some hlookup)
    exact (ih (hdefinitions.erase name) hterm h).trans (hsort.trans hf.symm)
  | case5 definitions a b iha ihb | case6 definitions a b iha ihb | case7 definitions a b iha ihb =>
    obtain ⟨va, ha, h⟩ := Option.bind_eq_some_iff.1 h
    obtain ⟨vb, hb, h⟩ := Option.bind_eq_some_iff.1 h
    split at h
    · cases h
      rfl
    · cases h
  | case8 definitions a b iha ihb =>
    obtain ⟨va, ha, h⟩ := Option.bind_eq_some_iff.1 h
    obtain ⟨vb, hb, h⟩ := Option.bind_eq_some_iff.1 h
    cases h
    rfl
  | case9 definitions a ih =>
    obtain ⟨va, ha, h⟩ := Option.bind_eq_some_iff.1 h
    split at h
    · cases h
      rfl
    · cases h
  | case10 definitions condition yes no ihc ihy ihn =>
    obtain ⟨_, hy, hn, hsort⟩ := hf
    obtain ⟨vc, hc, h⟩ := Option.bind_eq_some_iff.1 h
    split at h
    · exact ihy hdefinitions hy h
    · exact (ihn hdefinitions hn h).trans hsort.symm
    · cases h

/-- Erasing a name takes away its definition and no other. -/
theorem lookup_erase (definitions : Definitions) (name x : String) :
    (definitions.erase name).lookup x = if x = name then none else definitions.lookup x := by
  rw [Definitions.erase]
  induction definitions with
  | nil => simp
  | cons head tail ih =>
    obtain ⟨y, t⟩ := head
    rw [List.filter_cons, List.lookup_cons]
    by_cases hy : y = name
    · have hdrop : ¬ decide (y ≠ name) = true := by simp [hy]
      rw [if_neg hdrop, ih]
      by_cases hx : x = name
      · simp [hx]
      · have hne : (x == y) = false := by simp [hy, hx]
        rw [hne]
    · have hkeep : decide (y ≠ name) = true := by simp [hy]
      rw [if_pos hkeep, List.lookup_cons, ih]
      by_cases hx : x = y
      · simp [hx, hy]
      · have hne : (x == y) = false := by simp [hx]
        rw [hne]

/-- Definitions with those of some variables left out. -/
def Definitions.Within (fewer more : Definitions) : Prop :=
  ∀ x term, fewer.lookup x = some term → more.lookup x = some term

/-- Erasing a name on both sides keeps one set of definitions within the other. -/
theorem Definitions.Within.erase {fewer more : Definitions} (h : fewer.Within more) (name : String) :
    (fewer.erase name).Within (more.erase name) := by
  intro x term hx
  rw [lookup_erase] at hx ⊢
  split
  next heq => simp [heq] at hx
  next hne =>
    rw [if_neg hne] at hx
    exact h x term hx

/-- Definitions with one erased are within the definitions. -/
theorem Definitions.within_erase (definitions : Definitions) (name : String) :
    (definitions.erase name).Within definitions := by
  intro x term hx
  rw [lookup_erase] at hx
  split at hx
  · cases hx
  · exact hx

/-- With more definitions no value changes. -/
theorem value?_mono {fewer more : Definitions} (hwithin : fewer.Within more) {f : Formula} {v : Value}
    (h : value? fewer f = some v) : value? more f = some v := by
  fun_induction value? fewer f generalizing more v with
  | case1 | case2 =>
    rw [value?]
    exact h
  | case3 => cases h
  | case4 fewer name sort term hlookup ih =>
    rw [value?_var, hwithin name term hlookup]
    exact ih (hwithin.erase name) h
  | case5 fewer a b iha ihb | case6 fewer a b iha ihb | case7 fewer a b iha ihb
  | case8 fewer a b iha ihb =>
    obtain ⟨va, ha, h⟩ := Option.bind_eq_some_iff.1 h
    obtain ⟨vb, hb, h⟩ := Option.bind_eq_some_iff.1 h
    rw [value?, iha hwithin ha, ihb hwithin hb]
    exact h
  | case9 fewer a ih =>
    obtain ⟨va, ha, h⟩ := Option.bind_eq_some_iff.1 h
    rw [value?, ih hwithin ha]
    exact h
  | case10 fewer condition yes no ihc ihy ihn =>
    obtain ⟨vc, hc, h⟩ := Option.bind_eq_some_iff.1 h
    rw [value?, ihc hwithin hc]
    cases vc with
    | int n => cases h
    | bool b =>
      cases b with
      | true => exact ihy hwithin h
      | false => exact ihn hwithin h

/-- Variables stand for the values that definitions give them. -/
def Definitions.valuation (definitions : Definitions) (sorts : String → ValueSort) : Valuation :=
  fun x => ((definitions.lookup x).bind (value? definitions)).getD (sorts x).zero

section

variable {definitions : Definitions}

/-- Well-sorted definitions give every variable a value of its sort. -/
theorem Definitions.WellSorted.respects (h : definitions.WellSorted sorts) :
    (definitions.valuation sorts).Respects sorts := by
  intro x
  rw [Definitions.valuation]
  cases hvalue : (definitions.lookup x).bind (value? definitions) with
  | none =>
    rw [Option.getD_none]
    cases sorts x <;> rfl
  | some v =>
    obtain ⟨term, hlookup, hterm⟩ := Option.bind_eq_some_iff.1 hvalue
    obtain ⟨hsorted, hsort⟩ := h x term (mem_of_lookup_eq_some hlookup)
    exact (sort_of_value?_eq_some h hsorted hterm).trans hsort

theorem valuation_of_lookup {x : String} {term : Formula} {v : Value}
    (hlookup : definitions.lookup x = some term) (hterm : value? definitions term = some v) :
    definitions.valuation sorts x = v := by
  rw [Definitions.valuation, hlookup, Option.bind_some, hterm, Option.getD_some]

/-- What evaluation says of a formula is true when variables stand for what the definitions give them. -/
theorem valueIn_valuation {f : Formula} {v : Value} (h : value? definitions f = some v) :
    f.valueIn (definitions.valuation sorts) = some v := by
  refine valueIn_of_forall_var (fun name sort v hv => ?_) h
  rw [value?_var] at hv
  obtain ⟨term, hlookup, hterm⟩ := Option.bind_eq_some_iff.1 hv
  exact valuation_of_lookup hlookup (value?_mono (definitions.within_erase name) hterm)

end

namespace Problem

/-- Definitions are equations of the problem, and no variable has two. -/
theorem mem_definitions_ofList {fs : List Formula} {x : String} {term : Formula}
    (h : (x, term) ∈ (ofList fs).definitions) :
    (∃ sort, .eq (.var x sort) term ∈ fs) ∧ (ofList fs).definitions.lookup x = some term := by
  induction fs using List.reverseRecOn with
  | nil => cases h
  | append_singleton fs f ih =>
    have hold : (x, term) ∈ (ofList fs).definitions → (∃ sort, .eq (.var x sort) term ∈ fs ++ [f]) ∧
        (ofList fs).definitions.lookup x = some term := fun h => by
      obtain ⟨⟨sort, hmem⟩, hlookup⟩ := ih h
      exact ⟨⟨sort, List.mem_append_left _ hmem⟩, hlookup⟩
    rw [ofList_concat] at h ⊢
    rcases definitions_add (ofList fs) f with hsame | ⟨name, sort, t, rfl, hnone, hmore⟩
    · rw [hsame] at h ⊢
      exact hold h
    · rw [hmore] at h ⊢
      rcases List.mem_append.1 h with h | h
      · obtain ⟨hmem, hlookup⟩ := hold h
        exact ⟨hmem, by rw [List.lookup_append, hlookup, Option.some_or]⟩
      · cases List.mem_singleton.1 h
        refine ⟨⟨sort, List.mem_append_right _ List.mem_cons_self⟩, ?_⟩
        rw [List.lookup_append, hnone, Option.none_or, List.lookup_cons_self]

theorem wellSorted_definitions_ofList {fs : List Formula} (h : ∀ f ∈ fs, f.IsAssertion sorts) :
    (ofList fs).definitions.WellSorted sorts := by
  intro x term hmem
  obtain ⟨⟨sort, hmem⟩, _⟩ := mem_definitions_ofList hmem
  obtain ⟨⟨hvar, hterm, hsort⟩, _⟩ := h _ hmem
  exact ⟨hterm, hsort.symm.trans hvar⟩

/-- In a problem that is found satisfiable every definition and every constraint has a value. -/
theorem trueIn_of_verdict_eq {fs : List Formula} (h : (ofList fs).verdict = .satisfiable) :
    (ofList fs).TrueIn ((ofList fs).definitions.valuation sorts) := by
  rw [verdict] at h
  split at h
  · cases h
  next =>
    split at h
    next hall =>
      rw [Bool.and_eq_true, List.all_eq_true, List.all_eq_true] at hall
      refine ⟨fun x term hmem => ?_, fun c hc => valueIn_valuation (of_decide_eq_true (hall.2 c hc))⟩
      obtain ⟨v, hv⟩ := Option.isSome_iff_exists.1 (hall.1 _ hmem)
      rw [valueIn_valuation hv, valuation_of_lookup (mem_definitions_ofList hmem).2 hv]
    next => cases h

/-- Formulas that are refuted cannot be true together, and formulas that are found satisfiable can. -/
theorem verdict_ofList {fs : List Formula} (hfs : ∀ f ∈ fs, f.IsAssertion sorts) :
    ((ofList fs).verdict = .unsatisfiable →
      ¬ ∃ ν : Valuation, ν.Respects sorts ∧ ∀ f ∈ fs, f.TrueIn ν) ∧
    ((ofList fs).verdict = .satisfiable →
      ∃ ν : Valuation, ν.Respects sorts ∧ ∀ f ∈ fs, f.TrueIn ν) := by
  refine ⟨fun h ⟨ν, _, hν⟩ => (trueIn_ofList_iff.2 hν).verdict_ne h, fun h => ?_⟩
  exact ⟨_, (wellSorted_definitions_ofList hfs).respects, trueIn_ofList_iff.1 (trueIn_of_verdict_eq h)⟩

end Problem

end Evaluation

end YulBackend
