import Mathlib.Logic.Relation
import YulBackend.Proofs.Logic.Expansion

namespace YulBackend

namespace Formula

instance (ν : Valuation) (f : Formula) : Decidable (f.TrueIn ν) :=
  inferInstanceAs (Decidable (_ = _))

/-- What an equation with a variable on the left says that the variable is. -/
def definition? (x : String) : Formula → Option Formula
  | .eq (.var name _) term => if name = x then some term else none
  | _ => none

/-- A formula that defines a variable is an equation with the variable on the left. -/
theorem eq_of_definition?_eq_some {f term : Formula} {x : String} (h : f.definition? x = some term) :
    ∃ sort, f = .eq (.var x sort) term := by
  rw [definition?.eq_def] at h
  split at h
  next name sort t =>
    split at h
    next hname =>
      cases h
      exact ⟨sort, hname ▸ rfl⟩
    next => cases h
  next => cases h

end Formula

namespace Evaluation

/-- The term of the first equation for a variable. -/
def firstTerm? (fs : List Formula) (x : String) : Option Formula := fs.findSome? (·.definition? x)

/-- The first equation for a variable is about another one. -/
def DependsOn (fs : List Formula) (x y : String) : Prop :=
  ∃ term, firstTerm? fs x = some term ∧ y ∈ term.variableNames

/-- All variables have equations, and the first ones contain no cycle. -/
structure IsClosed (fs : List Formula) : Prop where
  defined : ∀ f ∈ fs, ∀ x ∈ f.variableNames, ∃ term, firstTerm? fs x = some term
  acyclic : ∀ x, ¬ Relation.TransGen (DependsOn fs) x x

/-- Variables stand for what their first equations say. -/
def Solves (ν : Valuation) (fs : List Formula) : Prop :=
  ∀ x term, firstTerm? fs x = some term → term.valueIn ν = some (ν x)

variable {sorts : String → ValueSort} {fs : List Formula}

namespace Problem

/-- Adding a formula defines a variable only if it is an equation for it and none came before: the first equation
stays. -/
theorem lookup_definitions_add (problem : Problem) (f : Formula) (x : String) :
    (problem.add f).definitions.lookup x = (problem.definitions.lookup x).or (f.definition? x) := by
  rw [add.eq_def]
  split
  next name sort term =>
    rw [Formula.definition?]
    split
    next hnew =>
      rw [List.lookup_append, List.lookup_cons, List.lookup_nil]
      by_cases hname : name = x
      · rw [if_pos hname, hname, beq_self_eq_true]
      · rw [if_neg hname, beq_false_of_ne (Ne.symm hname)]
    next hold =>
      by_cases hname : name = x
      · obtain ⟨t, ht⟩ := Option.ne_none_iff_exists'.1 (mt Option.isNone_iff_eq_none.2 hold)
        rw [← hname, ht, Option.some_or]
      · rw [if_neg hname, Option.or_none]
  next hother =>
    rw [Formula.definition?.eq_2 _ _ hother, Option.or_none]

/-- The equations that become definitions are the first ones. -/
theorem lookup_definitions_ofList (fs : List Formula) (x : String) :
    (ofList fs).definitions.lookup x = firstTerm? fs x := by
  induction fs using List.reverseRecOn with
  | nil => rfl
  | append_singleton fs f ih =>
    rw [ofList_concat, lookup_definitions_add, ih, firstTerm?, firstTerm?, List.findSome?_append,
      List.findSome?_singleton]

/-- Every constraint of a problem is one of its formulas; equations that became definitions are none. -/
theorem mem_of_mem_constraints_ofList {c : Formula} (h : c ∈ (ofList fs).constraints) : c ∈ fs := by
  induction fs using List.reverseRecOn with
  | nil => cases h
  | append_singleton fs f ih =>
    rw [ofList_concat, add.eq_def] at h
    have hconstraint : c ∈ (ofList fs).constraints ++ [f] → c ∈ fs ++ [f] := fun h =>
      (List.mem_append.1 h).elim (fun h => List.mem_append_left _ (ih h)) (List.mem_append_right _)
    split at h
    · split at h
      · exact List.mem_append_left _ (ih h)
      · exact hconstraint h
    · exact hconstraint h

end Problem

/-- In a closed problem the variables of a first equation have first equations of their own. -/
theorem IsClosed.defined_of_firstTerm? (h : IsClosed fs) {x : String} {term : Formula}
    (hterm : firstTerm? fs x = some term) : ∀ y ∈ term.variableNames, ∃ t, firstTerm? fs y = some t := by
  obtain ⟨f, hf, hdefinition⟩ := List.exists_of_findSome?_eq_some hterm
  obtain ⟨sort, rfl⟩ := Formula.eq_of_definition?_eq_some hdefinition
  exact fun y hy => h.defined _ hf y (List.mem_append_right _ hy)

/-- A well-sorted formula has a value if its variables are defined, and if nothing that they hang on has lost its
definition. -/
theorem exists_value?_eq_some (hclosed : IsClosed fs) {definitions : Definitions}
    (hdefinitions : definitions.WellSorted sorts) {f : Formula} (hf : f.WellSorted sorts)
    (hdefined : ∀ x ∈ f.variableNames, ∃ term, firstTerm? fs x = some term)
    (hkept : ∀ x ∈ f.variableNames, ∀ y, Relation.ReflTransGen (DependsOn fs) x y →
      definitions.lookup y = firstTerm? fs y) :
    ∃ v, value? definitions f = some v := by
  fun_induction value? definitions f with
  | case1 definitions n => exact ⟨_, rfl⟩
  | case2 definitions b => exact ⟨_, rfl⟩
  | case3 definitions name sort hlookup =>
    obtain ⟨term, hterm⟩ := hdefined name List.mem_cons_self
    rw [hkept name List.mem_cons_self name .refl, hterm] at hlookup
    cases hlookup
  | case4 definitions name sort term hlookup ih =>
    -- Expanding `name` erases its definition. Nothing the term hangs on is lost, or there would be a cycle.
    have hfirst := (hkept name List.mem_cons_self name .refl).symm.trans hlookup
    have hdepends : ∀ x ∈ term.variableNames, DependsOn fs name x := fun x hx => ⟨term, hfirst, hx⟩
    refine ih (hdefinitions.erase name) (hdefinitions name term (mem_of_lookup_eq_some hlookup)).1 ?_ ?_
    · exact hclosed.defined_of_firstTerm? hfirst
    · intro x hx y hreach
      have hpath : Relation.TransGen (DependsOn fs) name y := .head' (hdepends x hx) hreach
      have hne : y ≠ name := fun heq => hclosed.acyclic name (heq ▸ hpath)
      rw [lookup_erase, if_neg hne]
      exact hkept name List.mem_cons_self y hpath.to_reflTransGen
  | case5 definitions a b iha ihb | case6 definitions a b iha ihb | case7 definitions a b iha ihb =>
    obtain ⟨⟨ha, hsorta⟩, hb, hsortb⟩ := hf
    rw [Formula.variableNames, List.forall_mem_append] at hdefined hkept
    obtain ⟨va, hva⟩ := iha hdefinitions ha hdefined.1 hkept.1
    obtain ⟨vb, hvb⟩ := ihb hdefinitions hb hdefined.2 hkept.2
    obtain ⟨m, rfl⟩ := Value.exists_eq_int ((sort_of_value?_eq_some hdefinitions ha hva).trans hsorta)
    obtain ⟨n, rfl⟩ := Value.exists_eq_int ((sort_of_value?_eq_some hdefinitions hb hvb).trans hsortb)
    rw [hva, hvb]
    exact ⟨_, rfl⟩
  | case8 definitions a b iha ihb =>
    obtain ⟨ha, hb, _⟩ := hf
    rw [Formula.variableNames, List.forall_mem_append] at hdefined hkept
    obtain ⟨va, hva⟩ := iha hdefinitions ha hdefined.1 hkept.1
    obtain ⟨vb, hvb⟩ := ihb hdefinitions hb hdefined.2 hkept.2
    rw [hva, hvb]
    exact ⟨_, rfl⟩
  | case9 definitions a ih =>
    obtain ⟨va, hva⟩ := ih hdefinitions hf.1 hdefined hkept
    obtain ⟨b, rfl⟩ := Value.exists_eq_bool ((sort_of_value?_eq_some hdefinitions hf.1 hva).trans hf.2)
    rw [hva]
    exact ⟨_, rfl⟩
  | case10 definitions condition yes no ihc ihy ihn =>
    obtain ⟨⟨hc, hsortc⟩, hy, hn, _⟩ := hf
    rw [Formula.variableNames, List.forall_mem_append, List.forall_mem_append] at hdefined hkept
    obtain ⟨vc, hvc⟩ := ihc hdefinitions hc hdefined.1.1 hkept.1.1
    obtain ⟨b, rfl⟩ := Value.exists_eq_bool ((sort_of_value?_eq_some hdefinitions hc hvc).trans hsortc)
    rw [hvc]
    cases b with
    | true => exact ihy hdefinitions hy hdefined.1.2 hkept.1.2
    | false => exact ihn hdefinitions hn hdefined.2 hkept.2

theorem Solves.definitions_trueIn {ν : Valuation} (h : Solves ν fs) :
    (Problem.ofList fs).definitions.TrueIn ν := fun x term hmem =>
  h x term ((Problem.lookup_definitions_ofList fs x).symm.trans (Problem.mem_definitions_ofList hmem).2)

/-- Where every definition has a value, and every constraint is true or false, the answer is definite. -/
theorem Problem.verdict_eq_ite {problem : Problem}
    (hdefinitions : ∀ x term, (x, term) ∈ problem.definitions → ∃ v, value? problem.definitions term = some v)
    (hconstraints : ∀ c ∈ problem.constraints, ∃ b, value? problem.definitions c = some (.bool b)) :
    problem.verdict =
      if ∀ c ∈ problem.constraints, value? problem.definitions c = some (.bool true) then .satisfiable
      else .unsatisfiable := by
  rw [verdict]
  split
  next hany =>
    obtain ⟨c, hc, hfalse⟩ := List.any_eq_true.1 hany
    rw [if_neg fun hall => ?_]
    have hboth := (hall c hc).symm.trans (of_decide_eq_true hfalse)
    cases hboth
  next hany =>
    have hall : ∀ c ∈ problem.constraints, value? problem.definitions c = some (.bool true) := by
      intro c hc
      obtain ⟨b, hb⟩ := hconstraints c hc
      cases b with
      | true => exact hb
      | false => exact absurd (List.any_eq_true.2 ⟨c, hc, decide_eq_true hb⟩) hany
    rw [if_pos hall, if_pos]
    rw [Bool.and_eq_true, List.all_eq_true, List.all_eq_true]
    refine ⟨fun d hd => ?_, fun c hc => decide_eq_true (hall c hc)⟩
    obtain ⟨v, hv⟩ := hdefinitions d.1 d.2 hd
    rw [hv, Option.isSome_some]

section

variable (hfs : ∀ f ∈ fs, f.IsAssertion sorts) (hclosed : IsClosed fs)
include hfs hclosed

/-- Every formula of a closed well-sorted problem has a value. The expansion ends as the first equations contain no
cycle. -/
theorem exists_value?_of_mem {f : Formula} (hf : f ∈ fs) :
    ∃ v, value? (Problem.ofList fs).definitions f = some v :=
  exists_value?_eq_some hclosed (Problem.wellSorted_definitions_ofList hfs) (hfs f hf).1 (hclosed.defined f hf)
    fun _ _ y _ => Problem.lookup_definitions_ofList fs y

/-- Every first equation of a closed well-sorted problem gives its variable a value. -/
theorem exists_value?_of_firstTerm? {x : String} {term : Formula} (h : firstTerm? fs x = some term) :
    ∃ v, value? (Problem.ofList fs).definitions term = some v := by
  have hdefinitions := Problem.wellSorted_definitions_ofList hfs
  have hmem := mem_of_lookup_eq_some ((Problem.lookup_definitions_ofList fs x).trans h)
  exact exists_value?_eq_some hclosed hdefinitions (hdefinitions x term hmem).1 (hclosed.defined_of_firstTerm? h)
    fun _ _ y _ => Problem.lookup_definitions_ofList fs y

/-- The values that the definitions give solve the first equations. -/
theorem solves_valuation : Solves ((Problem.ofList fs).definitions.valuation sorts) fs := by
  intro x term h
  obtain ⟨v, hv⟩ := exists_value?_of_firstTerm? hfs hclosed h
  rw [valueIn_valuation hv, valuation_of_lookup ((Problem.lookup_definitions_ofList fs x).trans h) hv]

/-- The values that evaluation finds are the only ones that make all first equations true. -/
theorem eq_valuation_of_solves {ν : Valuation} (hν : Solves ν fs) {x : String} {term : Formula}
    (h : firstTerm? fs x = some term) : ν x = (Problem.ofList fs).definitions.valuation sorts x := by
  obtain ⟨v, hv⟩ := exists_value?_of_firstTerm? hfs hclosed h
  have hvalue := valueIn_of_value?_eq_some hν.definitions_trueIn hv
  rw [hν x term h] at hvalue
  rw [valuation_of_lookup ((Problem.lookup_definitions_ofList fs x).trans h) hv]
  exact Option.some.inj hvalue

/-- The verdict on a closed problem is satisfiable exactly when the values its definitions give make every formula
true, and else unsatisfiable, never unknown. -/
theorem Problem.verdict_ofList_of_isClosed :
    (ofList fs).verdict =
      if ∀ f ∈ fs, f.TrueIn ((ofList fs).definitions.valuation sorts) then .satisfiable else .unsatisfiable := by
  have hvalue : ∀ c ∈ (ofList fs).constraints, ∃ b, value? (ofList fs).definitions c = some (.bool b) := by
    intro c hc
    have hmem := mem_of_mem_constraints_ofList hc
    obtain ⟨v, hv⟩ := exists_value?_of_mem hfs hclosed hmem
    have hsort := sort_of_value?_eq_some (wellSorted_definitions_ofList hfs) (hfs c hmem).1 hv
    obtain ⟨b, rfl⟩ := Value.exists_eq_bool (hsort.trans (hfs c hmem).2)
    exact ⟨b, hv⟩
  have hdefinitions : ∀ x term, (x, term) ∈ (ofList fs).definitions →
      ∃ v, value? (ofList fs).definitions term = some v := fun x term hmem =>
    exists_value?_of_firstTerm? hfs hclosed
      ((lookup_definitions_ofList fs x).symm.trans (mem_definitions_ofList hmem).2)
  rw [verdict_eq_ite hdefinitions hvalue]
  refine if_congr ?_ rfl rfl
  rw [← trueIn_ofList_iff]
  constructor
  · exact fun htrue => ⟨(solves_valuation hfs hclosed).definitions_trueIn,
      fun c hc => valueIn_valuation (htrue c hc)⟩
  · intro htrue c hc
    obtain ⟨b, hb⟩ := hvalue c hc
    rw [← htrue.constraints c hc, hb, valueIn_valuation hb]

end

/-- `check` ends, whatever cycles the definitions contain. If all variables have equations, and the first ones contain
no cycle, these have one solution, and the answer says whether everything is true in it. -/
theorem check_decides (s : Session) (assumptions : List Formula) :
    (∃ n, ∀ fuel ≥ n, (Problem.ofList (s.assertions ++ assumptions)).verdict? fuel =
      some (prover.check assumptions s).1) ∧
    ∀ sorts, (∀ f ∈ s.assertions ++ assumptions, f.IsAssertion sorts) → IsClosed (s.assertions ++ assumptions) →
      ∃ ν : Valuation, ν.Respects sorts ∧ Solves ν (s.assertions ++ assumptions) ∧
        (∀ ν', Solves ν' (s.assertions ++ assumptions) → ∀ f ∈ s.assertions ++ assumptions,
          ∀ x ∈ f.variableNames, ν' x = ν x) ∧
        (prover.check assumptions s).1 =
          if ∀ f ∈ s.assertions ++ assumptions, f.TrueIn ν then .satisfiable else .unsatisfiable := by
  refine ⟨⟨_, fun fuel hfuel => Problem.verdict?_eq hfuel⟩, fun sorts hfs hclosed => ?_⟩
  refine ⟨_, (Problem.wellSorted_definitions_ofList hfs).respects, solves_valuation hfs hclosed, ?_,
    Problem.verdict_ofList_of_isClosed hfs hclosed⟩
  intro ν' hν' f hf x hx
  obtain ⟨term, hterm⟩ := hclosed.defined f hf x hx
  exact eq_valuation_of_solves hfs hclosed hν' hterm

end Evaluation

namespace LaterEquation

def x : Formula := .var "x" .int

def y : Formula := .var "y" .int

/-- A variable is used before its equation. A second one, in a scope, is about the variable itself. -/
def session : Evaluation.Session where
  base := [.eq y (.add x (.int 1)), .eq x (.int 3)]
  scopes := [[.eq x (.ite (.lt x y) x y)]]

def formulas : List Formula :=
  [.eq y (.add x (.int 1)), .eq x (.int 3), .eq x (.ite (.lt x y) x y), .gt y (.int 3)]

end LaterEquation

open LaterEquation in
/-- The later equation becomes a constraint and closes no cycle. -/
theorem Evaluation.check_decides_laterEquation :
    ∃ ν : Valuation, ν.Respects (fun _ => .int) ∧ Solves ν formulas ∧
      (∀ ν', Solves ν' formulas → ∀ f ∈ formulas, ∀ z ∈ f.variableNames, ν' z = ν z) ∧
      (prover.check [.gt y (.int 3)] session).1 =
        if ∀ f ∈ formulas, f.TrueIn ν then .satisfiable else .unsatisfiable := by
  have hx : firstTerm? formulas "x" = some (.int 3) := rfl
  have hy : firstTerm? formulas "y" = some (.add x (.int 1)) := rfl
  have hsorted : ∀ f ∈ formulas, f.IsAssertion fun _ => .int := by
    simp [formulas, Formula.IsAssertion, Formula.WellSorted, Formula.sort, x, y]
  have hdefined : ∀ f ∈ formulas, ∀ z ∈ f.variableNames, z = "x" ∨ z = "y" := by
    simp [formulas, Formula.variableNames, x, y]
  -- only the term of `y` has variables, and it has `x` only
  have hdepends : ∀ a b, DependsOn formulas a b → a = "y" ∧ b = "x" := by
    rintro a b ⟨term, hterm, hb⟩
    by_cases hay : a = "y"
    · rw [hay, hy] at hterm
      cases hterm
      exact ⟨hay, List.mem_singleton.1 hb⟩
    by_cases hax : a = "x"
    · rw [hax, hx] at hterm
      cases hterm
      cases hb
    · simp [firstTerm?, formulas, Formula.definition?, x, y, Ne.symm hay, Ne.symm hax] at hterm
  refine (check_decides session [.gt y (.int 3)]).2 _ hsorted ⟨fun f hf z hz => ?_, fun z hcycle => ?_⟩
  · rcases hdefined f hf z hz with rfl | rfl
    · exact ⟨_, hx⟩
    · exact ⟨_, hy⟩
  · obtain ⟨_, hfirst, _⟩ := Relation.TransGen.head'_iff.1 hcycle
    obtain ⟨_, _, hlast⟩ := Relation.TransGen.tail'_iff.1 hcycle
    have hname := (hdepends _ _ hfirst).1.symm.trans (hdepends _ _ hlast).2
    simp at hname

end YulBackend
