import Mathlib.Data.List.Forall2
import YulBackend.Proofs.Semantics.Execution

namespace YulBackend

namespace Locals

variable {V : Locals} {name x : String} {names : List String} {values : List Nat}

@[simp]
theorem set_same (V : Locals) (name : String) (value : Nat) : V.set name value name = some value := if_pos rfl

theorem set_of_ne (V : Locals) (value : Nat) (h : x ≠ name) : V.set name value x = V x := if_neg h

/-- Setting several variables leaves all others alone. -/
theorem setAll_of_not_mem {V : Locals} {pairs : List (String × Nat)} {x : String}
    (h : x ∉ pairs.map (·.1)) : V.setAll pairs x = V x := by
  induction pairs generalizing V with
  | nil => rfl
  | cons pair rest ih =>
    obtain ⟨name, value⟩ := pair
    rw [List.map_cons, List.mem_cons, not_or] at h
    rw [setAll, ih h.2, set, if_neg h.1]

/-- A variable that has a value keeps having one when others are set. -/
theorem isSome_setAll_of_isSome {V : Locals} {x : String} (h : (V x).isSome)
    (pairs : List (String × Nat)) : (V.setAll pairs x).isSome := by
  induction pairs generalizing V with
  | nil => exact h
  | cons pair rest ih =>
    obtain ⟨name, value⟩ := pair
    refine ih ?_
    rw [set]
    split
    · rfl
    · exact h

/-- Every variable that is set has a value afterwards. -/
theorem isSome_setAll_of_mem {V : Locals} {pairs : List (String × Nat)} {x : String}
    (h : x ∈ pairs.map (·.1)) : (V.setAll pairs x).isSome := by
  induction pairs generalizing V with
  | nil => cases h
  | cons pair rest ih =>
    obtain ⟨name, value⟩ := pair
    rcases List.mem_cons.1 h with rfl | h
    · refine isSome_setAll_of_isSome ?_ rest
      rw [set, if_pos rfl, Option.isSome_some]
    · exact ih h

/-- These variables have these values. -/
def Holds (V : Locals) (names : List String) (values : List Nat) : Prop :=
  List.Forall₂ (fun name value => V name = some value) names values

/-- What names hold depends only on the values of those names. -/
theorem Holds.congr {V' : Locals} (h : V.Holds names values) (heq : ∀ name ∈ names, V' name = V name) :
    V'.Holds names values := by
  induction h with
  | nil => exact .nil
  | cons hname _ ih =>
    rw [List.forall_mem_cons] at heq
    exact .cons (heq.1.trans hname) (ih heq.2)

/-- Looking up names that hold values gives just those values. -/
theorem Holds.filterMap (h : V.Holds names values) : names.filterMap V = values := by
  induction h with
  | nil => rfl
  | cons hname _ ih => rw [List.filterMap_cons_some hname, ih]

/-- Names set to as many values hold them, since no name repeats and sets over another. -/
theorem holds_setAll_zip (hnodup : names.Nodup) (hlength : names.length = values.length) :
    (V.setAll (names.zip values)).Holds names values := by
  induction names generalizing V values with
  | nil =>
    cases values with
    | nil => exact .nil
    | cons => cases hlength
  | cons name names ih =>
    cases values with
    | nil => cases hlength
    | cons value values =>
      rw [List.nodup_cons] at hnodup
      have hfirst : name ∉ (names.zip values).map Prod.fst := by
        rw [List.map_fst_zip (Nat.le_of_eq (Nat.succ.inj hlength))]
        exact hnodup.1
      refine .cons ?_ (ih hnodup.2 (Nat.succ.inj hlength))
      rw [List.zip_cons_cons, setAll, setAll_of_not_mem hfirst, set_same]

theorem restrict_of_isSome {outer : Locals} (h : (outer x).isSome) : V.restrict outer x = V x := if_pos h

end Locals

end YulBackend
