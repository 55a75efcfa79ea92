namespace YulBackend

/-- How many stack slots a function takes and leaves under the internal calling convention. -/
structure Arity where
  inputs : Nat
  outputs : Nat
deriving DecidableEq, Inhabited, Repr

namespace Arity

/-- Inputs first, then outputs. The order only serves to key maps. -/
instance : Ord Arity := ⟨compareLex (compareOn inputs) (compareOn outputs)⟩

instance : Std.TransOrd Arity :=
  inferInstanceAs (Std.TransCmp (compareLex (compareOn inputs) (compareOn outputs)))

theorem compare_def (a b : Arity) :
    compare a b = (compare a.inputs b.inputs).then (compare a.outputs b.outputs) := rfl

instance : Std.LawfulEqOrd Arity where
  eq_of_compare {a b} h := by
    rw [compare_def, Ordering.then_eq_eq] at h
    cases a; cases b
    simp only [mk.injEq]
    exact ⟨Std.LawfulEqOrd.eq_of_compare h.1, Std.LawfulEqOrd.eq_of_compare h.2⟩

def text (a : Arity) : String := "in_" ++ toString a.inputs ++ "_out_" ++ toString a.outputs

end Arity

end YulBackend
