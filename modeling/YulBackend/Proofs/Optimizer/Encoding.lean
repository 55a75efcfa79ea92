import YulBackend.Optimizer.Encoder
import YulBackend.Proofs.Logic.Denotation
import YulBackend.Proofs.SortedMap.Lookup
import YulBackend.Proofs.Syntax.Names

namespace YulBackend

open Evaluation

theorem StateM.bind_apply {σ α β : Type} (x : StateM σ α) (k : α → StateM σ β) (s : σ) :
    (x >>= k) s = k (x s).1 (x s).2 := rfl

namespace Encoder

def freshName (k : Nat) : String := "expr_" ++ toString k

def boundName (x : String) : String := "yul_" ++ x

/-- A declaration defines a tracked variable, or it defines none: then it declares several names, has no value, or its
name is not tracked. -/
theorem defines_cases (tracked : String → Bool) (declared : List Identifier) (value : Option Expr) :
    (∃ name v, declared = [name] ∧ value = some v ∧ tracked name.name) ∨
      ∀ name v, declared = [name] → value = some v → tracked name.name = false := by
  by_cases hdefines : ∃ name v, declared = [name] ∧ value = some v ∧ tracked name.name
  · exact .inl hdefines
  · refine .inr fun name v hdeclared hvalue => ?_
    rw [← Bool.not_eq_true]
    exact fun htracked => hdefines ⟨name, v, hdeclared, hvalue, htracked⟩

theorem boundName_injective {x y : String} (h : boundName x = boundName y) : x = y := by
  have hlist := congrArg String.toList h
  rw [boundName, boundName, String.toList_append, String.toList_append] at hlist
  exact String.toList_injective (List.append_cancel_left hlist)

/-- Different numbers give different fresh variables. -/
theorem freshName_injective {j k : Nat} (h : freshName j = freshName k) : j = k := by
  have hlist := congrArg String.toList h
  rw [freshName, freshName, String.toList_append, String.toList_append] at hlist
  have hdigits := List.append_cancel_left hlist
  have hvalue := congrArg (Nat.ofDigitChars 10 · 0) hdigits
  simpa [Nat.ofDigitChars_toDigits] using hvalue

private theorem head?_boundName (x : String) : (boundName x).toList.head? = some 'y' := by
  have hhead : "yul_".toList.head? = some 'y' := by decide
  rw [boundName, String.toList_append, List.head?_append, hhead]
  exact Option.some_or

private theorem head?_expr_append (s : String) : ("expr_" ++ s).toList.head? = some 'e' := by
  have hhead : "expr_".toList.head? = some 'e' := by decide
  rw [String.toList_append, List.head?_append, hhead]
  exact Option.some_or

theorem boundName_ne_freshName (x : String) (k : Nat) : boundName x ≠ freshName k := fun heq => by
  have hbound := head?_boundName x
  have hfresh : (freshName k).toList.head? = some 'e' := head?_expr_append (toString k)
  rw [heq, hfresh] at hbound
  exact absurd (Option.some.inj hbound) (by decide)

variable (d : Dialect) (tracked : String → Bool)

/-- The encoder that the evaluating prover is used with. -/
abbrev evaluating : Encoder Session := { dialect := d, tracked, prover := Evaluation.prover }

def fresh (k : Nat) : Formula × Nat := (.var (freshName k) .int, k + 1)

mutual

/-- The formula of an expression, if `k` is the number of the next fresh variable, and what that number is
afterwards. -/
def formula (bindings : SortedMap String Formula) (k : Nat) : Expr → Formula × Nat
  | .call _ callee arguments =>
    match d.instruction? callee.name with
    | none => fresh k
    | some instruction =>
      let (formulas, k) := formulas bindings k arguments
      match model? instruction formulas with
      | some f => (f, k)
      | none => fresh k
  | .identifier name =>
    match bindings.get? name.name with
    | some bound => if tracked name.name then (bound, k) else fresh k
    | none => fresh k
  | .literal value =>
    match value.word with
    | .ok word => (.int word, k)
    | .error _ => fresh k

def formulas (bindings : SortedMap String Formula) (k : Nat) : List Expr → List Formula × Nat
  | [] => ([], k)
  | e :: rest =>
    let (f, k) := formula bindings k e
    let (others, k) := formulas bindings k rest
    (f :: others, k)

end

mutual

/-- Encoding with the evaluating prover gives the expression's formula and advances the number of the next fresh
variable, nothing else. -/
theorem encode_eq : ∀ (e : Expr) (c : Encoding Session),
    (evaluating d tracked).encode e c =
      ((formula d tracked c.bindings c.fresh e).1,
        { c with fresh := (formula d tracked c.bindings c.fresh e).2 })
  | .call _ callee arguments, c => by
    rw [encode, formula]
    cases d.instruction? callee.name with
    | none => rfl
    | some instruction =>
      refine (StateM.bind_apply _ _ _).trans ?_
      rw [encodeAll_eq arguments c]
      dsimp only
      cases model? instruction (formulas d tracked c.bindings c.fresh arguments).1 <;> rfl
  | .identifier name, c => by
    rw [encode, formula]
    refine (StateM.bind_apply _ _ _).trans ?_
    change (match c.bindings.get? name.name with | some bound => _ | none => _ : StateM _ Formula) c = _
    cases c.bindings.get? name.name with
    | none => rfl
    | some bound =>
      dsimp only
      split <;> rfl
  | .literal value, c => by
    rw [encode, formula]
    cases value.word <;> rfl

/-- Encoding arguments with the evaluating prover gives their formulas and advances the number of the next fresh
variable. -/
theorem encodeAll_eq : ∀ (es : List Expr) (c : Encoding Session),
    (evaluating d tracked).encodeAll es c =
      ((formulas d tracked c.bindings c.fresh es).1,
        { c with fresh := (formulas d tracked c.bindings c.fresh es).2 })
  | [], c => by
    rw [encodeAll, formulas]
    rfl
  | e :: rest, c => by
    rw [encodeAll, formulas]
    refine (StateM.bind_apply _ _ _).trans ?_
    rw [encode_eq e c, StateM.bind_apply, encodeAll_eq rest]
    rfl

end

/-- Every name is bound to its own variable. -/
def BindsNames (bindings : SortedMap String Formula) : Prop :=
  ∀ x f, bindings.get? x = some f → f = .var (boundName x) .int

theorem bindsNames_empty : BindsNames .empty := by
  intro x f h
  cases h

/-- The variables of a formula that was made between two numbers of fresh variables. -/
def IsVariable (bindings : SortedMap String Formula) (visible : List String) (k k' : Nat)
    (v : String) : Prop :=
  (∃ x ∈ visible, bindings.contains x ∧ v = boundName x) ∨ ∃ j, k ≤ j ∧ j < k' ∧ v = freshName j

variable {d tracked} {bindings : SortedMap String Formula} {visible : List String}

/-- A variable of a formula stays one when the range of fresh numbers grows. -/
theorem IsVariable.mono {k k' l l' : Nat} {v : String} (h : IsVariable bindings visible k k' v)
    (hk : l ≤ k) (hk' : k' ≤ l') : IsVariable bindings visible l l' v := by
  refine h.imp_right ?_
  rintro ⟨j, hkj, hjk, rfl⟩
  exact ⟨j, by omega, by omega, rfl⟩

theorem isVariable_of_mem_fresh {k : Nat} {v : String} (h : v ∈ (fresh k).1.variableNames) :
    IsVariable bindings visible k (k + 1) v := by
  rw [List.mem_singleton.1 h]
  exact .inr ⟨k, by omega, by omega, rfl⟩

/-- A modelled instruction brings no variables of its own. -/
theorem exists_of_mem_model? {i : Instruction} {fs : List Formula} {f : Formula}
    (h : model? i fs = some f) {v : String} (hv : v ∈ f.variableNames) :
    ∃ a ∈ fs, v ∈ a.variableNames := by
  rw [model?.eq_def] at h
  split at h <;> cases h <;>
    simpa [wordOf, Formula.variableNames] using hv

mutual

/-- Encoding an expression never goes back to an earlier fresh number. -/
theorem le_formula (k : Nat) : ∀ e, k ≤ (formula d tracked bindings k e).2
  | .call _ callee arguments => by
    have harguments := le_formulas k arguments
    rw [formula]
    split
    · exact Nat.le_succ k
    · dsimp only
      split
      · exact harguments
      · exact Nat.le_succ_of_le harguments
  | .identifier name => by
    rw [formula]
    split
    · split
      · exact Nat.le_refl k
      · exact Nat.le_succ k
    · exact Nat.le_succ k
  | .literal value => by
    rw [formula]
    split
    · exact Nat.le_refl k
    · exact Nat.le_succ k

/-- Encoding arguments never goes back to an earlier fresh number. -/
theorem le_formulas (k : Nat) : ∀ es, k ≤ (formulas d tracked bindings k es).2
  | [] => Nat.le_refl k
  | e :: rest => by
    have hfirst := le_formula k e
    have hrest := le_formulas (formula d tracked bindings k e).2 rest
    rw [formulas]
    exact Nat.le_trans hfirst hrest

end

mutual

/-- The variables of a scoped expression's formula are those of visible names that are bound, and fresh ones drawn on
the way. -/
theorem isVariable_of_mem_formula (hbindings : BindsNames bindings) (k : Nat) {v : String} :
    ∀ e : Expr, e.isScoped visible → v ∈ (formula d tracked bindings k e).1.variableNames →
      IsVariable bindings visible k (formula d tracked bindings k e).2 v
  | .call _ callee arguments, hscoped, hv => by
    have hle : k ≤ (formulas d tracked bindings k arguments).2 := le_formulas k arguments
    rw [Expr.isScoped] at hscoped
    rw [formula] at hv ⊢
    cases hinstruction : d.instruction? callee.name with
    | none =>
      rw [hinstruction] at hv
      exact isVariable_of_mem_fresh hv
    | some instruction =>
      rw [hinstruction] at hv
      dsimp only at hv ⊢
      cases hmodel : model? instruction (formulas d tracked bindings k arguments).1 with
      | none =>
        rw [hmodel] at hv
        exact (isVariable_of_mem_fresh hv).mono hle (Nat.le_refl _)
      | some f =>
        rw [hmodel] at hv
        exact isVariable_of_mem_formulas hbindings k arguments hscoped (exists_of_mem_model? hmodel hv)
  | .identifier name, hscoped, hv => by
    rw [formula] at hv ⊢
    cases hbound : bindings.get? name.name with
    | none =>
      rw [hbound] at hv
      exact isVariable_of_mem_fresh hv
    | some bound =>
      rw [hbound] at hv
      dsimp only at hv ⊢
      by_cases htracked : tracked name.name
      · rw [if_pos htracked, hbindings _ _ hbound] at hv
        rw [List.mem_singleton.1 hv]
        refine .inl ⟨name.name, ?_, ?_, rfl⟩
        · simpa [Expr.isScoped] using hscoped
        · rw [SortedMap.contains, hbound, Option.isSome_some]
      · rw [if_neg htracked] at hv ⊢
        exact isVariable_of_mem_fresh hv
  | .literal value, hscoped, hv => by
    rw [formula] at hv ⊢
    cases hword : value.word with
    | ok word =>
      rw [hword] at hv
      cases hv
    | error fault =>
      rw [hword] at hv
      exact isVariable_of_mem_fresh hv

/-- The variables of scoped arguments' formulas are those of visible names that are bound, and fresh ones drawn on the
way. -/
theorem isVariable_of_mem_formulas (hbindings : BindsNames bindings) (k : Nat) {v : String} :
    ∀ es : List Expr, Expr.allScoped visible es →
      (∃ f ∈ (formulas d tracked bindings k es).1, v ∈ f.variableNames) →
      IsVariable bindings visible k (formulas d tracked bindings k es).2 v
  | [], _, hv => by
    obtain ⟨f, hf, _⟩ := hv
    cases hf
  | e :: rest, hscoped, hv => by
    obtain ⟨f, hf, hv⟩ := hv
    rw [Expr.allScoped, Bool.and_eq_true] at hscoped
    have hfirst : k ≤ (formula d tracked bindings k e).2 := le_formula k e
    have hrest : (formula d tracked bindings k e).2 ≤
        (formulas d tracked bindings (formula d tracked bindings k e).2 rest).2 :=
      le_formulas (formula d tracked bindings k e).2 rest
    rw [formulas] at hf ⊢
    rcases List.mem_cons.1 hf with rfl | hf
    · exact (isVariable_of_mem_formula hbindings k e hscoped.1 hv).mono (Nat.le_refl _) hrest
    · exact (isVariable_of_mem_formulas hbindings _ rest hscoped.2 ⟨f, hf, hv⟩).mono hfirst (Nat.le_refl _)

end

end Encoder

end YulBackend
