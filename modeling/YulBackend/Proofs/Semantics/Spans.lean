import YulBackend.Proofs.Semantics.Rules
import YulBackend.Proofs.Syntax.Calls

namespace YulBackend

mutual

/-- A word stands for every literal of an expression. -/
def Expr.isValued : Expr → Bool
  | .call _ _ arguments => Expr.allValued arguments
  | .identifier _ => true
  | .literal value => value.word.toOption.isSome

def Expr.allValued : List Expr → Bool
  | [] => true
  | e :: rest => e.isValued && Expr.allValued rest

end

theorem Expr.isValued_number {text : String} {n : Nat} (h : (Literal.number text).word = .ok n) :
    (number text).isValued := by
  rw [number, isValued, h]
  rfl

mutual

/-- Whether an expression is valued does not depend on its spans. -/
theorem Expr.isValued_eraseSpans : ∀ e : Expr, e.eraseSpans.isValued = e.isValued
  | .call _ callee arguments => by
    rw [Expr.eraseSpans, Expr.isValued, Expr.isValued, Expr.allValued_eraseAll arguments]
  | .identifier _ => rfl
  | .literal _ => rfl

/-- Whether expressions are valued does not depend on their spans. -/
theorem Expr.allValued_eraseAll : ∀ es : List Expr, Expr.allValued (Expr.eraseAll es) = Expr.allValued es
  | [] => rfl
  | e :: rest => by
    rw [Expr.eraseAll, Expr.allValued, Expr.allValued, e.isValued_eraseSpans, Expr.allValued_eraseAll rest]

end

namespace Execution

variable {W : Type} {I : Interpretation W}

section

variable {call : String → List Nat → Exec W (List Nat)} {V : Locals}

mutual

/-- A valued expression evaluates the same with its spans erased: only a literal without a word may look at its
place. -/
theorem eval_eraseSpans : ∀ {e : Expr}, e.isValued → eval I call V e.eraseSpans = eval I call V e
  | .call _ callee arguments, h => by
    rw [Expr.eraseSpans, eval, eval, evalAll_eraseAll h]
    rfl
  | .identifier _, _ => rfl
  | .literal value, h => by
    have hliteral : I.literal value.eraseSpan = I.literal value := by
      have hword : value.eraseSpan.word = value.word := rfl
      rw [Interpretation.literal, Interpretation.literal, hword]
      rw [Expr.isValued] at h
      cases hvalue : value.word with
      | ok word => rfl
      | error fault =>
        rw [hvalue] at h
        cases h
    rw [Expr.eraseSpans, eval, eval, hliteral]

theorem evalAll_eraseAll : ∀ {es : List Expr}, Expr.allValued es →
    evalAll I call V (Expr.eraseAll es) = evalAll I call V es
  | [], _ => rfl
  | e :: rest, h => by
    rw [Expr.allValued, Bool.and_eq_true] at h
    rw [Expr.eraseAll, evalAll, evalAll, eval_eraseSpans h.1, evalAll_eraseAll h.2]

end

/-- Expressions that differ in their spans are evaluated alike. -/
theorem eval_congr {e e' : Expr} (h : e.eraseSpans = e'.eraseSpans) (hvalued : e'.isValued) :
    eval I call V e = eval I call V e' := by
  have hvalued' : e.isValued := by rwa [← e.isValued_eraseSpans, h, e'.isValued_eraseSpans]
  rw [← eval_eraseSpans hvalued', h, eval_eraseSpans hvalued]

end

variable {calls : Calls W} {fuel : Nat} {F : Functions} {V : Locals}

/-- An assignment has the effect of any other that differs in its spans. -/
theorem exec_assign_congr {s : Stmt} {targets : List String} {e : Expr}
    (h : s.eraseSpans = (Stmt.assign targets e).eraseSpans) (hvalued : e.isValued) :
    exec I calls fuel F V s = exec I calls fuel F V (.assign targets e) := by
  have hall : ∀ names : List Identifier,
      (names.all fun t => (V t.name).isSome) = (names.map (·.name)).all fun x => (V x).isSome := by
    intro names
    rw [List.all_map]
    rfl
  cases s with
  | assignment span names value =>
    rw [Stmt.assign, Stmt.eraseSpans, Stmt.eraseSpans, Stmt.assignment.injEq] at h
    obtain ⟨-, hnames, hvalue⟩ := h
    have hnames := congrArg (List.map (·.name)) hnames
    rw [Identifier.map_name_eraseSpan, Identifier.map_name_eraseSpan] at hnames
    rw [Stmt.assign, exec, exec, eval_congr hvalue hvalued, hnames, hall, hall, hnames]
  | _ => cases h

end Execution

/-- The same function, read from nowhere. -/
def Definition.eraseSpans (d : Definition) : Definition := { d with body := d.body.eraseSpans }

/-- The functions that statements define, with their spans erased, are those of the erased statements. -/
theorem Stmt.definitions_eraseAll (statements : List Stmt) :
    Stmt.definitions (Stmt.eraseAll statements) = (Stmt.definitions statements).map Definition.eraseSpans := by
  induction statements with
  | nil => rfl
  | cons s rest ih =>
    cases s with
    | function _ name parameters returns body =>
      rw [Stmt.eraseAll, Stmt.eraseSpans, Stmt.definitions, Stmt.definitions, ih, Identifier.map_name_eraseSpan,
        Identifier.map_name_eraseSpan]
      rfl
    | _ => exact ih

/-- Programs that differ in their spans define functions that do. -/
theorem Block.definitions_congr {b b' : Block} (h : b.eraseSpans = b'.eraseSpans) :
    (Stmt.definitions b.statements).map Definition.eraseSpans =
      (Stmt.definitions b'.statements).map Definition.eraseSpans := by
  rw [← Stmt.definitions_eraseAll, Block.eraseAll_statements_congr h, Stmt.definitions_eraseAll]

namespace Execution

variable {W : Type} {I : Interpretation W} {fuel : Nat} {F F' : Functions} {m m' : Machine W}

/-- What differs from a single statement in its spans is a single statement that does. -/
theorem exists_of_eraseAll_eq_singleton {statements : List Stmt} {s : Stmt}
    (h : Stmt.eraseAll statements = [s.eraseSpans]) : ∃ s', statements = [s'] ∧ s'.eraseSpans = s.eraseSpans := by
  rcases statements with _ | ⟨s', _ | ⟨next, rest⟩⟩
  · cases h
  · exact ⟨s', rfl, (List.cons.inj h).1⟩
  · cases (List.cons.inj h).2

/-- A function that assigns its result once gives the value of the expression. -/
theorem callFunction_of_assign {d : Definition} {name parameter result : String} {e : Expr} {value given : Nat}
    (h : d.eraseSpans = Definition.eraseSpans ⟨name, [parameter], [result], .ofList [.assign [result] e]⟩)
    (hne : parameter ≠ result) (hvalued : e.isValued) (hfind : F.find? name = some (d, F'))
    (he : ∀ call V, V parameter = some value → eval I call V e m = (.ok [given], m')) :
    callFunction I (fuel + 1) F name [value] m = (.ok [given], m') := by
  obtain ⟨called, parameters, returns, span, statements⟩ := d
  obtain ⟨rfl, rfl, rfl, hbody⟩ : called = name ∧ parameters = [parameter] ∧ returns = [result] ∧
      Block.eraseSpans ⟨span, statements⟩ = (Block.ofList [.assign [result] e]).eraseSpans :=
    (Definition.mk.injEq ..).mp h
  obtain ⟨s, rfl, hs⟩ := exists_of_eraseAll_eq_singleton (congrArg Block.statements hbody)
  let d : Definition := ⟨called, [parameter], [result], span, [s]⟩
  have hparameter : d.locals [value] parameter = some value :=
    (d.locals_of_not_mem_returns (List.mem_singleton.not.2 hne)).trans (Locals.set_same _ _ _)
  have hresult : (d.locals [value] result).isSome := d.isSome_locals_of_mem_returns List.mem_cons_self
  have hassign : exec I (callFunction I fuel) fuel (Stmt.definitions [s] :: F') (d.locals [value])
      (.assign [result] e) m = (.ok (.normal, (d.locals [value]).set result given), m') :=
    exec_assign (he _ _ hparameter) hresult
  have hrun := (congrFun (exec_assign_congr hs hvalued) m).trans hassign
  rw [callFunction_of_ok hfind rfl rfl (execAll_cons hrun)]
  have hgiven : (((d.locals [value]).set result given).restrict (d.locals [value])) result = some given := by
    rw [Locals.restrict_of_isSome hresult, Locals.set_same]
  exact congrArg (fun values => (Except.ok values, m')) (List.filterMap_cons_some hgiven)

end Execution

end YulBackend
