import YulBackend.Codegen.Code
import YulBackend.Proofs.Semantics.Locals
import YulBackend.Proofs.Semantics.Simulation

namespace YulBackend

variable {W : Type}

namespace Exec

variable {α β : Type} {x : Exec W α} {k : α → Exec W β} {m m' : Machine W}

theorem bind_of_ok {a : α} (h : x m = (.ok a, m')) : (x >>= k) m = k a m' := by
  rw [bind_apply, h]

theorem bind_of_error {reason : Stop} (h : x m = (.error reason, m')) : (x >>= k) m = (.error reason, m') := by
  rw [bind_apply, h]

/-- Work of which exactly so many results are wanted. -/
def counted (count : Nat) (x : Exec W (List Nat)) : Exec W (List Nat) := do
  let results ← x
  if results.length = count then return results else stop .stuck

section

variable {count : Nat} {y : Exec W (List Nat)} {results : List Nat}

theorem counted_of_ok (h : y m = (.ok results, m')) (hlength : results.length = count) :
    counted count y m = (.ok results, m') := by
  rw [counted, bind_of_ok h, if_pos hlength]
  rfl

/-- A count that was passed gives that many results. -/
theorem length_eq_of_counted (h : counted count y m = (.ok results, m')) : results.length = count := by
  rw [counted, bind_apply] at h
  split at h
  next values hvalues =>
    split at h
    next hlength =>
      cases h
      exact hlength
    next => cases h
  next => cases h

/-- Names are paired with values if there are as many of both. -/
theorem zip_bind (names : List String) (y : Exec W (List Nat)) (k : List (String × Nat) → Exec W β) :
    (do
      let values ← y
      let pairs ← zip names values
      k pairs) m =
      (do
        let values ← counted names.length y
        k (names.zip values)) m := by
  rw [counted, bind_apply, bind_apply, bind_apply]
  cases (y m).1 with
  | error => rfl
  | ok values =>
    dsimp only
    by_cases hlength : names.length = values.length
    · rw [bind_apply, zip, if_pos hlength, if_pos hlength.symm]
      rfl
    · rw [bind_apply, zip, if_neg hlength, if_neg (Ne.symm hlength)]
      rfl

end

end Exec

/-- The variables of a function when its body starts. -/
def Definition.locals (d : Definition) (values : List Nat) : Locals :=
  (Locals.empty.setAll (d.parameters.zip values)).setAll (d.returns.map fun x => (x, 0))

namespace Definition

variable {d : Definition} {values : List Nat} {x : String}

theorem map_fst_returns (d : Definition) : (d.returns.map fun x => (x, 0)).map Prod.fst = d.returns := by
  rw [List.map_map]
  exact List.map_id _

theorem locals_of_not_mem_returns (h : x ∉ d.returns) :
    d.locals values x = Locals.empty.setAll (d.parameters.zip values) x :=
  Locals.setAll_of_not_mem (by rwa [d.map_fst_returns])

theorem isSome_locals_of_mem_returns (h : x ∈ d.returns) : (d.locals values x).isSome :=
  Locals.isSome_setAll_of_mem (by rwa [d.map_fst_returns])

/-- The parameters of a function hold the arguments of the call, as no parameter is also a return variable. -/
theorem holds_locals (hnodup : d.parameters.Nodup) (hdisjoint : ∀ x ∈ d.parameters, x ∉ d.returns)
    (hlength : d.parameters.length = values.length) : (d.locals values).Holds d.parameters values :=
  (Locals.holds_setAll_zip hnodup hlength).congr fun x hx => locals_of_not_mem_returns (hdisjoint x hx)

end Definition

namespace Functions

variable {name : String} {frame : List Definition} {F : Functions} {d : Definition}

@[simp]
theorem find?_nil_cons (name : String) (F : Functions) : find? name ([] :: F) = find? name F := rfl

/-- A function of the innermost frame is found, and its body sees that frame and the outer ones. -/
theorem find?_cons (h : frame.find? (·.name = name) = some d) : find? name (frame :: F) = some (d, frame :: F) := by
  rw [find?, h]

end Functions

namespace Execution

section

variable {I : Interpretation W} {call : String → List Nat → Exec W (List Nat)} {V : Locals} {m m' m'' : Machine W}
  {name : String} {e : Expr} {arguments : List Expr} {value : Nat} {values results : List Nat} {reason : Stop}

theorem eval_number (text : String) :
    eval I call V (.number text) m = (.ok [I.literal (Literal.number text)], m) := rfl

theorem eval_var (h : V name = some value) : eval I call V (.var name) m = (.ok [value], m) := by
  rw [Expr.var, eval, h]
  rfl

theorem evalAll_nil : evalAll I call V [] m = (.ok [], m) := rfl

theorem evalAll_cons (harguments : evalAll I call V arguments m = (.ok values, m'))
    (he : eval I call V e m' = (.ok [value], m'')) :
    evalAll I call V (e :: arguments) m = (.ok (value :: values), m'') := by
  rw [evalAll, Exec.bind_of_ok harguments, Exec.bind_of_ok he]
  rfl

/-- Variables that have these values are evaluated to them, in order. -/
theorem evalAll_vars {names : List String} (h : V.Holds names values) :
    evalAll I call V (names.map .var) m = (.ok values, m) := by
  induction h with
  | nil => exact evalAll_nil
  | cons hname _ ih => exact evalAll_cons ih (eval_var hname)

theorem eval_builtin (harguments : evalAll I call V arguments m = (.ok values, m'))
    (hname : (I.dialect.builtin? name).isSome) :
    eval I call V (.apply name arguments) m = I.perform name values m' := by
  rw [Expr.apply, eval, Exec.bind_of_ok harguments, if_pos hname]

theorem eval_call (harguments : evalAll I call V arguments m = (.ok values, m'))
    (hname : I.dialect.builtin? name = none) :
    eval I call V (.apply name arguments) m = call name values m' := by
  rw [Expr.apply, eval, Exec.bind_of_ok harguments, hname]
  rfl

theorem evalOne_of_eval (h : eval I call V e m = (.ok [value], m')) : evalOne I call V e m = (.ok value, m') := by
  rw [evalOne, Exec.bind_of_ok h]
  rfl

end

section

variable {I : Interpretation W} {calls : Calls W} {fuel : Nat} {F : Functions} {V V' : Locals} {m m' : Machine W}
  {name : String} {s : Stmt} {rest : List Stmt} {e : Expr} {arguments : List Expr} {value : Nat} {reason : Stop}

theorem exec_expression : exec I calls fuel F V (.expression e) m =
    (do
      let _ ← Exec.counted 0 (eval I (calls F) V e)
      return (.normal, V) : Exec W (Mode × Locals)) m := by
  rw [exec]
  exact Exec.zip_bind [] _ _

/-- Assigning to variables that all exist sets them to the results, which must be as many. -/
theorem exec_assign_all {targets : List String} (htargets : ∀ x ∈ targets, (V x).isSome) :
    exec I calls fuel F V (.assign targets e) m =
      (do
        let results ← Exec.counted targets.length (eval I (calls F) V e)
        return (.normal, V.setAll (targets.zip results)) : Exec W (Mode × Locals)) m := by
  have hnames : (targets.map ({ name := · : Identifier })).map (·.name) = targets := by
    rw [List.map_map]
    exact List.map_id _
  have hall : (targets.map ({ name := · : Identifier })).all fun t => (V t.name).isSome := by
    rw [List.all_map, List.all_eq_true]
    exact htargets
  rw [Stmt.assign, exec, hnames]
  simp only [hall, if_true]
  exact Exec.zip_bind targets _ _

theorem exec_assign (he : eval I (calls F) V e m = (.ok [value], m')) (hname : (V name).isSome) :
    exec I calls fuel F V (.assign [name] e) m = (.ok (.normal, V.set name value), m') := by
  have hcounted : Exec.counted [name].length (eval I (calls F) V e) m = (.ok [value], m') := Exec.counted_of_ok he rfl
  rw [exec_assign_all (List.forall_mem_singleton.2 hname), Exec.bind_of_ok hcounted]
  rfl

theorem exec_let (he : eval I (calls F) V e m = (.ok [value], m')) :
    exec I calls fuel F V (.let name e) m = (.ok (.normal, V.set name value), m') := by
  rw [Stmt.let, exec, Exec.bind_of_ok he]
  rfl

theorem exec_perform (he : eval I (calls F) V (.apply name arguments) m = (.ok [], m')) :
    exec I calls fuel F V (.perform name arguments) m = (.ok (.normal, V), m') := by
  rw [Stmt.perform, exec, Exec.bind_of_ok he]
  rfl

theorem exec_perform_of_error (he : eval I (calls F) V (.apply name arguments) m = (.error reason, m')) :
    exec I calls fuel F V (.perform name arguments) m = (.error reason, m') := by
  rw [Stmt.perform, exec, Exec.bind_of_error he]

theorem execAll_cons (hs : exec I calls fuel F V s m = (.ok (.normal, V'), m')) :
    execAll I calls fuel F V (s :: rest) m = execAll I calls fuel F V' rest m' := by
  rw [execAll, Exec.bind_of_ok hs]

theorem execAll_cons_of_error (hs : exec I calls fuel F V s m = (.error reason, m')) :
    execAll I calls fuel F V (s :: rest) m = (.error reason, m') := by
  rw [execAll, Exec.bind_of_error hs]

/-- Statements go on behind others that all ended normally. The induction is on the statements in front. -/
theorem execAll_append {statements : List Stmt}
    (h : execAll I calls fuel F V statements m = (.ok (.normal, V'), m')) :
    execAll I calls fuel F V (statements ++ rest) m = execAll I calls fuel F V' rest m' := by
  induction statements generalizing V m with
  | nil =>
    cases h
    rfl
  | cons s statements ih =>
    rw [execAll, Exec.bind_apply] at h
    rw [List.cons_append, execAll, Exec.bind_apply]
    split at h
    next r hr =>
      obtain ⟨mode, V₁⟩ := r
      cases mode with
      | normal => exact ih h
      | _ => cases h
    next => cases h

theorem execBlock_of_ok {span : Span} {statements : List Stmt} {mode : Mode}
    (h : execAll I calls fuel (Stmt.definitions statements :: F) V statements m = (.ok (mode, V'), m')) :
    execBlock I calls fuel F V ⟨span, statements⟩ m = (.ok (mode, V'.restrict V), m') := by
  rw [execBlock, Exec.bind_of_ok h]
  rfl

theorem execBlock_of_error {span : Span} {statements : List Stmt}
    (h : execAll I calls fuel (Stmt.definitions statements :: F) V statements m = (.error reason, m')) :
    execBlock I calls fuel F V ⟨span, statements⟩ m = (.error reason, m') := by
  rw [execBlock, Exec.bind_of_error h]

theorem exec_switch {span : Span} {scrutinee : Expr} {cases : List Case}
    (he : eval I (calls F) V scrutinee m = (.ok [value], m')) :
    exec I calls fuel F V (.switch span scrutinee cases) m = execCases I calls fuel F V value cases m' := by
  rw [exec, Exec.bind_of_ok (evalOne_of_eval he)]

/-- Clauses for other values are passed over. -/
theorem execCases_append {before after : List Case}
    (h : ∀ c ∈ before, ∃ label, c.value = some label ∧ I.literal label ≠ value) :
    execCases I calls fuel F V value (before ++ after) = execCases I calls fuel F V value after := by
  induction before with
  | nil => rfl
  | cons c before ih =>
    rw [List.forall_mem_cons] at h
    obtain ⟨⟨label, hlabel, hne⟩, hrest⟩ := h
    obtain ⟨span, value', body⟩ := c
    cases hlabel
    rw [List.cons_append, execCases, if_neg hne, ih hrest]

/-- The record of a condition that gave a value without an effect. -/
def decision (condition : Expr) (value : Nat) (m : Machine W) : Machine W :=
  { m with decisions := ⟨condition, m.world, .ok value, m.world⟩ :: m.decisions }

theorem decide_of_eval {condition : Expr} (he : eval I (calls F) V condition m = (.ok [value], m)) :
    Exec.decide condition (evalOne I (calls F) V condition) m = (.ok value, decision condition value m) := by
  rw [Exec.decide, evalOne_of_eval he]
  rfl

theorem exec_conditional_of_zero {span : Span} {condition : Expr} {body : Block}
    (he : eval I (calls F) V condition m = (.ok [0], m)) :
    exec I calls fuel F V (.conditional span condition body) m = (.ok (.normal, V), decision condition 0 m) := by
  rw [exec, Exec.bind_of_ok (decide_of_eval he)]
  rfl

theorem exec_conditional_of_ne_zero {span span' : Span} {condition : Expr} {statements : List Stmt}
    (he : eval I (calls F) V condition m = (.ok [value], m)) (hvalue : value ≠ 0)
    (hbody : execAll I calls fuel (Stmt.definitions statements :: F) V statements (decision condition value m) =
      (.error reason, m')) :
    exec I calls fuel F V (.conditional span condition ⟨span', statements⟩) m = (.error reason, m') := by
  rw [exec, Exec.bind_of_ok (decide_of_eval he), if_neg hvalue, execBlock, Exec.bind_of_error hbody]

end

section

variable {I : Interpretation W} {fuel : Nat} {F F' : Functions} {V : Locals} {m m' : Machine W} {name : String}
  {d : Definition} {values : List Nat} {span : Span} {statements : List Stmt}

/-- A block that defines no functions changes nothing for calls out of it. -/
theorem callFunction_nil_cons (name : String) (values : List Nat) :
    callFunction I fuel ([] :: F) name values = callFunction I fuel F name values := by
  cases fuel with
  | zero => rfl
  | succ fuel => rw [callFunction, callFunction, Functions.find?_nil_cons]

/-- A call that fits the definition it finds runs the body on the arguments and gives the values of the return
variables. -/
theorem callFunction_of_ok (hfind : F.find? name = some (d, F')) (hlength : d.parameters.length = values.length)
    (hbody : d.body = ⟨span, statements⟩)
    (hrun : execAll I (callFunction I fuel) fuel (Stmt.definitions statements :: F') (d.locals values) statements m =
      (.ok (.normal, V), m')) :
    callFunction I (fuel + 1) F name values m =
      (.ok (d.returns.filterMap (V.restrict (d.locals values))), m') := by
  have hzip : Exec.zip d.parameters values m = (.ok (d.parameters.zip values), m) := by
    rw [Exec.zip, if_pos hlength]
    rfl
  have hblock : execBlock I (callFunction I fuel) fuel F' (d.locals values) d.body m =
      (.ok (.normal, V.restrict (d.locals values)), m') := by
    rw [hbody]
    exact execBlock_of_ok hrun
  rw [callFunction, hfind]
  refine (Exec.bind_of_ok hzip).trans ?_
  exact Exec.bind_of_ok hblock

/-- A call stops where the body of the function it finds stops. -/
theorem callFunction_of_error {reason : Stop} (hfind : F.find? name = some (d, F'))
    (hlength : d.parameters.length = values.length) (hbody : d.body = ⟨span, statements⟩)
    (hrun : execAll I (callFunction I fuel) fuel (Stmt.definitions statements :: F') (d.locals values) statements m =
      (.error reason, m')) :
    callFunction I (fuel + 1) F name values m = (.error reason, m') := by
  have hzip : Exec.zip d.parameters values m = (.ok (d.parameters.zip values), m) := by
    rw [Exec.zip, if_pos hlength]
    rfl
  have hblock : execBlock I (callFunction I fuel) fuel F' (d.locals values) d.body m = (.error reason, m') := by
    rw [hbody]
    exact execBlock_of_error hrun
  rw [callFunction, hfind]
  refine (Exec.bind_of_ok hzip).trans ?_
  exact Exec.bind_of_error hblock

end

end Execution

end YulBackend
