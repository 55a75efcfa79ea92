import YulBackend.Proofs.Codegen.ClosedCode
import YulBackend.Proofs.Codegen.Program
import YulBackend.Proofs.Codegen.TargetInstructions

namespace YulBackend

/-- The first argument of a call is the identity of the function to call, all others are for this function. -/
structure Definition.Dispatches (arity : Arity) (functions : FunctionSet) (d : Definition) : Prop where
  name : d.name = arity.dispatcherName
  parameters : d.parameters.length = arity.inputs + 1
  returns : d.returns.length = arity.outputs
  distinct : (d.parameters ++ d.returns).Nodup
  switch : ∃ scrutinee cases, d.body.statements = [.switch {} scrutinee cases] ∧
    (cases.filterMap (·.value)).map Literal.word = (functions.values.map (·.id)).map .ok
  increasing : (functions.values.map (·.id)).Pairwise (· < ·)
  names : (functions.values.map Function.codeName).Nodup
  /-- What is called through the dispatcher gets its arguments, and its results are handed back. -/
  known : ∀ {W : Type} {I : Interpretation W} {version : EvmVersion} {F F' : Functions}, I.dialect = .evm version →
    F.find? d.name = some (d, F') → ∀ f ∈ functions.values, ∀ arguments : List Nat, arguments.length = arity.inputs →
      ∀ fuel m, Execution.callFunction I (fuel + 1) F d.name (f.id :: arguments) m =
        Exec.counted arity.outputs (Execution.callFunction I fuel F' f.codeName arguments) m
  /-- Nothing is called, however much fuel is left. -/
  unknown : ∀ {W : Type} {I : Interpretation W} {version : EvmVersion} {F F' : Functions}, I.dialect = .evm version →
    F.find? d.name = some (d, F') → ∀ selector, (∀ f ∈ functions.values, f.id ≠ selector) →
      ∀ arguments : List Nat, arguments.length = arity.inputs →
        ∀ fuel m, Execution.callFunction I (fuel + 1) F d.name (selector :: arguments) m =
          (do
            let _ ← Exec.counted 0 (I.perform "invalid" [])
            return List.replicate arity.outputs 0 : Exec W (List Nat)) m

namespace Dispatcher

open Execution

/-- No builtin has the name of a function's code, so the dispatcher calls the function. -/
theorem builtin?_codeName (version : EvmVersion) (f : Function) :
    (Dialect.evm version).builtin? f.codeName = none := by
  have hobject : ∀ b ∈ Builtin.objectAccess, ¬ "fun_".toList <+: b.name.toList := by decide
  rw [Dialect.builtin?, List.find?_eq_none]
  intro b hb heq
  have hname : b.name = f.codeName := eq_of_beq heq
  obtain hb | hb := List.mem_append.1 hb
  · obtain ⟨i, -, rfl⟩ := List.mem_map.1 hb
    exact CodeRequest.codeName_ne_instruction f i hname.symm
  · refine hobject b hb ?_
    rw [hname, Function.codeName, String.append_assoc, String.append_assoc, String.toList_append]
    exact List.prefix_append _ _

section

variable {arity : Arity} {functions : FunctionSet}

/-- The parameters of a dispatcher are none of its return variables. -/
theorem disjoint_inputs_outputs (arity : Arity) : ∀ x ∈ "fun" :: inputs arity, x ∉ outputs arity := by
  rw [List.forall_mem_cons]
  refine ⟨not_mem_numberedNames (by decide), fun x hx hx' => ?_⟩
  obtain ⟨i, rfl⟩ := exists_of_mem_numberedNames hx
  obtain ⟨j, hj⟩ := exists_of_mem_numberedNames hx'
  exact append_ne_append (by decide) _ _ hj

theorem nodup_outputs (arity : Arity) : (outputs arity).Nodup := nodup_numberedNames _ _

theorem length_outputs (arity : Arity) : (outputs arity).length = arity.outputs := length_numberedNames _ _

theorem nodup_parameters (arity : Arity) : ("fun" :: inputs arity).Nodup :=
  List.nodup_cons.2 ⟨not_mem_numberedNames (by decide), nodup_numberedNames _ _⟩

section

variable {P : Function → Prop} (h : functions.Of P)

include h

/-- The identities of a set that is keyed by them come in increasing order. -/
theorem increasing_ids : (functions.values.map (·.id)).Pairwise (· < ·) := by
  have hkeys : functions.values.map (·.id) = functions.keys := by
    rw [SortedMap.values, SortedMap.keys, List.map_map]
    exact List.map_congr_left fun e he => (h _ _ (functions.mem_entries_iff.1 he)).1
  rw [hkeys, SortedMap.keys, List.pairwise_map]
  exact functions.sorted.imp compareOfLessAndEq_eq_lt.1

theorem holds_of_mem {f : Function} (hf : f ∈ functions.values) : P f := by
  obtain ⟨i, hi⟩ := functions.mem_values_iff.1 hf
  exact (h i f hi).2

/-- The functions of a dispatcher have code under different names, as their numbers differ. -/
theorem nodup_codeNames : (functions.values.map Function.codeName).Nodup := by
  rw [List.nodup_iff_pairwise_ne, List.pairwise_map]
  exact (List.pairwise_map.1 (increasing_ids h)).imp fun hlt heq =>
    Nat.ne_of_lt hlt (Function.id_eq_of_codeName_eq heq)

end

end

section

variable {W : Type} {I : Interpretation W} {version : EvmVersion} {arity : Arity} {functions : FunctionSet}
  {F F' : Functions} {V : Locals} {f : Function} {selector fuel : Nat} {arguments results : List Nat}
  {m m' : Machine W} {reason : Stop}

theorem definitions_forward (arity : Arity) (f : Function) : Stmt.definitions [forward arity f] = [] := by
  rw [forward]
  split <;> rfl

section

variable (hdialect : I.dialect = .evm version) (hinputs : V.Holds (inputs arity) arguments)

include hdialect hinputs

theorem eval_forwarded : eval I (callFunction I fuel F) V (.apply f.codeName ((inputs arity).map .var)) =
    callFunction I fuel F f.codeName arguments :=
  funext fun _ => eval_call (evalAll_vars hinputs) (hdialect ▸ builtin?_codeName version f)

/-- A case calls the function's code with the dispatcher's inputs and returns what it returns, as many values as
asked. -/
theorem exec_forward (houtputs : ∀ x ∈ outputs arity, (V x).isSome) (f : Function) (fuel : Nat) (F : Functions)
    (m : Machine W) :
    exec I (callFunction I fuel) fuel F V (forward arity f) m =
      (do
        let results ← Exec.counted arity.outputs (callFunction I fuel F f.codeName arguments)
        return (.normal, V.setAll ((outputs arity).zip results)) : Exec W (Mode × Locals)) m := by
  rw [forward]
  split
  next hnone =>
    have hnames : outputs arity = [] := by
      rw [outputs, hnone]
      rfl
    rw [exec_expression, eval_forwarded hdialect hinputs, hnone, hnames]
    rfl
  next =>
    rw [exec_assign_all houtputs, eval_forwarded hdialect hinputs, outputs, length_numberedNames]

end

theorem word_id (h : f.id < 2 ^ 64) : (Literal.number (toString f.id)).word = .ok f.id :=
  Literal.word_decimal (Nat.lt_of_lt_of_le h (Nat.pow_le_pow_right Nat.two_pos (by decide)))

theorem literal_id (h : f.id < 2 ^ 64) : I.literal (.number (toString f.id)) = f.id := by
  rw [Interpretation.literal, word_id h]

/-- The values of clauses are identities. -/
theorem map_word_clauses {fs : List Function} (h : ∀ f ∈ fs, f.id < 2 ^ 64) :
    ((fs.map (case arity) ++ [unknownCase]).filterMap (·.value)).map Literal.word = (fs.map (·.id)).map .ok := by
  induction fs with
  | nil => rfl
  | cons f fs ih =>
    rw [List.forall_mem_cons] at h
    have hvalue : (case arity f).value = some (Literal.number (toString f.id)) := rfl
    rw [List.map_cons, List.cons_append, List.filterMap_cons_some hvalue, List.map_cons, ih h.2, word_id h.1]
    rfl

/-- Clauses for functions with other identities are passed over. -/
theorem execCases_of_ne {calls : Calls W} {fs : List Function} {rest : List Case}
    (hids : ∀ g ∈ fs, g.id < 2 ^ 64) (hne : ∀ g ∈ fs, g.id ≠ selector) :
    execCases I calls fuel F V selector (fs.map (case arity) ++ rest) m =
      execCases I calls fuel F V selector rest m := by
  refine congrFun (execCases_append ?_) m
  rw [List.forall_mem_map]
  intro g hg
  refine ⟨_, rfl, ?_⟩
  rw [literal_id (hids g hg)]
  exact hne g hg

section

variable {calls : Calls W} (hfunctions : functions.Of (·.id < 2 ^ 64))

include hfunctions

/-- A selector that is the number of a function chooses its case. -/
theorem execCases_known (hf : f ∈ functions.values) :
    execCases I calls fuel F V f.id (functions.values.map (case arity) ++ [unknownCase]) m =
      execBlock I calls fuel F V (.ofList [forward arity f]) m := by
  have hids : ∀ g ∈ functions.values, g.id < 2 ^ 64 := fun g hg => holds_of_mem hfunctions hg
  have hsorted := List.pairwise_map.1 (increasing_ids hfunctions)
  obtain ⟨before, after, hsplit⟩ := List.append_of_mem hf
  rw [hsplit] at hids hsorted
  rw [List.forall_mem_append] at hids
  have hne : ∀ g ∈ before, g.id ≠ f.id := fun g hg =>
    Nat.ne_of_lt ((List.pairwise_append.1 hsorted).2.2 g hg f List.mem_cons_self)
  rw [hsplit, List.map_append, List.append_assoc, execCases_of_ne hids.1 hne, List.map_cons, List.cons_append, case,
    execCases, if_pos (literal_id (hids.2 f List.mem_cons_self))]

theorem execCases_unknown (h : ∀ f ∈ functions.values, f.id ≠ selector) :
    execCases I calls fuel F V selector (functions.values.map (case arity) ++ [unknownCase]) m =
      execBlock I calls fuel F V (.ofList [.perform "invalid" []]) m := by
  rw [execCases_of_ne (fun g hg => holds_of_mem hfunctions hg) h]
  rfl

end

/-- The clauses of a dispatcher. -/
def clauses (arity : Arity) (functions : FunctionSet) : List Case :=
  functions.values.map (case arity) ++ [unknownCase]

/-- The variables of a dispatcher when it is called. -/
def entry (arity : Arity) (functions : FunctionSet) (values : List Nat) : Locals :=
  (dispatcherDefinition arity functions).locals values

section

theorem holds_inputs (functions : FunctionSet) (selector : Nat) (hlength : arguments.length = arity.inputs) :
    (entry arity functions (selector :: arguments)).Holds ("fun" :: inputs arity) (selector :: arguments) := by
  refine Definition.holds_locals (nodup_parameters arity) (disjoint_inputs_outputs arity) ?_
  rw [List.length_cons, hlength]
  exact congrArg Nat.succ (length_numberedNames _ _)

theorem isSome_entry (functions : FunctionSet) (values : List Nat) :
    ∀ x ∈ outputs arity, (entry arity functions values x).isSome :=
  fun _ hx => Definition.isSome_locals_of_mem_returns hx

/-- A dispatcher's return variables start with zero. -/
theorem holds_outputs (functions : FunctionSet) (values : List Nat) :
    (entry arity functions values).Holds (outputs arity) (List.replicate arity.outputs 0) := by
  have hlength := length_outputs arity
  have hzip : ((outputs arity).map fun x => (x, 0)) = (outputs arity).zip (List.replicate arity.outputs 0) := by
    rw [List.map_prod_left_eq_zip, List.map_const', hlength]
  change (Locals.setAll _ ((outputs arity).map fun x => (x, 0))).Holds _ _
  rw [hzip]
  exact Locals.holds_setAll_zip (nodup_outputs arity) (by rw [hlength, List.length_replicate])

variable (hfind : F.find? arity.dispatcherName = some (dispatcherDefinition arity functions, F'))
  (hlength : arguments.length = arity.inputs)

include hfind hlength

/-- A call runs the statement of one clause, and hands the variables for results back. -/
theorem callFunction_of_clause {s : Stmt} {x : Exec W (List Nat)} {next : List Nat → Locals}
    (hclause : ∀ m, execCases I (callFunction I fuel) fuel ([] :: F') (entry arity functions (selector :: arguments))
      selector (clauses arity functions) m =
        execBlock I (callFunction I fuel) fuel ([] :: F') (entry arity functions (selector :: arguments))
          (.ofList [s]) m)
    (hdefinitions : Stmt.definitions [s] = [])
    (hs : exec I (callFunction I fuel) fuel ([] :: [] :: F') (entry arity functions (selector :: arguments)) s m =
        (do
          let results ← x
          return (.normal, next results) : Exec W (Mode × Locals)) m) :
    callFunction I (fuel + 1) F arity.dispatcherName (selector :: arguments) m =
      (do
        let results ← x
        return (outputs arity).filterMap (next results) : Exec W (List Nat)) m := by
  have hselector : entry arity functions (selector :: arguments) "fun" = some selector :=
    (List.forall₂_cons.1 (holds_inputs functions selector hlength)).1
  have hparameters : (dispatcherDefinition arity functions).parameters.length = (selector :: arguments).length := by
    rw [List.length_cons, hlength]
    exact congrArg Nat.succ (length_numberedNames _ _)
  have hswitch : exec I (callFunction I fuel) fuel ([] :: F') (entry arity functions (selector :: arguments))
      (.switch {} (.var "fun") (clauses arity functions)) m =
        execBlock I (callFunction I fuel) fuel ([] :: F') (entry arity functions (selector :: arguments))
          (.ofList [s]) m := by
    rw [exec_switch (eval_var hselector), hclause]
  cases hx : x m with
  | mk outcome m' =>
    cases outcome with
    | error reason =>
      rw [Exec.bind_of_error hx] at hs ⊢
      refine callFunction_of_error hfind hparameters rfl (execAll_cons_of_error (hswitch.trans ?_))
      refine execBlock_of_error ?_
      rw [hdefinitions]
      exact execAll_cons_of_error hs
    | ok results =>
      rw [Exec.bind_of_ok hx] at hs ⊢
      have hblock : execBlock I (callFunction I fuel) fuel ([] :: F') (entry arity functions (selector :: arguments))
          (.ofList [s]) m =
            (.ok (.normal, (next results).restrict (entry arity functions (selector :: arguments))), m') := by
        refine execBlock_of_ok ?_
        rw [hdefinitions]
        exact execAll_cons hs
      -- The block of the case and the body drop their own variables, and the outputs are none of these.
      have houtputs : (outputs arity).filterMap
          (((next results).restrict (entry arity functions (selector :: arguments))).restrict
            (entry arity functions (selector :: arguments))) = (outputs arity).filterMap (next results) := by
        refine List.filterMap_congr fun x hx => ?_
        have hsome := isSome_entry functions (selector :: arguments) x hx
        rw [Locals.restrict_of_isSome hsome, Locals.restrict_of_isSome hsome]
      refine (callFunction_of_ok hfind hparameters rfl (execAll_cons (hswitch.trans hblock))).trans ?_
      exact congrArg (fun results => (Except.ok results, m')) houtputs

variable (hdialect : I.dialect = .evm version) (hfunctions : functions.Of (·.id < 2 ^ 64))

include hdialect hfunctions

/-- A call with a function's number does what a call of that function with the other arguments does. -/
theorem callFunction_known (hf : f ∈ functions.values) (fuel : Nat) (m : Machine W) :
    callFunction I (fuel + 1) F arity.dispatcherName (f.id :: arguments) m =
      Exec.counted arity.outputs (callFunction I fuel F' f.codeName arguments) m := by
  have hinputs := (List.forall₂_cons.1 (holds_inputs functions f.id hlength)).2
  have hforward := exec_forward hdialect hinputs (isSome_entry functions _) f fuel ([] :: [] :: F') m
  have hclause := callFunction_of_clause hfind hlength (fun m => execCases_known hfunctions hf)
    (definitions_forward arity f) hforward
  rw [callFunction_nil_cons, callFunction_nil_cons] at hclause
  rw [hclause]
  cases hcounted : Exec.counted arity.outputs (callFunction I fuel F' f.codeName arguments) m with
  | mk outcome m' =>
    cases outcome with
    | error reason => rw [Exec.bind_of_error hcounted]
    | ok results =>
      have hresults : (outputs arity).length = results.length :=
        (length_outputs arity).trans (Exec.length_eq_of_counted hcounted).symm
      rw [Exec.bind_of_ok hcounted, (Locals.holds_setAll_zip (nodup_outputs arity) hresults).filterMap]
      rfl

/-- A call with any other selector performs `invalid`. -/
theorem callFunction_unknown (hselector : ∀ f ∈ functions.values, f.id ≠ selector) (fuel : Nat) (m : Machine W) :
    callFunction I (fuel + 1) F arity.dispatcherName (selector :: arguments) m =
      (do
        let _ ← Exec.counted 0 (I.perform "invalid" [])
        return List.replicate arity.outputs 0 : Exec W (List Nat)) m := by
  have hbuiltin : (Dialect.evm version).builtin? "invalid" = some (.ofInstruction .invalid) :=
    Dialect.builtin?_name (i := .invalid) (Nat.zero_le _)
  have heval : eval I (callFunction I fuel ([] :: [] :: F')) (entry arity functions (selector :: arguments))
      (.apply "invalid" []) = I.perform "invalid" [] :=
    funext fun m => eval_builtin evalAll_nil (by rw [hdialect, hbuiltin, Option.isSome_some])
  have hinvalid : exec I (callFunction I fuel) fuel ([] :: [] :: F') (entry arity functions (selector :: arguments))
      (.perform "invalid" []) m =
        (do
          let _ ← Exec.counted 0 (I.perform "invalid" [])
          return (.normal, entry arity functions (selector :: arguments)) : Exec W (Mode × Locals)) m := by
    rw [Stmt.perform, exec_expression, heval]
  rw [callFunction_of_clause hfind hlength (fun m => execCases_unknown hfunctions hselector) rfl hinvalid,
    (holds_outputs functions _).filterMap]

end

end

section

variable {arity : Arity} {functions : FunctionSet} {f : Function}

/-- The name of a function's code is a name, if the function's own name is made of name characters. -/
theorem isName_codeName (h : f.name.toList.all Word.isNameChar) : Word.isName f.codeName.toList := by
  rw [Function.codeName, String.append_assoc, String.append_assoc]
  exact Word.isName_append (by decide) (by decide)
    (Word.all_isNameChar_append h (Word.all_isNameChar_append (by decide) (Word.all_isNameChar_digits _)))

theorem isName_dispatcherName (arity : Arity) : Word.isName arity.dispatcherName.toList := by
  refine Word.isName_append (by decide) (by decide) ?_
  rw [Arity.text, String.append_assoc, String.append_assoc]
  exact Word.all_isNameChar_append (by decide) (Word.all_isNameChar_append (Word.all_isNameChar_digits _)
    (Word.all_isNameChar_append (by decide) (Word.all_isNameChar_digits _)))

/-- The variables of a dispatcher have names. -/
theorem isName_of_mem_variables {x : String} (hx : x ∈ ("fun" :: inputs arity) ++ outputs arity) :
    Word.isName x.toList := by
  obtain hx | hx := List.mem_append.1 hx
  · obtain rfl | hx := List.mem_cons.1 hx
    · decide
    · obtain ⟨i, rfl⟩ := exists_of_mem_numberedNames hx
      exact Word.isName_append (by decide) (by decide) (Word.all_isNameChar_digits i)
  · obtain ⟨i, rfl⟩ := exists_of_mem_numberedNames hx
    exact Word.isName_append (by decide) (by decide) (Word.all_isNameChar_digits i)

/-- Variables with names are well-formed expressions. -/
theorem allWellFormed_vars {names : List String} (h : ∀ x ∈ names, Word.isName x.toList) :
    Expr.allWellFormed (names.map .var) := by
  induction names with
  | nil => rfl
  | cons x names ih =>
    rw [List.forall_mem_cons] at h
    exact Bool.and_eq_true_iff.2 ⟨h.1, ih h.2⟩

/-- A case's forwarding statement is well formed. -/
theorem isWellFormed_forward (h : f.name.toList.all Word.isNameChar) : (forward arity f).isWellFormed := by
  have hinputs : Expr.allWellFormed ((inputs arity).map .var) := allWellFormed_vars fun x hx =>
    isName_of_mem_variables (List.mem_append_left _ (List.mem_cons_of_mem _ hx))
  have hcall : (Expr.apply f.codeName ((inputs arity).map .var)).isWellFormed :=
    Bool.and_eq_true_iff.2 ⟨isName_codeName h, hinputs⟩
  rw [forward]
  split
  next => exact Stmt.isWellFormed_perform hcall
  next hsome =>
    have hne : outputs arity ≠ [] := fun hnil => hsome ((length_outputs arity).symm.trans (congrArg List.length hnil))
    have htargets : ((outputs arity).map ({ name := · : Identifier })).all (·.isWellFormed) := by
      rw [List.all_map, List.all_eq_true]
      exact fun x hx => isName_of_mem_variables (List.mem_append_right _ hx)
    simp only [Stmt.assign, Stmt.isWellFormed, hcall, htargets]
    simpa using hne

/-- The cases of a dispatcher are well formed, the default case last. -/
theorem allWellFormed_clauses {fs : List Function} (h : ∀ f ∈ fs, f.name.toList.all Word.isNameChar) :
    Case.allWellFormed (fs.map (case arity) ++ [unknownCase]) := by
  induction fs with
  | nil =>
    have hunknown : Case.allWellFormed [unknownCase] := by decide
    exact hunknown
  | cons f fs ih =>
    rw [List.forall_mem_cons] at h
    have hbody : Stmt.allWellFormed [forward arity f] := Stmt.allWellFormed_cons (isWellFormed_forward h.1) rfl
    have hlabel : (Literal.number (toString f.id)).isWellFormed := Word.isNumber_toString f.id
    rw [List.map_cons, List.cons_append, case, Case.allWellFormed, ih h.2, Option.all_some, hlabel]
    simpa [Block.ofList, Block.isWellFormed] using hbody

/-- A dispatcher has a text if the names of functions are made of characters that names may have. -/
theorem isWellFormed_dispatcher (h : ∀ f ∈ functions.values, f.name.toList.all Word.isNameChar) :
    (dispatcherDefinition arity functions).function.isWellFormed := by
  refine Definition.isWellFormed_function (isName_dispatcherName arity)
    (List.all_eq_true.2 fun x hx => isName_of_mem_variables hx) (Stmt.allWellFormed_cons ?_ rfl)
  rw [Stmt.isWellFormed, allWellFormed_clauses h]
  simp
  decide

/-- The text of a dispatcher in braces is read as the dispatcher. -/
theorem parse_dispatcher (h : ∀ f ∈ functions.values, f.name.toList.all Word.isNameChar) :
    ∃ program, parse ("\x7b" ++ (dispatcherDefinition arity functions).code ++ "\x7d") = .ok program ∧
      program.eraseSpans = (Block.ofList [(dispatcherDefinition arity functions).function]).eraseSpans := by
  have hwithin : (dispatcherDefinition arity functions).IsWithin fun _ => True := isWithin trivial fun _ _ => trivial
  have hparse := parse_functions (List.forall_mem_singleton.2 (isWellFormed_dispatcher h))
    (List.forall_mem_singleton.2 hwithin.hasBareInitialiser)
  rwa [List.map_singleton, List.map_singleton, String.intercalate_singleton] at hparse

/-- A dispatcher can reach its functions when none has another arity, is a constructor or has the number of
uninitialised pointers. -/
theorem canReach_iff_forall : canReach arity functions ↔
    ∀ f ∈ functions.values, ¬ (f.arity ≠ arity ∨ f.isConstructor ∨ f.id = uninitializedFunction) := by
  rw [canReach, List.all_eq_true]
  refine forall₂_congr fun f _ => ?_
  rw [check]
  by_cases harity : f.arity ≠ arity
  · simp [harity, Except.toBool]
  · by_cases hkind : f.isConstructor
    · simp [harity, hkind, Except.toBool]
    · by_cases hid : f.id = uninitializedFunction <;> simp [harity, hkind, hid, Except.toBool]

/-- The definition of a dispatcher dispatches: to the function of the selector if there is one, and to `invalid`
otherwise. -/
theorem dispatches (hfunctions : functions.Of (·.id < 2 ^ 64)) :
    (dispatcherDefinition arity functions).Dispatches arity functions where
  name := rfl
  parameters := congrArg Nat.succ (length_numberedNames _ _)
  returns := length_outputs arity
  distinct := List.nodup_append'.2 ⟨nodup_parameters arity, nodup_outputs arity, disjoint_inputs_outputs arity⟩
  switch := ⟨_, _, rfl, map_word_clauses fun _ hf => holds_of_mem hfunctions hf⟩
  increasing := increasing_ids hfunctions
  names := nodup_codeNames hfunctions
  known hdialect hfind _ hf _ hlength := callFunction_known hfind hlength hdialect hfunctions hf
  unknown hdialect hfind _ hselector _ hlength := callFunction_unknown hfind hlength hdialect hfunctions hselector

/-- Identities have 64 bits. `Dispatcher.definition` refuses just if it cannot reach one of its functions. Every other
dispatcher does what a call of the function does of which it gets the identity, and knows no other numbers, among them
the one that stands for no function; and `parse` reads its text as the dispatcher. -/
theorem definition_dispatches (arity : Arity) (hfunctions : functions.Of (·.id < 2 ^ 64)) :
    ((∃ fault, definition arity functions = .error fault) ↔
      ∃ f ∈ functions.values, f.arity ≠ arity ∨ f.isConstructor ∨ f.id = uninitializedFunction) ∧
    ∀ s, definition arity functions = .ok s →
      (∃ d : Definition, s = d.function ∧ d.Dispatches arity functions) ∧
      (∀ f ∈ functions.values, f.id ≠ uninitializedFunction) ∧
      ((∀ f ∈ functions.values, f.name.toList.all Word.isNameChar) →
        ∃ program, parse ("\x7b" ++ s.code ++ "\x7d") = .ok program ∧
          program.eraseSpans = (Block.ofList [s]).eraseSpans) := by
  by_cases hreach : canReach arity functions
  · have hdefinition := definition_of_canReach hreach
    have hall := canReach_iff_forall.1 hreach
    refine ⟨iff_of_false (fun ⟨fault, hfault⟩ => ?_) (fun ⟨f, hf, hfault⟩ => hall f hf hfault), fun s hs => ?_⟩
    · cases hdefinition.symm.trans hfault
    · cases hdefinition.symm.trans hs
      exact ⟨⟨_, rfl, dispatches hfunctions⟩, fun f hf hid => hall f hf (.inr (.inr hid)), parse_dispatcher⟩
  · obtain ⟨fault, hfault⟩ := definition_of_not_canReach hreach
    refine ⟨iff_of_true ⟨fault, hfault⟩ ?_, fun s hs => nomatch hfault.symm.trans hs⟩
    by_contra hnone
    exact hreach (canReach_iff_forall.2 fun f hf hfault => hnone ⟨f, hf, hfault⟩)

/-- Two functions that take a word and give one. -/
theorem definition_dispatches_two :
    let functions := FunctionSet.ofList [{ id := 12, name := "double", parameters := [.bool], returns := [.bool] },
      { id := 7, name := "halve", parameters := [.bool], returns := [.bool] }]
    functions.Of (·.id < 2 ^ 64) ∧ ∃ d : Definition, definition ⟨1, 1⟩ functions = .ok d.function ∧
      d.Dispatches ⟨1, 1⟩ functions := by
  intro functions
  have hfunctions : functions.Of (·.id < 2 ^ 64) := by
    intro i f h
    have hmem : (i, f) ∈ functions.entries := functions.mem_entries_iff.2 h
    obtain heq | hmem := List.mem_cons.1 hmem
    · cases heq
      exact ⟨rfl, by decide⟩
    · cases List.mem_singleton.1 hmem
      exact ⟨rfl, by decide⟩
  have hreach : canReach ⟨1, 1⟩ functions := by decide
  obtain ⟨d, hd, hdispatches⟩ :=
    ((definition_dispatches ⟨1, 1⟩ hfunctions).2 _ (definition_of_canReach hreach)).1
  exact ⟨hfunctions, d, (definition_of_canReach hreach).trans (congrArg Except.ok hd), hdispatches⟩

end

end Dispatcher

end YulBackend
