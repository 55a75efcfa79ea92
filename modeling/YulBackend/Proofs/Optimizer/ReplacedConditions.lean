import YulBackend.Proofs.Optimizer.Transcript
import YulBackend.Proofs.Syntax.Conditions

namespace YulBackend.ConstantConditions

variable {σ : Type} (encoder : Encoder σ)

mutual

/-- Nothing but conditions is replaced. -/
theorem eraseConditions_visitStmt : ∀ (s : Stmt) (state : State σ),
    (visitStmt encoder s state).1.eraseConditions = s.eraseConditions
  | .conditional span condition body, state => by
    rw [visitStmt_conditional_apply]
    exact congrArg (Stmt.conditional span (.number "0"))
      (eraseConditions_visitBlock body (enterConditional encoder condition state).2)
  | .function span name parameters returns body, state =>
    congrArg (Stmt.function span name parameters returns) (eraseConditions_visitBlock body state)
  | .switch span scrutinee cases, state =>
    congrArg (Stmt.switch span scrutinee) (eraseAllConditions_visitCases cases state)
  | .loop span pre condition post body, state => by
    have hpre := eraseConditions_visitBlock pre state
    have hbody := eraseConditions_visitBlock body (visitBlock encoder pre state).2
    have hpost := eraseConditions_visitBlock post
      (visitBlock encoder body (visitBlock encoder pre state).2).2
    rw [Stmt.eraseConditions, ← hpre, ← hbody, ← hpost]
    rfl
  | .block body, state => congrArg Stmt.block (eraseConditions_visitBlock body state)
  | .declaration .., _ | .expression _, _ | .assignment .., _ | .break _, _ | .continue _, _
  | .leave _, _ => rfl

theorem eraseConditions_visitBlock : ∀ (b : Block) (state : State σ),
    (visitBlock encoder b state).1.eraseConditions = b.eraseConditions
  | ⟨span, statements⟩, state => congrArg (Block.mk span) (eraseAllConditions_visitStmts statements state)

/-- Statements differ from what the walk makes of them in conditions only. -/
theorem eraseAllConditions_visitStmts : ∀ (statements : List Stmt) (state : State σ),
    Stmt.eraseAllConditions (visitStmts encoder statements state).1 = Stmt.eraseAllConditions statements
  | [], _ => rfl
  | s :: rest, state => by
    have hfirst := eraseConditions_visitStmt s state
    have hrest := eraseAllConditions_visitStmts rest (visitStmt encoder s state).2
    rw [Stmt.eraseAllConditions, ← hfirst, ← hrest]
    rfl

/-- Cases differ from what the walk makes of them in conditions only. -/
theorem eraseAllConditions_visitCases : ∀ (cases : List Case) (state : State σ),
    Case.eraseAllConditions (visitCases encoder cases state).1 = Case.eraseAllConditions cases
  | [], _ => rfl
  | ⟨span, value, body⟩ :: rest, state => by
    have hfirst := eraseConditions_visitBlock body state
    have hrest := eraseAllConditions_visitCases rest (visitBlock encoder body state).2
    rw [Case.eraseAllConditions, ← hfirst, ← hrest]
    rfl

end

namespace Answers

/-- Two answers for each `if`, one after the other. -/
def verdicts (answers : List Answers) : List Verdict := answers.flatMap fun a => [a.zero, a.nonZero]

/-- How many conditions are replaced by one, and how many by zero. -/
def allCounts (answers : List Answers) : Counts where
  toTrue := answers.countP fun a => a.zero = .unsatisfiable ∧ a.nonZero ≠ .unsatisfiable
  toFalse := answers.countP fun a => a.nonZero = .unsatisfiable

/-- The counts of some answers are those of the first added to those of the others. -/
theorem allCounts_cons (a : Answers) (rest : List Answers) :
    allCounts (a :: rest) = a.counts.add (allCounts rest) := by
  rw [allCounts, counts, allCounts, Counts.add]
  by_cases hnonZero : a.nonZero = .unsatisfiable
  · simp [hnonZero, Nat.add_comm]
  · by_cases hzero : a.zero = .unsatisfiable <;> simp [hnonZero, hzero, Nat.add_comm]

end Answers

/-- Between two states, the prover has given these answers for conditions, which makes others of them. -/
structure Answered (state state' : State (σ × List Prover.Event)) (conditions conditions' : List Expr)
    (answers : List Answers) : Prop where
  length_eq : answers.length = conditions.length
  conditions_eq : conditions' = List.zipWith Answers.replace answers conditions
  verdicts_eq : Prover.verdicts state'.encoding.log =
    Prover.verdicts state.encoding.log ++ Answers.verdicts answers
  counts_eq : state'.counts = state.counts.add (Answers.allCounts answers)

namespace Answered

variable {state state' state'' : State (σ × List Prover.Event)}
variable {conditions conditions' others others' : List Expr} {answers more : List Answers}

/-- A stretch of a walk that asks nothing and counts nothing is answered by nothing. -/
theorem nil (hverdicts : Prover.verdicts state'.encoding.log = Prover.verdicts state.encoding.log)
    (hcounts : state'.counts = state.counts) : Answered state state' [] [] [] where
  length_eq := rfl
  conditions_eq := rfl
  verdicts_eq := by rw [hverdicts, Answers.verdicts, List.flatMap_nil, List.append_nil]
  counts_eq := hcounts

/-- Two stretches of a walk are answered by the answers of both in turn. -/
theorem append (h : Answered state state' conditions conditions' answers)
    (h' : Answered state' state'' others others' more) :
    Answered state state'' (conditions ++ others) (conditions' ++ others') (answers ++ more) where
  length_eq := by rw [List.length_append, List.length_append, h.length_eq, h'.length_eq]
  conditions_eq := by rw [h.conditions_eq, h'.conditions_eq, List.zipWith_append h.length_eq]
  verdicts_eq := by
    rw [h'.verdicts_eq, h.verdicts_eq, List.append_assoc, Answers.verdicts, Answers.verdicts,
      Answers.verdicts, List.flatMap_append]
  counts_eq := by
    rw [h'.counts_eq, h.counts_eq]
    simp [Counts.add, Answers.allCounts, Nat.add_assoc]

/-- What is said to the prover afterwards is no question. -/
theorem step (h : Answered state state' conditions conditions' answers)
    (hverdicts : Prover.verdicts state''.encoding.log = Prover.verdicts state'.encoding.log)
    (hcounts : state''.counts = state'.counts) : Answered state state'' conditions conditions' answers where
  length_eq := h.length_eq
  conditions_eq := h.conditions_eq
  verdicts_eq := hverdicts.trans h.verdicts_eq
  counts_eq := hcounts.trans h.counts_eq

/-- The question at an `if`. -/
theorem of_enterConditional (encoder : Encoder σ) (condition : Expr)
    (state : State (σ × List Prover.Event)) :
    ∃ a, Answered state (enterConditional encoder.traced condition state).2 [condition]
      [(enterConditional encoder.traced condition state).1] [a] := by
  obtain ⟨names, a, hnames, hresult, hcounts, hlog⟩ := exists_enterConditional encoder condition state
  refine ⟨a, rfl, congrArg ([·]) hresult, ?_, ?_⟩
  · rw [hlog, Prover.verdicts_append, Prover.verdicts_append, Prover.verdicts_of_isNaming hnames,
      List.append_nil]
    rfl
  · rw [hcounts, Answers.allCounts_cons]
    rfl

end Answered

/-- A declaration asks nothing, so it has no answers. -/
theorem answered_visitDeclaration (declared : List Identifier) (value : Option Expr)
    (state : State (σ × List Prover.Event)) :
    Answered state (visitDeclaration encoder.traced declared value state).2 [] [] [] := by
  obtain ⟨name, v, rfl, rfl, htracked⟩ | huntracked := Encoder.defines_cases encoder.tracked declared value
  · obtain ⟨names, hnames, hlog⟩ := exists_log_visitDeclaration encoder htracked v state
    refine .nil ?_ ?_
    · rw [hlog, Prover.verdicts_append, Prover.verdicts_append, Prover.verdicts_of_isNaming hnames,
        List.append_nil]
      exact List.append_nil _
    · have htraced : encoder.traced.tracked name.name := htracked
      rw [visitDeclaration_of_tracked htraced]
  · rw [visitDeclaration_of_untracked encoder.traced huntracked]
    exact .nil rfl rfl

mutual

/-- The conditions of a statement are answered in visiting order, two answers each, and replaced as these say. -/
theorem answered_visitStmt : ∀ (s : Stmt) (state : State (σ × List Prover.Event)),
    ∃ answers, Answered state (visitStmt encoder.traced s state).2 s.conditions
      (visitStmt encoder.traced s state).1.conditions answers
  | .conditional span condition body, state => by
    obtain ⟨a, hentered⟩ := Answered.of_enterConditional encoder condition state
    obtain ⟨answers, hbody⟩ :=
      answered_visitBlock body (enterConditional encoder.traced condition state).2
    rw [visitStmt_conditional_apply]
    refine ⟨_, (hentered.append hbody).step ?_ rfl⟩
    dsimp only
    rw [log_pop, Prover.verdicts_append]
    exact List.append_nil _
  | .function _ _ _ _ body, state | .block body, state => answered_visitBlock body state
  | .switch _ _ cases, state => answered_visitCases cases state
  | .loop _ pre condition post body, state => by
    obtain ⟨_, hpre⟩ := answered_visitBlock pre state
    obtain ⟨_, hbody⟩ := answered_visitBlock body (visitBlock encoder.traced pre state).2
    obtain ⟨_, hpost⟩ := answered_visitBlock post
      (visitBlock encoder.traced body (visitBlock encoder.traced pre state).2).2
    exact ⟨_, hpre.append (hbody.append hpost)⟩
  | .declaration _ declared value, state => ⟨[], answered_visitDeclaration encoder declared value state⟩
  | .expression _, _ | .assignment .., _ | .break _, _ | .continue _, _ | .leave _, _ => ⟨_, .nil rfl rfl⟩

theorem answered_visitBlock : ∀ (b : Block) (state : State (σ × List Prover.Event)),
    ∃ answers, Answered state (visitBlock encoder.traced b state).2 b.conditions
      (visitBlock encoder.traced b state).1.conditions answers
  | ⟨_, statements⟩, state => answered_visitStmts statements state

/-- The conditions of statements are answered one statement after the other. -/
theorem answered_visitStmts : ∀ (statements : List Stmt) (state : State (σ × List Prover.Event)),
    ∃ answers, Answered state (visitStmts encoder.traced statements state).2
      (Stmt.allConditions statements) (Stmt.allConditions (visitStmts encoder.traced statements state).1)
      answers
  | [], _ => ⟨_, .nil rfl rfl⟩
  | s :: rest, state => by
    obtain ⟨_, hfirst⟩ := answered_visitStmt s state
    obtain ⟨_, hrest⟩ := answered_visitStmts rest (visitStmt encoder.traced s state).2
    exact ⟨_, hfirst.append hrest⟩

/-- The conditions of cases are answered one case after the other. -/
theorem answered_visitCases : ∀ (cases : List Case) (state : State (σ × List Prover.Event)),
    ∃ answers, Answered state (visitCases encoder.traced cases state).2
      (Case.allConditions cases) (Case.allConditions (visitCases encoder.traced cases state).1) answers
  | [], _ => ⟨_, .nil rfl rfl⟩
  | ⟨_, _, body⟩ :: rest, state => by
    obtain ⟨_, hfirst⟩ := answered_visitBlock body state
    obtain ⟨_, hrest⟩ := answered_visitCases rest (visitBlock encoder.traced body state).2
    exact ⟨_, hfirst.append hrest⟩

end

/-- Whatever the prover answers, `runWith` changes nothing in a block but conditions of `if` statements. The prover
gives two answers for each `if`, in the order in which the walk comes by them: if the second one is no the condition is
zero in the result, and else, if the first one is no, it is one. -/
theorem conditions_runWith (prover : Prover σ) (dialect : Dialect) (block : Block) (session : σ) :
    let traced := runWith prover.traced dialect block (session, [])
    runWith prover dialect block session = (traced.1, traced.2.1) ∧
      traced.1.1.eraseConditions = block.eraseConditions ∧
      ∃ answers : List Answers, answers.length = block.conditions.length ∧
        Prover.verdicts traced.2.2.reverse = Answers.verdicts answers ∧
        traced.1.1.conditions = List.zipWith Answers.replace answers block.conditions ∧
        traced.1.2 = Answers.allCounts answers := by
  let encoder : Encoder σ := { dialect, tracked := block.singleAssignmentValues.contains, prover }
  refine ⟨runWith_traced prover dialect block session [], ?_, ?_⟩
  · exact eraseConditions_visitBlock encoder.traced block _
  · obtain ⟨answers, h⟩ := answered_visitBlock encoder block { encoding := { session := (session, []) } }
    refine ⟨answers, h.length_eq, h.verdicts_eq, h.conditions_eq, h.counts_eq.trans ?_⟩
    simp [Counts.add]

end YulBackend.ConstantConditions
