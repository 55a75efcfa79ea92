import YulBackend.Proofs.Logic.Transcript
import YulBackend.Proofs.Optimizer.Resolution

namespace YulBackend

variable {σ : Type}

/-- The encoder with the log of its prover's calls. -/
def Encoder.traced (encoder : Encoder σ) : Encoder (σ × List Prover.Event) where
  dialect := encoder.dialect
  tracked := encoder.tracked
  prover := encoder.prover.traced

namespace Encoding

def untraced (c : Encoding (σ × List Prover.Event)) : Encoding σ where
  bindings := c.bindings
  fresh := c.fresh
  session := c.session.1

/-- The calls so far, in the order in which they were made. -/
def log (c : Encoding (σ × List Prover.Event)) : List Prover.Event := c.session.2.reverse

end Encoding

namespace Encoder

variable (encoder : Encoder σ)

/-- Asking a prover that keeps a log gives the answer it gives without. -/
theorem follows_ask {α : Type} {x : StateM (σ × List Prover.Event) α} {y : StateM σ α}
    (h : Follows Prod.fst x y) : Follows Encoding.untraced (ask x) (ask y) := by
  intro c
  change ((y c.session.1).1, (⟨c.bindings, c.fresh, (y c.session.1).2⟩ : Encoding σ)) = _
  rw [h c.session]
  rfl

theorem follows_freshVariable :
    Follows Encoding.untraced encoder.traced.freshVariable encoder.freshVariable := fun _ => rfl

theorem follows_bind (name : String) :
    Follows Encoding.untraced (encoder.traced.bind name) (encoder.bind name) := fun _ => rfl

mutual

/-- Encoding an expression does the same with a log. -/
theorem follows_encode : ∀ e : Expr,
    Follows Encoding.untraced (encoder.traced.encode e) (encoder.encode e)
  | .call _ callee arguments => by
    rw [encode, encode]
    change Follows _ (match encoder.dialect.instruction? callee.name with | none => _ | some instruction => _) _
    cases encoder.dialect.instruction? callee.name with
    | none => exact encoder.follows_freshVariable
    | some instruction =>
      refine (follows_encodeAll arguments).bind fun formulas => ?_
      cases model? instruction formulas with
      | none => exact encoder.follows_freshVariable
      | some formula => exact .pure _ formula
  | .identifier name => by
    intro c
    have hresolve : encoder.traced.resolve? c name.name = encoder.resolve? c.untraced name.name := rfl
    rw [encode_identifier, encode_identifier, hresolve]
    cases encoder.resolve? c.untraced name.name with
    | none => exact encoder.follows_freshVariable c
    | some bound => rfl
  | .literal value => by
    rw [encode, encode]
    cases value.word with
    | ok word => exact .pure _ _
    | error fault => exact encoder.follows_freshVariable

/-- Encoding arguments does the same with a log. -/
theorem follows_encodeAll : ∀ es : List Expr,
    Follows Encoding.untraced (encoder.traced.encodeAll es) (encoder.encodeAll es)
  | [] => by
    rw [encodeAll, encodeAll]
    exact .pure _ []
  | e :: rest => by
    rw [encodeAll, encodeAll]
    exact (follows_encode e).bind fun formula =>
      (follows_encodeAll rest).bind fun formulas => .pure _ (formula :: formulas)

end

end Encoder

namespace ConstantConditions

def State.untraced (state : State (σ × List Prover.Event)) : State σ where
  encoding := state.encoding.untraced
  counts := state.counts

variable (encoder : Encoder σ)

/-- A step of the walk that only encodes does the same with a log when the encoding does. -/
theorem follows_encodingStep {α : Type} {x : StateM (Encoding (σ × List Prover.Event)) α}
    {y : StateM (Encoding σ) α} (h : Follows Encoding.untraced x y) :
    Follows State.untraced (encodingStep x) (encodingStep y) := by
  intro state
  change ((y state.encoding.untraced).1, (⟨(y state.encoding.untraced).2, state.counts⟩ : State σ)) = _
  rw [h state.encoding]
  rfl

theorem follows_ask {α : Type} {x : StateM (σ × List Prover.Event) α} {y : StateM σ α}
    (h : Follows Prod.fst x y) : Follows State.untraced (ask x) (ask y) :=
  follows_encodingStep (Encoder.follows_ask h)

/-- Visiting a declaration does the same with a log. -/
theorem follows_visitDeclaration (declared : List Identifier) (value : Option Expr) :
    Follows State.untraced (visitDeclaration encoder.traced declared value)
      (visitDeclaration encoder declared value) := by
  rw [visitDeclaration.eq_def, visitDeclaration.eq_def]
  split
  next name value =>
    change Follows _ (if encoder.tracked name.name then _ else _) _
    split
    next =>
      refine (follows_encodingStep (encoder.follows_bind name.name)).bind fun bound => ?_
      refine (follows_encodingStep (encoder.follows_encode value)).bind fun definition => ?_
      exact follows_ask fun _ => rfl
    next => exact .pure _ ()
  next => exact .pure _ ()

theorem follows_decide (condition : Expr) (neverZero alwaysZero : Bool) :
    Follows (@State.untraced σ) (decide condition neverZero alwaysZero)
      (decide condition neverZero alwaysZero) := by
  intro state
  cases neverZero <;> cases alwaysZero <;> rfl

/-- Entering a conditional does the same with a log. -/
theorem follows_enterConditional (condition : Expr) :
    Follows State.untraced (enterConditional encoder.traced condition) (enterConditional encoder condition) := by
  refine (follows_encodingStep (encoder.follows_encode condition)).bind fun formula => ?_
  refine (follows_ask fun _ => rfl).bind fun neverZero => ?_
  refine (follows_ask fun _ => rfl).bind fun alwaysZero => ?_
  refine (follows_decide condition neverZero alwaysZero).bind fun condition => ?_
  refine (follows_ask fun _ => rfl).bind fun _ => ?_
  exact (follows_ask fun _ => rfl).bind fun _ => .pure _ condition

/-- An `if` is entered, its body is visited, and its scope is closed. -/
theorem visitStmt_eq_enterConditional (span : Span) (condition : Expr) (body : Block) :
    visitStmt encoder (.conditional span condition body) = do
      let condition ← enterConditional encoder condition
      let body ← visitBlock encoder body
      ask encoder.prover.pop
      return .conditional span condition body := by
  rw [visitStmt]
  rfl

/-- Visiting a conditional enters it, visits the body and closes the scope. -/
theorem visitStmt_conditional_apply (span : Span) (condition : Expr) (body : Block) (state : State σ) :
    visitStmt encoder (.conditional span condition body) state =
      let entered := enterConditional encoder condition state
      let visited := visitBlock encoder body entered.2
      (.conditional span entered.1 visited.1, (ask encoder.prover.pop visited.2).2) :=
  congrFun (visitStmt_eq_enterConditional encoder span condition body) state

mutual

/-- Visiting a statement does the same with a log. The induction is on the statement. -/
theorem follows_visitStmt : ∀ s : Stmt,
    Follows State.untraced (visitStmt encoder.traced s) (visitStmt encoder s)
  | .declaration span declared value => by
    rw [visitStmt, visitStmt]
    exact (follows_visitDeclaration encoder declared value).bind fun _ => .pure _ _
  | .conditional span condition body => by
    rw [visitStmt_eq_enterConditional, visitStmt_eq_enterConditional]
    refine (follows_enterConditional encoder condition).bind fun condition => ?_
    refine (follows_visitBlock body).bind fun body => ?_
    exact (follows_ask fun _ => rfl).bind fun _ => .pure _ _
  | .function span name parameters returns body => by
    rw [visitStmt, visitStmt]
    exact (follows_visitBlock body).bind fun body => .pure _ _
  | .switch span scrutinee cases => by
    rw [visitStmt, visitStmt]
    exact (follows_visitCases cases).bind fun cases => .pure _ _
  | .loop span pre condition post body => by
    rw [visitStmt, visitStmt]
    exact (follows_visitBlock pre).bind fun pre => (follows_visitBlock body).bind fun body =>
      (follows_visitBlock post).bind fun post => .pure _ _
  | .block body => by
    rw [visitStmt, visitStmt]
    exact (follows_visitBlock body).bind fun body => .pure _ _
  | .expression _ | .assignment .. | .break _ | .continue _ | .leave _ => .pure _ _

theorem follows_visitBlock : ∀ b : Block,
    Follows State.untraced (visitBlock encoder.traced b) (visitBlock encoder b)
  | ⟨span, statements⟩ => by
    rw [visitBlock, visitBlock]
    exact (follows_visitStmts statements).bind fun statements => .pure _ _

theorem follows_visitStmts : ∀ statements : List Stmt,
    Follows State.untraced (visitStmts encoder.traced statements) (visitStmts encoder statements)
  | [] => .pure _ _
  | s :: rest => by
    rw [visitStmts, visitStmts]
    exact (follows_visitStmt s).bind fun s => (follows_visitStmts rest).bind fun rest => .pure _ _

theorem follows_visitCases : ∀ cases : List Case,
    Follows State.untraced (visitCases encoder.traced cases) (visitCases encoder cases)
  | [] => .pure _ _
  | ⟨span, value, body⟩ :: rest => by
    rw [visitCases, visitCases]
    exact (follows_visitBlock body).bind fun body => (follows_visitCases rest).bind fun rest => .pure _ _

end

/-- A run with a log is the run without it. -/
theorem runWith_traced (prover : Prover σ) (dialect : Dialect) (block : Block) (session : σ)
    (log : List Prover.Event) :
    let traced := runWith prover.traced dialect block (session, log)
    runWith prover dialect block session = (traced.1, traced.2.1) := by
  let encoder : Encoder σ := { dialect, tracked := block.singleAssignmentValues.contains, prover }
  have hvisit := follows_visitBlock encoder block { encoding := { session := (session, log) } }
  exact congrArg (fun r => ((r.1, r.2.counts), r.2.encoding.session)) hvisit

end ConstantConditions

namespace Encoder

variable (encoder : Encoder σ)

theorem onlyNames_freshVariable (c : Encoding (σ × List Prover.Event)) :
    Prover.OnlyNames c.log (encoder.traced.freshVariable c).2.log := by
  have hlog : (encoder.traced.freshVariable c).2.log =
      c.log ++ [.newVariable ("expr_" ++ toString c.fresh) .int] := List.reverse_cons
  rw [hlog]
  exact .concat _ _ _

theorem onlyNames_bind (name : String) (c : Encoding (σ × List Prover.Event)) :
    Prover.OnlyNames c.log (encoder.traced.bind name c).2.log := by
  have hlog : (encoder.traced.bind name c).2.log = c.log ++ [.newVariable ("yul_" ++ name) .int] :=
    List.reverse_cons
  rw [hlog]
  exact .concat _ _ _

mutual

/-- Encoding makes variables and says nothing else to the prover. -/
theorem onlyNames_encode : ∀ (e : Expr) (c : Encoding (σ × List Prover.Event)),
    Prover.OnlyNames c.log (encoder.traced.encode e c).2.log
  | .call _ callee arguments, c => by
    rw [encode]
    cases encoder.traced.dialect.instruction? callee.name with
    | none => exact encoder.onlyNames_freshVariable c
    | some instruction =>
      have harguments := onlyNames_encodeAll arguments c
      dsimp only
      rw [StateM.bind_apply]
      cases model? instruction (encoder.traced.encodeAll arguments c).1 with
      | none => exact harguments.trans (encoder.onlyNames_freshVariable _)
      | some formula => exact harguments
  | .identifier name, c => by
    rw [encode_identifier]
    split
    · exact .refl _
    · exact encoder.onlyNames_freshVariable c
  | .literal value, c => by
    rw [encode]
    cases value.word with
    | ok word => exact .refl _
    | error fault => exact encoder.onlyNames_freshVariable c

/-- Encoding arguments logs names only. -/
theorem onlyNames_encodeAll : ∀ (es : List Expr) (c : Encoding (σ × List Prover.Event)),
    Prover.OnlyNames c.log (encoder.traced.encodeAll es c).2.log
  | [], c => by
    rw [encodeAll]
    exact .refl _
  | e :: rest, c => by
    rw [encodeAll, StateM.bind_apply, StateM.bind_apply]
    exact (onlyNames_encode e c).trans (onlyNames_encodeAll rest _)

end

end Encoder

namespace ConstantConditions

/-- What a prover answers at an `if`: whether the condition can be zero, and whether it can be anything else. -/
structure Answers where
  zero : Verdict
  nonZero : Verdict

namespace Answers

/-- The condition in the result: a number where one of the answers is no, and as it was where none is. -/
def replace (answers : Answers) (condition : Expr) : Expr :=
  if answers.nonZero = .unsatisfiable then .literal { Literal.number "0" with span := condition.span }
  else if answers.zero = .unsatisfiable then .literal { Literal.number "1" with span := condition.span }
  else condition

/-- What the answers add to the counts. -/
def counts (answers : Answers) : Counts :=
  if answers.nonZero = .unsatisfiable then ⟨0, 1⟩
  else if answers.zero = .unsatisfiable then ⟨1, 0⟩
  else ⟨0, 0⟩

/-- The two questions about a condition with this formula. -/
def questions (answers : Answers) (formula : Formula) : List Prover.Event :=
  Prover.question (.eq formula (.int 0)) answers.zero ++
    Prover.question (.notEq formula (.int 0)) answers.nonZero

/-- What is said to the prover at an `if` before its body is visited. -/
def calls (answers : Answers) (formula : Formula) : List Prover.Event :=
  answers.questions formula ++ [.push, .assert (.notEq formula (.int 0))]

theorem balanced_questions (answers : Answers) (formula : Formula) :
    Prover.Balanced (answers.questions formula) :=
  (Prover.balanced_question _ _).append (Prover.balanced_question _ _)

theorem extends_questions (answers : Answers) (formula : Formula) (session : Evaluation.Session) :
    session.Extends (Prover.replay session (answers.questions formula)) [] := by
  rw [questions, Prover.replay_append]
  exact (Prover.replay_question session _ _).trans (Prover.replay_question _ _ _)

/-- Each of the two answers is given with one hypothesis, and with nothing left open from the question before. -/
theorem of_calls_eq {answers : Answers} {formula : Formula} {assumptions : List Formula} {verdict : Verdict}
    {done rest : List Prover.Event}
    (h : answers.calls formula = done ++ .check assumptions verdict :: rest) :
    assumptions = [] ∧ ∃ hypothesis, (hypothesis = .eq formula (.int 0) ∨ hypothesis = .notEq formula (.int 0)) ∧
      ∀ session : Evaluation.Session,
        (Prover.replay session done).assertions = session.assertions ++ [hypothesis] := by
  rcases append_eq_append_cons h with ⟨done, _, hassumption⟩ | ⟨rest, hquestions, _⟩
  · simp [List.cons_eq_append_iff] at hassumption
  · rcases append_eq_append_cons hquestions with ⟨done, rfl, hsecond⟩ | ⟨rest, hfirst, _⟩
    · obtain ⟨hassumptions, hreplay⟩ := Prover.of_question_eq hsecond
      refine ⟨hassumptions, _, .inr rfl, fun session => ?_⟩
      have hnone := (Prover.replay_question session (.eq formula (.int 0)) answers.zero).assertions
      rw [Prover.replay_append, hreplay, hnone, List.append_nil]
    · obtain ⟨hassumptions, hreplay⟩ := Prover.of_question_eq hfirst
      exact ⟨hassumptions, _, .inl rfl, hreplay⟩

end Answers

/-- Deciding by two answers replaces the condition as these say and counts it. -/
theorem decide_answers (answers : Answers) (condition : Expr) (state : State σ) :
    decide condition (Decidable.decide (answers.zero = .unsatisfiable))
        (Decidable.decide (answers.nonZero = .unsatisfiable)) state =
      (answers.replace condition, { state with counts := state.counts.add answers.counts }) := by
  rw [Answers.replace, Answers.counts]
  by_cases hnonZero : answers.nonZero = .unsatisfiable
  · rw [if_pos hnonZero, if_pos hnonZero, decide_eq_true hnonZero]
    rfl
  · rw [if_neg hnonZero, if_neg hnonZero, decide_eq_false hnonZero]
    by_cases hzero : answers.zero = .unsatisfiable
    · rw [if_pos hzero, if_pos hzero, decide_eq_true hzero]
      rfl
    · rw [if_neg hzero, if_neg hzero, decide_eq_false hzero]
      rfl

/-- Asking whether a hypothesis is refuted logs one question with its verdict. -/
theorem exists_ask_refutes (encoder : Encoder σ) (hypothesis : Formula)
    (state : State (σ × List Prover.Event)) :
    ∃ verdict state', ask (encoder.traced.prover.refutes hypothesis) state =
        (Decidable.decide (verdict = .unsatisfiable), state') ∧
      state'.counts = state.counts ∧
      state'.encoding.log = state.encoding.log ++ Prover.question hypothesis verdict := by
  refine ⟨_, _, rfl, rfl, ?_⟩
  change (.pop :: .check [] _ :: .assert hypothesis :: .push :: state.encoding.session.2).reverse = _
  simp only [List.reverse_cons, List.append_assoc]
  rfl

/-- An `if` is met: both questions are asked, and it is assumed for the body that the condition is not zero. -/
theorem exists_enterConditional (encoder : Encoder σ) (condition : Expr)
    (state : State (σ × List Prover.Event)) :
    ∃ (names : List Prover.Event) (answers : Answers), (∀ event ∈ names, event.IsNaming) ∧
      let formula := (encoder.traced.encode condition state.encoding).1
      let entered := enterConditional encoder.traced condition state
      entered.1 = answers.replace condition ∧
      entered.2.counts = state.counts.add answers.counts ∧
      entered.2.encoding.log = state.encoding.log ++ names ++ answers.calls formula := by
  obtain ⟨names, hnames, hlog⟩ := encoder.onlyNames_encode condition state.encoding
  let encoded := encodingStep (encoder.traced.encode condition) state
  obtain ⟨zero, state₁, hzero, hcounts₁, hlog₁⟩ :=
    exists_ask_refutes encoder (.eq encoded.1 (.int 0)) encoded.2
  obtain ⟨nonZero, state₂, hnonZero, hcounts₂, hlog₂⟩ :=
    exists_ask_refutes encoder (.notEq encoded.1 (.int 0)) state₁
  let answers : Answers := ⟨zero, nonZero⟩
  let opened := ask encoder.traced.prover.push { state₂ with counts := state₂.counts.add answers.counts }
  have hentered : enterConditional encoder.traced condition state =
      (answers.replace condition,
        (ask (encoder.traced.prover.assert (.notEq encoded.1 (.int 0))) opened.2).2) := by
    rw [enterConditional]
    refine (StateM.bind_apply _ _ _).trans ?_
    change ((ask (encoder.traced.prover.refutes (.eq encoded.1 (.int 0))) >>= _ : Walk _ Expr) encoded.2) = _
    rw [StateM.bind_apply, hzero, StateM.bind_apply, hnonZero, StateM.bind_apply]
    rw [decide_answers answers]
    rfl
  refine ⟨names, answers, hnames, congrArg Prod.fst hentered, ?_, ?_⟩
  · rw [hentered]
    change state₂.counts.add answers.counts = _
    rw [hcounts₂, hcounts₁]
    rfl
  · have hencoded : encoded.2.encoding.log = state.encoding.log ++ names := hlog
    rw [hentered]
    change (.assert _ :: .push :: state₂.encoding.session.2).reverse = _
    have hsession : state₂.encoding.session.2.reverse = _ := hlog₂
    rw [hlog₁, hencoded] at hsession
    simp only [List.reverse_cons, hsession, Answers.calls, Answers.questions, List.append_assoc]
    rfl

/-- The declaration of a tracked variable is asserted once the variables of its definition are made. -/
theorem exists_log_visitDeclaration (encoder : Encoder σ) {name : Identifier}
    (htracked : encoder.tracked name.name) (value : Expr) (state : State (σ × List Prover.Event)) :
    ∃ names : List Prover.Event, (∀ event ∈ names, event.IsNaming) ∧
      let made := encoder.traced.bind name.name state.encoding
      let definition := encoder.traced.encode value made.2
      (visitDeclaration encoder.traced [name] (some value) state).2.encoding.log =
        state.encoding.log ++ names ++ [.assert (.eq made.1 definition.1)] := by
  have hmade := encoder.onlyNames_bind name.name state.encoding
  obtain ⟨names, hnames, hlog⟩ := hmade.trans (encoder.onlyNames_encode value _)
  have htraced : encoder.traced.tracked name.name := htracked
  refine ⟨names, hnames, ?_⟩
  rw [visitDeclaration_of_tracked htraced, ← hlog]
  exact List.reverse_cons

theorem log_pop (encoder : Encoder σ) (state : State (σ × List Prover.Event)) :
    (ask encoder.traced.prover.pop state).2.encoding.log = state.encoding.log ++ [.pop] :=
  List.reverse_cons

end ConstantConditions

end YulBackend
