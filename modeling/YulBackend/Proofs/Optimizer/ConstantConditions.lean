import Mathlib
import YulBackend.Proofs.Optimizer.Invariant
import YulBackend.Proofs.Optimizer.SingleAssignment

namespace YulBackend

open Evaluation Encoder Execution ConstantConditions

variable {W : Type} {I : Interpretation W} {tracked : String → Bool}

/-- Calls of functions agree with calls of the same functions after a walk over their bodies. -/
def CallsAgree (I : Interpretation W) (tracked : String → Bool) (calls calls' : Calls W) : Prop :=
  ∀ F F' : Functions, F.Simplified I.dialect tracked F' → ∀ name values,
    Exec.Sim (calls F name values) (calls' F' name values) fun _ => True

section

variable {call call' : String → List Nat → Exec W (List Nat)} {V : Locals} {visible : List String}
variable {σ : State Session} {e : Expr}

/-- The value a condition is evaluated to is one its formula can denote under the values of the visible variables. -/
theorem ensures_evalOne (hwellFormed : σ.encoding.WellFormed) (hscoped : e.isScoped visible) :
    Exec.Ensures (evalOne I call V e) (CanDenote tracked σ.encoding.bindings visible V σ.encoding.fresh
      (conditionFormula I.dialect tracked e σ)) := by
  have heval : Exec.Ensures (eval I call V e) fun values => ∀ n : Nat, values = [n] →
      CanDenote tracked σ.encoding.bindings visible V σ.encoding.fresh
        (conditionFormula I.dialect tracked e σ) n :=
    ensures_eval hwellFormed.bindsNames e σ.encoding.fresh hscoped
  refine heval.bind fun values hvalues => ?_
  rw [Exec.single.eq_def]
  split
  next n => exact .pure (hvalues n rfl)
  next => exact .stop _

theorem evalOne_eq {n : Nat} (h : ∀ m, eval I call V e m = (.ok [n], m)) (m : Machine W) :
    evalOne I call V e m = (.ok n, m) := by
  rw [evalOne, Exec.bind_apply, h]
  rfl

theorem evalOne_number {text : String} {n : Nat} (h : (Literal.number text).word = .ok n) (span : Span)
    (m : Machine W) :
    evalOne I call V (.literal { Literal.number text with span }) m = (.ok n, m) := by
  refine evalOne_eq (fun m => ?_) m
  have hword : Literal.word { Literal.number text with span } = .ok n := h
  rw [eval, Interpretation.literal, hword]
  rfl

variable {zero zero' other other' : Exec W (Mode × Locals)} {P : Mode × Locals → Prop}

/-- An `if` acts alike after its condition was decided, if its body does where the condition is not
zero. -/
theorem sim_decided (hcall : ∀ name values, Exec.Sim (call name values) (call' name values) fun _ => True)
    (hwellFormed : σ.encoding.WellFormed) (hscoped : e.isScoped visible)
    (hfits : σ.encoding.Fits tracked visible V) (hzero : Exec.Sim zero zero' P)
    (hother : (entered I.dialect tracked e σ).encoding.Fits tracked visible V → Exec.Sim other other' P) :
    Exec.Sim
      (do
        let value ← Exec.decide e (evalOne I call V e)
        if value = 0 then zero else other)
      (do
        let value ← Exec.decide (decided I.dialect tracked e σ)
          (evalOne I call' V (decided I.dialect tracked e σ))
        if value = 0 then zero' else other') P := by
  obtain ⟨ρ, hρ, hlinked⟩ := hfits.satisfied
  have hensures : Exec.Ensures (evalOne I call V e) (CanDenote tracked σ.encoding.bindings visible V
      σ.encoding.fresh (conditionFormula I.dialect tracked e σ)) :=
    ensures_evalOne hwellFormed hscoped
  rw [decided]
  by_cases halways : alwaysZero I.dialect tracked e σ
  · rw [if_pos halways]
    have heval : ∀ m, eval I call V e m = (.ok [0], m) :=
      eval_eq_zero_of_refuted hwellFormed.bindsNames hfits.isSome hρ hwellFormed.ne_freshName hlinked
        hscoped (of_decide_eq_true halways)
    exact .replaced (.inl rfl) (evalOne_eq heval) (evalOne_number rfl e.span) (by decide) (by decide)
      (fun _ => hzero) fun hne => absurd rfl hne
  · rw [if_neg halways]
    by_cases hnever : neverZero I.dialect tracked e σ
    · rw [if_pos hnever]
      intro m m' hm
      obtain ⟨n, hne, heval⟩ := exists_eval_eq_of_refuted hwellFormed.bindsNames hfits.isSome hρ
        hwellFormed.ne_freshName hlinked hscoped m (of_decide_eq_true hnever)
      have hvalue := hensures m n (by rw [evalOne_eq heval])
      refine Exec.Sim.replaced (.inr rfl) (evalOne_eq heval) (evalOne_number rfl e.span) ?_ (by decide)
        (fun heq => absurd heq hne) (fun _ => ?_) m m' hm
      · simp [hne]
      · exact hother (hfits.entered hwellFormed hne hvalue)
    · rw [if_neg hnever]
      refine (((sim_evalOne hcall V e).and_ensures hensures).decide e).bind fun n hn => ?_
      split
      next => exact hzero
      next hne => exact hother (hfits.entered hwellFormed hne hn.2)

end

/-- Every function a block defines is found in the replaced block with its own body replaced, from a state that fits
any call of it. -/
theorem simplified_definitions_block {d : Dialect} : ∀ (b : Block) (σ : State Session)
    {visible : List String} {ρ : Assignment}, b.isScoped visible →
    σ.encoding.Ready visible b.declaredNames → (∀ x ∈ b.assignedNames, tracked x = false) →
    σ.encoding.Satisfied ρ →
    List.Forall₂ (Definition.Simplified d tracked) (Stmt.definitions b.statements)
      (Stmt.definitions (visitBlock (evaluating d tracked) b σ).1.statements)
  | ⟨_, statements⟩, σ, _, _, hscoped, hready, huntracked, hρ =>
    simplified_definitions statements σ hscoped hready huntracked hρ

/-- Code that declares nothing for what stands behind it only has to keep what is visible. -/
theorem Exec.Sim.of_keeps {c c' : Encoding Session} {visible names : List String} {V : Locals}
    {x x' : Exec W (Mode × Locals)}
    (hx : Exec.Sim x x' fun r => Locals.Keeps tracked visible V r.2) (hfits : c.Fits tracked visible V)
    (hready : c.Ready visible names) (hwalked : c.Walked c' names) :
    Exec.Sim x x' fun r =>
      Locals.Keeps tracked visible V r.2 ∧ (r.1 = .normal → c'.Fits tracked visible r.2) :=
  hx.mono fun _ hr => ⟨hr, fun _ => hfits.walked hr hwalked hready.unseen⟩

/-- Replacing conditions inside cases keeps which case a value matches. -/
theorem any_visitCases (value : Nat) : ∀ (cases : List Case) (σ : State Session),
    (visitCases (evaluating I.dialect tracked) cases σ).1.any (matches? I value) =
      cases.any (matches? I value)
  | [], _ => rfl
  | ⟨_, label, body⟩ :: rest, σ => by
    rw [visitCases_cons, List.any_cons, List.any_cons, any_visitCases value rest]
    rfl

/-- Every turn of a loop begins where it is known what was known before the first one. -/
theorem sim_iterate {c c' : Encoding Session} {visible names : List String} {V : Locals}
    {condition condition' : Locals → Exec W Nat} {body body' post post' : Locals → Exec W (Mode × Locals)}
    (hfits : c.Fits tracked visible V) (hready : c.Ready visible names) (hwalked : c.Walked c' names)
    (hcondition : ∀ V, Exec.Sim (condition V) (condition' V) fun _ => True)
    (hbody : ∀ V, c.Fits tracked visible V →
      Exec.Sim (body V) (body' V) fun r => Locals.Keeps tracked visible V r.2)
    (hpost : ∀ V, c'.Fits tracked visible V →
      Exec.Sim (post V) (post' V) fun r => Locals.Keeps tracked visible V r.2) (fuel : Nat) :
    Exec.Sim (Exec.iterate condition body post fuel V) (Exec.iterate condition' body' post' fuel V)
      fun r => Locals.Keeps tracked visible V r.2 := by
  refine Exec.Sim.iterate (Locals.Keeps tracked visible V) (fun V' _ => hcondition V')
    (fun V' hV' => ?_) (fun V' hV' => ?_) fuel (.refl hfits.isSome)
  · refine (hbody V' (hfits.keeps hV' hready.wellFormed)).mono fun r hr => ?_
    exact hV'.trans hr
  · refine (hpost V' (hfits.walked hV' hwalked hready.unseen)).mono fun r hr => ?_
    exact hV'.trans hr

/-- What was visible before a loop is kept, if its setup and its turns keep what is visible to them. -/
theorem sim_loop {calls calls' : Calls W} {F F' : Functions} {c : Encoding Session}
    {visible inner : List String} {V : Locals} {pre pre' post post' body body' : Block} {condition : Expr}
    (span : Span) (fuel : Nat) (hvisible : ∀ x ∈ visible, (V x).isSome) (hinner : visible ⊆ inner)
    (hinit : Exec.Sim (execInit I calls fuel (Stmt.definitions pre.statements :: F) V pre)
      (execInit I calls' fuel (Stmt.definitions pre'.statements :: F') V pre') fun r =>
        Locals.Keeps tracked visible V r.2 ∧ (r.1 = .normal → c.Fits tracked inner r.2))
    (hturns : ∀ V, c.Fits tracked inner V →
      let G := Stmt.definitions pre.statements :: F
      let G' := Stmt.definitions pre'.statements :: F'
      Exec.Sim
        (Exec.iterate (fun V => evalOne I (calls G) V condition) (fun V => execBlock I calls fuel G V body)
          (fun V => execBlock I calls fuel G V post) fuel V)
        (Exec.iterate (fun V => evalOne I (calls' G') V condition)
          (fun V => execBlock I calls' fuel G' V body') (fun V => execBlock I calls' fuel G' V post') fuel V)
        fun r => Locals.Keeps tracked inner V r.2) :
    Exec.Sim (exec I calls fuel F V (.loop span pre condition post body))
      (exec I calls' fuel F' V (.loop span pre' condition post' body')) fun r =>
        Locals.Keeps tracked visible V r.2 := by
  rw [exec, exec]
  refine hinit.bind fun r hr => ?_
  obtain ⟨mode, V'⟩ := r
  obtain ⟨hkeeps, hnormal⟩ := hr
  cases mode with
  | «break» | «continue» | leave => exact .pure (hkeeps.restrict hvisible)
  | normal =>
    refine (hturns V' (hnormal rfl)).bind fun r hr => .pure ?_
    exact (hkeeps.trans (hr.of_subset hinner)).restrict hvisible

/-- A declaration of variables that no formula is bound to. -/
theorem keeps_and_fits_setAll {c : Encoding Session} {visible names : List String} {V : Locals}
    {pairs : List (String × Nat)} (hfits : c.Fits tracked visible V) (hready : c.Ready visible names)
    (hpairs : pairs.map (·.1) = names) :
    Locals.Keeps tracked visible V (V.setAll pairs) ∧
      c.Fits tracked (names ++ visible) (V.setAll pairs) := by
  have hkeeps : Locals.Keeps tracked visible V (V.setAll pairs) :=
    .setAll_of_unseen hfits.isSome (hpairs ▸ hready.unseen)
  refine ⟨hkeeps, hfits.append hkeeps hready.wellFormed hready.unbound fun x hx => ?_⟩
  exact Locals.isSome_setAll_of_mem (hpairs ▸ hx)

section

variable {calls calls' : Calls W}

section

variable (hcalls : CallsAgree I tracked calls calls') (fuel : Nat) {visible : List String} {F F' : Functions}
  {V : Locals}

include hcalls

/-- A declaration whose value is tracked. The formula of the value denotes what the variable is set to. -/
theorem sim_defined {σ : State Session} {name : Identifier} {value : Expr} (span : Span)
    (hscoped : value.isScoped visible) (hready : σ.encoding.Ready visible [name.name])
    (hF : F.Simplified I.dialect tracked F') (hfits : σ.encoding.Fits tracked visible V) :
    Exec.Sim (exec I calls fuel F V (.declaration span [name] (some value)))
      (exec I calls' fuel F' V (.declaration span [name] (some value))) fun r =>
        Locals.Keeps tracked visible V r.2 ∧ (r.1 = .normal →
          (defined I.dialect tracked name.name value σ).encoding.Fits tracked (name.name :: visible) r.2) := by
  have hensures : Exec.Ensures (eval I (calls F) V value) fun values => ∀ n : Nat, values = [n] →
      CanDenote tracked (defined I.dialect tracked name.name value σ).encoding.bindings visible V
        σ.encoding.fresh (formula I.dialect tracked
          (defined I.dialect tracked name.name value σ).encoding.bindings σ.encoding.fresh value).1 n :=
    ensures_eval (bindsNames_defined hready.wellFormed.bindsNames _ _) value σ.encoding.fresh hscoped
  rw [exec, exec]
  refine ((sim_eval (hcalls F F' hF) V value).and_ensures hensures).bind fun values hvalues => ?_
  refine (Exec.Sim.zip _ values).bind fun pairs hpairs => ?_
  obtain ⟨rfl, hlength⟩ := hpairs
  obtain ⟨n, rfl⟩ := List.length_eq_one_iff.1 hlength.symm
  refine .pure ⟨.setAll_of_unseen hfits.isSome hready.unseen, fun _ => ?_⟩
  exact hfits.defined hready hscoped (hvalues.2 n rfl)

/-- A declaration that leaves what is known as it was. -/
theorem sim_declaration {c : Encoding Session} {declared : List Identifier} (span : Span) :
    ∀ value : Option Expr, c.Ready visible (declared.map (·.name)) →
    F.Simplified I.dialect tracked F' → c.Fits tracked visible V →
    Exec.Sim (exec I calls fuel F V (.declaration span declared value))
      (exec I calls' fuel F' V (.declaration span declared value)) fun r =>
        Locals.Keeps tracked visible V r.2 ∧ (r.1 = .normal →
          c.Fits tracked (declared.map (·.name) ++ visible) r.2)
  | none, hready, hF, hfits => by
    rw [exec, exec]
    have hpairs : (declared.map fun x => (x.name, 0)).map (·.1) = declared.map (·.name) := by
      rw [List.map_map]
      rfl
    obtain ⟨hkeeps, hfits⟩ := keeps_and_fits_setAll hfits hready hpairs
    exact .pure ⟨hkeeps, fun _ => hfits⟩
  | some value, hready, hF, hfits => by
    rw [exec, exec]
    refine (sim_eval (hcalls F F' hF) V value).bind fun values _ => ?_
    refine (Exec.Sim.zip _ values).bind fun pairs hpairs => ?_
    have hnames : pairs.map (·.1) = declared.map (·.name) := by
      rw [hpairs.1, List.map_fst_zip (Nat.le_of_eq hpairs.2)]
    obtain ⟨hkeeps, hfits⟩ := keeps_and_fits_setAll hfits hready hnames
    exact .pure ⟨hkeeps, fun _ => hfits⟩

end

mutual

/-- A statement acts like the one that the walk makes of it. -/
theorem sim_exec (hcalls : CallsAgree I tracked calls calls') (fuel : Nat) :
    ∀ (s : Stmt) (σ : State Session) {visible : List String} {F F' : Functions} {V : Locals},
    s.isScoped visible → σ.encoding.Ready visible s.declaredNames →
    (∀ x ∈ s.assignedNames, tracked x = false) → F.Simplified I.dialect tracked F' →
    σ.encoding.Fits tracked visible V →
    Exec.Sim (exec I calls fuel F V s)
      (exec I calls' fuel F' V (visitStmt (evaluating I.dialect tracked) s σ).1) fun r =>
        Locals.Keeps tracked visible V r.2 ∧ (r.1 = .normal →
          (visitStmt (evaluating I.dialect tracked) s σ).2.encoding.Fits tracked
            (s.newVariables ++ visible) r.2)
  | .expression value, σ, visible, F, F', V, hscoped, hready, huntracked, hF, hfits => by
    refine Exec.Sim.of_keeps ?_ hfits hready (walked_visitStmt I.dialect tracked _ σ hscoped hready)
    change Exec.Sim _ (exec I calls' fuel F' V (.expression value)) _
    rw [exec, exec]
    refine (sim_eval (hcalls F F' hF) V value).bind fun values _ => ?_
    exact (Exec.Sim.zip [] values).bind fun _ _ => .pure (.refl hfits.isSome)
  | .assignment span targets value, σ, visible, F, F', V, hscoped, hready, huntracked, hF, hfits => by
    refine Exec.Sim.of_keeps ?_ hfits hready (walked_visitStmt I.dialect tracked _ σ hscoped hready)
    change Exec.Sim _ (exec I calls' fuel F' V (.assignment span targets value)) _
    rw [exec, exec]
    refine (sim_eval (hcalls F F' hF) V value).bind fun values _ => ?_
    refine (Exec.Sim.zip _ values).bind fun pairs hpairs => ?_
    split
    · refine .pure (.setAll_of_untracked hfits.isSome ?_)
      rw [hpairs.1, List.map_fst_zip (Nat.le_of_eq hpairs.2)]
      exact huntracked
    · exact .stop _
  | .declaration span declared value, σ, visible, F, F', V, hscoped, hready, huntracked, hF, hfits => by
    rw [Stmt.isScoped, Option.all_eq_true] at hscoped
    obtain ⟨name, v, rfl, rfl, htracked⟩ | hdefines := defines_cases tracked declared value
    · rw [visitStmt_defined span htracked]
      exact sim_defined hcalls fuel span (hscoped v rfl) hready hF hfits
    · rw [visitStmt_declaration span hdefines]
      exact sim_declaration hcalls fuel span value hready hF hfits
  | .function span name parameters returns body, σ, visible, F, F', V, hscoped, hready, huntracked, hF,
      hfits => by
    refine Exec.Sim.of_keeps ?_ hfits hready (walked_visitStmt I.dialect tracked _ σ hscoped hready)
    rw [visitStmt_function, exec, exec]
    exact .pure (.refl hfits.isSome)
  | .conditional span condition body, σ, visible, F, F', V, hscoped, hready, huntracked, hF, hfits => by
    refine Exec.Sim.of_keeps ?_ hfits hready (walked_visitStmt I.dialect tracked _ σ hscoped hready)
    rw [Stmt.isScoped, Bool.and_eq_true] at hscoped
    rw [visitStmt_conditional, exec, exec]
    -- The body is met with the condition assumed, which is true of every run that enters it.
    refine sim_decided (hcalls F F' hF) hready.wellFormed hscoped.1 hfits (.pure (.refl hfits.isSome))
      fun hentered => ?_
    exact sim_execBlock hcalls fuel body _ hscoped.2 (ready_entered hready hscoped.1) huntracked hF hentered
  | .switch span scrutinee cases, σ, visible, F, F', V, hscoped, hready, huntracked, hF, hfits => by
    refine Exec.Sim.of_keeps ?_ hfits hready (walked_visitStmt I.dialect tracked _ σ hscoped hready)
    rw [Stmt.isScoped, Bool.and_eq_true] at hscoped
    rw [visitStmt_switch, exec, exec]
    refine (sim_evalOne (hcalls F F' hF) V scrutinee).bind fun value _ => ?_
    exact sim_execCases hcalls fuel value cases σ hscoped.2 hready huntracked hF hfits
  | .loop span pre condition post body, σ, visible, F, F', V, hscoped, hready, huntracked, hF, hfits => by
    refine Exec.Sim.of_keeps ?_ hfits hready (walked_visitStmt I.dialect tracked _ σ hscoped hready)
    simp only [Stmt.isScoped, Bool.and_eq_true] at hscoped
    obtain ⟨⟨⟨hpre, _⟩, hbody⟩, hpost⟩ := hscoped
    rw [Stmt.declaredNames] at hready
    simp only [Stmt.assignedNames, List.forall_mem_append] at huntracked
    obtain ⟨huntrackedPre, huntrackedBody, huntrackedPost⟩ := huntracked
    obtain ⟨ρ, hρ, _⟩ := hfits.satisfied
    -- The start of a loop stays open: body and step see its functions and variables.
    have hF' : Functions.Simplified I.dialect tracked (Stmt.definitions pre.statements :: F)
        (Stmt.definitions (visitBlock (evaluating I.dialect tracked) pre σ).1.statements :: F') :=
      .cons (simplified_definitions_block pre σ hpre hready.left huntrackedPre hρ) hF
    have hwalkedPre := walked_visitBlock I.dialect tracked pre σ hpre hready.left
    have hreadyBody := hready.next hwalkedPre fun x hx => Block.mem_or_mem_of_mem_scopeAfter hx
    have hwalkedBody := walked_visitBlock I.dialect tracked body _ hbody hreadyBody.left
    have hreadyPost := hreadyBody.next hwalkedBody fun x hx => .inl hx
    rw [visitStmt_loop]
    refine sim_loop span fuel hfits.isSome (fun _ hx => Stmt.mem_scopeAfter_of_mem hx _)
      (sim_execInit hcalls fuel pre σ hpre hready.left huntrackedPre hF' hfits) fun V' hV' => ?_
    exact sim_iterate hV' hreadyBody.left hwalkedBody (fun V => sim_evalOne (hcalls _ _ hF') V condition)
      (fun V hV => sim_execBlock hcalls fuel body _ hbody hreadyBody.left huntrackedBody hF' hV)
      (fun V hV => sim_execBlock hcalls fuel post _ hpost hreadyPost huntrackedPost hF' hV) fuel
  | .block body, σ, visible, F, F', V, hscoped, hready, huntracked, hF, hfits => by
    refine Exec.Sim.of_keeps ?_ hfits hready (walked_visitStmt I.dialect tracked _ σ hscoped hready)
    rw [visitStmt_block, exec, exec]
    exact sim_execBlock hcalls fuel body σ hscoped hready huntracked hF hfits
  | .break _, σ, visible, F, F', V, hscoped, hready, huntracked, hF, hfits
  | .continue _, σ, visible, F, F', V, hscoped, hready, huntracked, hF, hfits
  | .leave _, σ, visible, F, F', V, hscoped, hready, huntracked, hF, hfits => by
    refine Exec.Sim.of_keeps ?_ hfits hready (walked_visitStmt I.dialect tracked _ σ hscoped hready)
    rw [visitStmt, exec]
    exact .pure (.refl hfits.isSome)

/-- The initialisation of a loop and that block replaced run alike, and leave alike variables to the loop. -/
theorem sim_execInit (hcalls : CallsAgree I tracked calls calls') (fuel : Nat) :
    ∀ (b : Block) (σ : State Session) {visible : List String} {F F' : Functions}
    {V : Locals}, b.isScoped visible → σ.encoding.Ready visible b.declaredNames →
    (∀ x ∈ b.assignedNames, tracked x = false) → F.Simplified I.dialect tracked F' →
    σ.encoding.Fits tracked visible V →
    Exec.Sim (execInit I calls fuel F V b)
      (execInit I calls' fuel F' V (visitBlock (evaluating I.dialect tracked) b σ).1) fun r =>
        Locals.Keeps tracked visible V r.2 ∧ (r.1 = .normal →
          (visitBlock (evaluating I.dialect tracked) b σ).2.encoding.Fits tracked
            (Stmt.scopeAfter visible b.statements) r.2)
  | ⟨_, statements⟩, σ, visible, F, F', V, hscoped, hready, huntracked, hF, hfits => by
    rw [visitBlock_mk, execInit, execInit]
    exact sim_execAll hcalls fuel statements σ hscoped hready huntracked hF hfits

/-- A block and that block replaced run alike from a state that fits the variables. The functions of the block keep
simulating each other in it. -/
theorem sim_execBlock (hcalls : CallsAgree I tracked calls calls') (fuel : Nat) :
    ∀ (b : Block) (σ : State Session) {visible : List String} {F F' : Functions}
    {V : Locals}, b.isScoped visible → σ.encoding.Ready visible b.declaredNames →
    (∀ x ∈ b.assignedNames, tracked x = false) → F.Simplified I.dialect tracked F' →
    σ.encoding.Fits tracked visible V →
    Exec.Sim (execBlock I calls fuel F V b)
      (execBlock I calls' fuel F' V (visitBlock (evaluating I.dialect tracked) b σ).1) fun r =>
        Locals.Keeps tracked visible V r.2
  | ⟨_, statements⟩, σ, visible, F, F', V, hscoped, hready, huntracked, hF, hfits => by
    obtain ⟨ρ, hρ, _⟩ := hfits.satisfied
    have hdefinitions : List.Forall₂ (Definition.Simplified I.dialect tracked) (Stmt.definitions statements)
        (Stmt.definitions (visitStmts (evaluating I.dialect tracked) statements σ).1) :=
      simplified_definitions statements σ hscoped hready huntracked hρ
    rw [visitBlock_mk, execBlock, execBlock]
    refine (sim_execAll hcalls fuel statements σ hscoped hready huntracked (.cons hdefinitions hF) hfits).bind
      fun r hr => ?_
    exact .pure (hr.1.restrict hfits.isSome)

/-- Statements and those statements replaced run alike. Behind each of them the state of the walk fits the variables
again. -/
theorem sim_execAll (hcalls : CallsAgree I tracked calls calls') (fuel : Nat) :
    ∀ (statements : List Stmt) (σ : State Session) {visible : List String}
    {F F' : Functions} {V : Locals}, Stmt.allScoped visible statements →
    σ.encoding.Ready visible (Stmt.allDeclaredNames statements) →
    (∀ x ∈ Stmt.allAssignedNames statements, tracked x = false) → F.Simplified I.dialect tracked F' →
    σ.encoding.Fits tracked visible V →
    Exec.Sim (execAll I calls fuel F V statements)
      (execAll I calls' fuel F' V (visitStmts (evaluating I.dialect tracked) statements σ).1) fun r =>
        Locals.Keeps tracked visible V r.2 ∧ (r.1 = .normal →
          (visitStmts (evaluating I.dialect tracked) statements σ).2.encoding.Fits tracked
            (Stmt.scopeAfter visible statements) r.2)
  | [], σ, visible, F, F', V, _, _, _, _, hfits => by
    change Exec.Sim _ (execAll I calls' fuel F' V []) _
    rw [execAll, execAll]
    exact .pure ⟨.refl hfits.isSome, fun _ => hfits⟩
  | s :: rest, σ, visible, F, F', V, hscoped, hready, huntracked, hF, hfits => by
    rw [Stmt.allScoped, Bool.and_eq_true] at hscoped
    rw [Stmt.allDeclaredNames] at hready
    rw [Stmt.allAssignedNames, List.forall_mem_append] at huntracked
    have hwalked := walked_visitStmt I.dialect tracked s σ hscoped.1 hready.left
    have hready' := hready.next hwalked fun x hx => Stmt.mem_or_mem_of_mem_newVariables hx
    rw [visitStmts_cons, execAll, execAll]
    refine (sim_exec hcalls fuel s σ hscoped.1 hready.left huntracked.1 hF hfits).bind fun r hr => ?_
    obtain ⟨mode, V'⟩ := r
    obtain ⟨hkeeps, hnormal⟩ := hr
    cases mode with
    | normal =>
      refine (sim_execAll hcalls fuel rest _ hscoped.2 hready' huntracked.2 hF (hnormal rfl)).mono fun r hr => ?_
      exact ⟨hkeeps.trans (hr.1.of_subset (List.subset_append_right _ _)), hr.2⟩
    | «break» | «continue» | leave => exact .pure ⟨hkeeps, fun hmode => nomatch hmode⟩

/-- The case a value chooses and that case replaced run alike, from the state in which the walk met it. -/
theorem sim_execCases (hcalls : CallsAgree I tracked calls calls') (fuel : Nat) (value : Nat) :
    ∀ (cases : List Case) (σ : State Session) {visible : List String}
    {F F' : Functions} {V : Locals}, Case.allScoped visible cases →
    σ.encoding.Ready visible (Case.allDeclaredNames cases) →
    (∀ x ∈ Case.allAssignedNames cases, tracked x = false) → F.Simplified I.dialect tracked F' →
    σ.encoding.Fits tracked visible V →
    Exec.Sim (execCases I calls fuel F V value cases)
      (execCases I calls' fuel F' V value (visitCases (evaluating I.dialect tracked) cases σ).1) fun r =>
        Locals.Keeps tracked visible V r.2
  | [], σ, visible, F, F', V, _, _, _, _, hfits => by
    change Exec.Sim _ (execCases I calls' fuel F' V value []) _
    rw [execCases, execCases]
    exact .pure (.refl hfits.isSome)
  | ⟨_, label, body⟩ :: rest, σ, visible, F, F', V, hscoped, hready, huntracked, hF, hfits => by
    rw [Case.allScoped, Bool.and_eq_true] at hscoped
    rw [Case.allDeclaredNames] at hready
    rw [Case.allAssignedNames, List.forall_mem_append] at huntracked
    have hwalked := walked_visitBlock I.dialect tracked body σ hscoped.1 hready.left
    have hready' := hready.next hwalked fun x hx => .inl hx
    have hfits' := hfits.walked (.refl hfits.isSome) hwalked hready.left.unseen
    have hbody := sim_execBlock hcalls fuel body σ hscoped.1 hready.left huntracked.1 hF hfits
    have hrest := sim_execCases hcalls fuel value rest _ hscoped.2 hready' huntracked.2 hF hfits'
    rw [visitCases_cons]
    cases label with
    | some label =>
      rw [execCases, execCases]
      split
      · exact hbody
      · exact hrest
    | none =>
      rw [execCases, execCases, any_visitCases]
      split
      · exact hrest
      · exact hbody

end

end

/-- Calls in a program and in the replaced program agree. The induction is on the fuel; a body sees no variables but
its own, so it fits wherever it is called. -/
theorem callsAgree_callFunction (I : Interpretation W) (tracked : String → Bool) (fuel : Nat) :
    CallsAgree I tracked (callFunction I fuel) (callFunction I fuel) := by
  induction fuel with
  | zero =>
    intro F F' _ name values
    exact .stop _
  | succ fuel ih =>
    intro F F' hF name values
    rw [callFunction, callFunction]
    rcases hF.find? name with ⟨hnone, hnone'⟩ | ⟨f, f', G, G', hsome, hsome', hf, hG⟩
    · rw [hnone, hnone']
      exact .stop _
    · obtain ⟨σ, hbody, hready, hfits⟩ := hf.body
      rw [hsome, hsome']
      dsimp only
      rw [hf.parameters, hf.returns, hbody]
      refine (Exec.Sim.zip _ values).bind fun pairs hpairs => ?_
      have hvisible : ∀ x ∈ f.parameters ++ f.returns,
          (((Locals.empty.setAll pairs).setAll (f.returns.map fun x => (x, 0))) x).isSome := by
        intro x hx
        rcases List.mem_append.1 hx with hx | hx
        · refine Locals.isSome_setAll_of_isSome (Locals.isSome_setAll_of_mem ?_) _
          rw [hpairs.1, List.map_fst_zip (Nat.le_of_eq hpairs.2)]
          exact hx
        · refine Locals.isSome_setAll_of_mem ?_
          simpa using hx
      refine (sim_execBlock ih fuel f.body σ hf.isScoped hready hf.untracked hG (hfits _ hvisible)).bind
        fun r _ => ?_
      obtain ⟨mode, V⟩ := r
      cases mode with
      | normal | leave => exact .pure True.intro
      | «break» | «continue» => exact .stop _

/-- An empty session is ready for a block whose names are all different. -/
theorem ready_start {names : List String} (h : names.Nodup) (session : Session)
    (hsession : session.assertions = []) :
    Encoding.Ready { session } [] names := by
  refine ⟨⟨fun x f hx => ?_, fun f hf => ?_⟩, h, fun _ _ => rfl, fun _ _ => List.not_mem_nil⟩
  · cases hx
  · rw [hsession] at hf
    cases hf

/-- A scoped block with distinct names and what `run` makes of it agree for every machine and every fuel. -/
theorem sim_run (I : Interpretation W) {block : Block} (hscoped : block.isScoped [])
    (hnames : block.declaredNames.Nodup) (fuel : Nat) :
    Exec.Sim (execBlock I (callFunction I fuel) fuel [] .empty block)
      (execBlock I (callFunction I fuel) fuel [] .empty (run I.dialect block).1) fun _ => True := by
  have huntracked : ∀ x ∈ block.assignedNames, block.singleAssignmentValues.contains x = false :=
    fun x hx => Block.contains_singleAssignmentValues_of_mem hx
  have hready : Encoding.Ready { session := ({} : Session) } [] block.declaredNames :=
    ready_start hnames {} rfl
  have hfits : Encoding.Fits block.singleAssignmentValues.contains { session := ({} : Session) } []
      .empty :=
    ⟨fun _ hx => absurd hx List.not_mem_nil, fun _ => 0, fun _ hf => absurd hf List.not_mem_nil,
      fun _ hx => absurd hx List.not_mem_nil⟩
  have hcalls := callsAgree_callFunction I block.singleAssignmentValues.contains fuel
  exact (sim_execBlock hcalls fuel block { encoding := { session := {} } } hscoped hready huntracked .nil
    hfits).mono fun _ _ => True.intro

/-- `ConstantConditions.run` keeps what a block means, whatever its builtins do. From every world the replaced block
ends alike and leaves the same world behind. The conditions that are reached are the same, except that some are
literals now; the evaluation of each of those had no effect, and gave zero just if the literal is zero. The walk and
the execution go through the block together: where a statement is executed, the state in which the walk met it fits the
values of its variables. -/
theorem Block.run_simplified (I : Interpretation W) {block : Block} (hscoped : block.isScoped [])
    (hnames : block.declaredNames.Nodup) (fuel : Nat) (world : W) :
    (block.run I fuel world).1 = ((ConstantConditions.run I.dialect block).1.run I fuel world).1 ∧
      (block.run I fuel world).2.Agrees ((ConstantConditions.run I.dialect block).1.run I fuel world).2 := by
  have hsim := (sim_run I hscoped hnames fuel).map (·.1)
  obtain ⟨hresult, hafter, _⟩ := hsim { world } { world } ⟨rfl, .nil⟩
  exact ⟨hresult, hafter⟩

namespace ConstantConditions

/-- `let limit := 3`, and a store of `limit` under a condition. -/
def guardedStore (condition : Expr) : Block :=
  let limit := Expr.identifier { name := "limit" }
  let store := Expr.call {} { name := "sstore" } [.literal (.number "0"), limit]
  ⟨{}, [.declaration {} [{ name := "limit" }] (some (.literal (.number "3"))),
    .conditional {} condition ⟨{}, [.expression store]⟩]⟩

/-- `lt(2, limit)` -/
def belowLimit : Expr :=
  .call {} { name := "lt" } [.literal (.number "2"), .identifier { name := "limit" }]

/-- Stores are logged, latest first. -/
def storeLog : Interpretation (List (List Nat)) where
  dialect := { evmVersion := none, builtins := [.ofInstruction .lt, .ofInstruction .sStore] }
  builtin name values log := if name = "sstore" then (some [], values :: log) else (none, log)
  unvalued _ := 0

theorem run_guardedStore :
    (guardedStore belowLimit).isScoped [] ∧ (guardedStore belowLimit).declaredNames.Nodup ∧
      (run storeLog.dialect (guardedStore belowLimit)).1 = guardedStore (.literal (.number "1")) ∧
      ((guardedStore belowLimit).run storeLog 5 []).2.world = [[0, 3]] ∧
      ((guardedStore belowLimit).run storeLog 5 []).1 =
        ((run storeLog.dialect (guardedStore belowLimit)).1.run storeLog 5 []).1 ∧
      ((guardedStore belowLimit).run storeLog 5 []).2.Agrees
        ((run storeLog.dialect (guardedStore belowLimit)).1.run storeLog 5 []).2 :=
  ⟨by decide, by decide, by cbv, by decide,
    Block.run_simplified storeLog (by decide) (by decide) 5 []⟩

end ConstantConditions

end YulBackend
