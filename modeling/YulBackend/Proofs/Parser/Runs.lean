import Mathlib.Order.Basic
import Mathlib.Order.Nat
import YulBackend.Proofs.Parser.Readings

namespace YulBackend.Parser

/-- Reading names consumes at least one lexeme. -/
theorem names?_length {lexemes rest : List Lexeme} {names : List Identifier} (h : names? lexemes = some (names, rest)) :
    rest.length < lexemes.length := by
  fun_induction names? lexemes generalizing names with
  | case1 name span _ left ih =>
    obtain ⟨⟨others, left'⟩, hothers, heq⟩ := Option.bind_eq_some_iff.1 h
    cases heq
    have hlength := ih hothers
    simp only [List.length_cons]
    omega
  | case2 =>
    cases h
    exact Nat.lt_succ_self _
  | case3 => cases h

/-- Reading parameters consumes at least the closing parenthesis. -/
theorem parameters?_length {lexemes rest : List Lexeme} {names : List Identifier}
    (h : parameters? lexemes = some (names, rest)) : rest.length < lexemes.length := by
  unfold parameters? at h
  split at h
  · cases h
    exact Nat.lt_succ_self _
  · obtain ⟨⟨names', left⟩, hnames, h⟩ := Option.bind_eq_some_iff.1 h
    have hlength := names?_length hnames
    dsimp only at h
    split at h
    · cases h
      exact Nat.lt_of_succ_lt hlength
    · cases h

/-- Reading return variables never gives lexemes back. -/
theorem returns?_length {lexemes rest : List Lexeme} {names : List Identifier}
    (h : returns? lexemes = some (names, rest)) : rest.length ≤ lexemes.length := by
  unfold returns? at h
  split at h
  · exact (Nat.lt_succ_of_lt (names?_length h)).le
  · cases h
    exact le_rfl

mutual

/-- An expression consumes at least one lexeme, which is what the fuel of its callers pays for. -/
theorem ReadsExpr.length_lt : ∀ {e : Expr} {lexemes rest : List Lexeme}, ReadsExpr e lexemes rest →
    rest.length < lexemes.length
  | _, _, _, .call h => Nat.lt_succ_of_lt (Nat.lt_succ_of_lt h.length_lt)
  | _, _, _, .name _ => Nat.lt_succ_self _
  | _, _, _, .literal _ => Nat.lt_succ_self _

theorem ReadsArguments.length_lt : ∀ {es : List Expr} {stop : Nat} {lexemes rest : List Lexeme},
    ReadsArguments es stop lexemes rest → rest.length < lexemes.length
  | _, _, _, _, .none => Nat.lt_succ_self _
  | _, _, _, _, .some h h' => h'.length_lt.trans h.length_lt

theorem ReadsMoreArguments.length_lt : ∀ {es : List Expr} {stop : Nat} {lexemes rest : List Lexeme},
    ReadsMoreArguments es stop lexemes rest → rest.length < lexemes.length
  | _, _, _, _, .none => Nat.lt_succ_self _
  | _, _, _, _, .some h h' => Nat.lt_succ_of_lt (h'.length_lt.trans h.length_lt)

end

mutual

/-- A statement of any kind consumes at least one lexeme, so a block's fuel outlasts its statements. -/
theorem ReadsStmt.length_lt : ∀ {s : Stmt} {lexemes rest : List Lexeme}, ReadsStmt s lexemes rest →
    rest.length < lexemes.length
  | _, _, _, .block h => h.length_lt
  | _, _, _, .function hparameters hreturns h => by
    have hlength := (h.length_lt.trans_le (returns?_length hreturns)).trans (parameters?_length hparameters)
    simp only [List.length_cons]
    omega
  | _, _, _, .initialised hnames h => by
    have hlength := names?_length hnames
    have hlength' := h.length_lt
    simp only [List.length_cons] at hlength ⊢
    omega
  | _, _, _, .declared hnames _ => Nat.lt_succ_of_lt (names?_length hnames)
  | _, _, _, .conditional h h' => Nat.lt_succ_of_lt (h'.length_lt.trans h.length_lt)
  | _, _, _, .switch h h' _ => Nat.lt_succ_of_le (h'.length_le.trans h.length_lt.le)
  | _, _, _, .loop h₁ h₂ h₃ h₄ =>
    Nat.lt_succ_of_lt (h₄.length_lt.trans (h₃.length_lt.trans (h₂.length_lt.trans h₁.length_lt)))
  | _, _, _, .break => Nat.lt_succ_self _
  | _, _, _, .continue => Nat.lt_succ_self _
  | _, _, _, .leave => Nat.lt_succ_self _
  | _, _, _, .expression h => h.length_lt
  | _, _, _, .assignment htargets h => by
    have hlength := names?_length htargets
    have hlength' := h.length_lt
    simp only [List.length_cons] at hlength ⊢
    omega

theorem ReadsBlock.length_lt : ∀ {b : Block} {lexemes rest : List Lexeme}, ReadsBlock b lexemes rest →
    rest.length < lexemes.length
  | _, _, _, .mk h => Nat.lt_succ_of_lt h.length_lt

theorem ReadsStmts.length_lt : ∀ {ss : List Stmt} {stop : Nat} {lexemes rest : List Lexeme},
    ReadsStmts ss stop lexemes rest → rest.length < lexemes.length
  | _, _, _, _, .none => Nat.lt_succ_self _
  | _, _, _, _, .some h h' => h'.length_lt.trans h.length_lt

theorem ReadsCases.length_le : ∀ {clauses : List Case} {lexemes rest : List Lexeme},
    ReadsCases clauses lexemes rest → rest.length ≤ lexemes.length
  | _, _, _, .none _ _ => le_rfl
  | _, _, _, .default h => Nat.le_succ_of_le h.length_lt.le
  | _, _, _, .case _ h h' => Nat.le_succ_of_le (Nat.le_succ_of_le (h'.length_le.trans h.length_lt.le))

end

mutual

/-- Two steps for each lexeme that is taken are fuel enough for `expr?`. -/
theorem ReadsExpr.expr? : ∀ (fuel : Nat) {e : Expr} {lexemes rest : List Lexeme}, ReadsExpr e lexemes rest →
    2 * lexemes.length ≤ 2 * rest.length + fuel + 1 → expr? fuel lexemes = some (e, rest)
  | 0, _, _, _, h, hfuel => by
    have hlength := h.length_lt
    omega
  | fuel + 1, _, _, rest, .call h, hfuel => by
    simp only [List.length_cons] at hfuel
    simp [Parser.expr?, h.arguments? fuel (by omega)]
  | fuel + 1, _, _, rest, .name hopen, _ => by
    rw [Parser.expr?]
    rintro span left rfl
    exact hopen _ rfl rfl
  | fuel + 1, _, _, rest, .literal hvalue, _ => by
    rw [Parser.expr?]
    · rw [hvalue]
      rfl
    all_goals
      intros
      subst_vars
      cases hvalue

/-- A reading of an argument list is found by `arguments?` with two units of fuel for each lexeme it consumes. -/
theorem ReadsArguments.arguments? : ∀ (fuel : Nat) {es : List Expr} {stop : Nat} {lexemes rest : List Lexeme},
    ReadsArguments es stop lexemes rest → 2 * lexemes.length ≤ 2 * rest.length + fuel →
    arguments? fuel lexemes = some (es, stop, rest)
  | 0, _, _, _, _, h, hfuel => by
    have hlength := h.length_lt
    omega
  | fuel + 1, _, _, _, _, .none, _ => by simp [Parser.arguments?]
  | fuel + 1, _, _, lexemes, rest, .some hfirst hothers, hfuel => by
    have hlength := hfirst.length_lt
    have hlength' := hothers.length_lt
    have hread := hfirst.expr? fuel (by omega)
    rw [Parser.arguments?]
    · simp [hread, hothers.moreArguments? fuel (by omega)]
    · rintro span left rfl
      cases hfirst with
      | literal hvalue => cases hvalue

/-- A reading of further arguments is found by `moreArguments?` with two units of fuel for each lexeme it consumes. -/
theorem ReadsMoreArguments.moreArguments? : ∀ (fuel : Nat) {es : List Expr} {stop : Nat} {lexemes rest : List Lexeme},
    ReadsMoreArguments es stop lexemes rest → 2 * lexemes.length ≤ 2 * rest.length + fuel →
    moreArguments? fuel lexemes = some (es, stop, rest)
  | 0, _, _, _, _, h, hfuel => by
    have hlength := h.length_lt
    omega
  | fuel + 1, _, _, _, _, .none, _ => by simp [Parser.moreArguments?]
  | fuel + 1, _, _, _, rest, .some hnext hothers, hfuel => by
    have hlength := hnext.length_lt
    have hlength' := hothers.length_lt
    rw [List.length_cons] at hfuel
    simp [Parser.moreArguments?, hnext.expr? fuel (by omega),
      hothers.moreArguments? fuel (by omega)]

end

mutual

/-- Two steps for each lexeme that is taken are fuel enough for `stmt?`. -/
theorem ReadsStmt.stmt? : ∀ (fuel : Nat) {s : Stmt} {lexemes rest : List Lexeme}, ReadsStmt s lexemes rest →
    2 * lexemes.length ≤ 2 * rest.length + fuel → stmt? fuel lexemes = some (s, rest)
  | 0, _, _, _, h, hfuel => by
    have hlength := h.length_lt
    omega
  | fuel + 1, _, _, _, .block h, hfuel => by
    have hread := h.block? fuel (by omega)
    obtain ⟨hstatements⟩ := h
    simp [Parser.stmt?, hread]
  | fuel + 1, _, _, _, .function hparameters hreturns h, hfuel => by
    have hlength := parameters?_length hparameters
    have hlength' := returns?_length hreturns
    simp only [List.length_cons] at hfuel
    simp [Parser.stmt?, hparameters, hreturns, h.block? fuel (by omega)]
  | fuel + 1, _, _, _, .initialised hnames h, hfuel => by
    have hlength := names?_length hnames
    simp only [List.length_cons] at hlength hfuel
    simp [Parser.stmt?, hnames, h.expr? fuel (by omega)]
  | fuel + 1, _, _, _, .declared hnames hassign, _ => by
    rw [Parser.stmt?, hnames]
    -- No assignment sign is next, so the declaration ends there.
    dsimp only [Option.bind_eq_bind, Option.bind_some]
    split
    next heq => exact absurd (congrArg Lexeme.token (List.cons.inj heq).1) hassign
    next => rfl
  | fuel + 1, _, _, _, .conditional h h', hfuel => by
    have hlength := h.length_lt
    have hlength' := h'.length_lt
    simp only [List.length_cons] at hfuel
    simp [Parser.stmt?, h.expr? fuel (by omega), h'.block? fuel (by omega)]
  | fuel + 1, _, _, _, .switch h h' hstop, hfuel => by
    have hlength := h.length_lt
    have hlength' := h'.length_le
    simp only [List.length_cons] at hfuel
    simp [Parser.stmt?, h.expr? fuel (by omega), h'.cases? fuel (by omega), hstop]
  | fuel + 1, _, _, _, .loop h₁ h₂ h₃ h₄, hfuel => by
    have hlength₁ := h₁.length_lt
    have hlength₂ := h₂.length_lt
    have hlength₃ := h₃.length_lt
    have hlength₄ := h₄.length_lt
    simp only [List.length_cons] at hfuel
    simp [Parser.stmt?, h₁.block? fuel (by omega), h₂.expr? fuel (by omega),
      h₃.block? fuel (by omega), h₄.block? fuel (by omega)]
  | fuel + 1, _, _, _, .break, _ => by simp [Parser.stmt?]
  | fuel + 1, _, _, _, .continue, _ => by simp [Parser.stmt?]
  | fuel + 1, _, _, _, .leave, _ => by simp [Parser.stmt?]
  | fuel + 1, _, _, _, .expression h, hfuel => by
    have hread := h.expr? fuel (by omega)
    obtain ⟨harguments⟩ := h
    simp [Parser.stmt?, hread]
  | fuel + 1, _, _, _, .assignment htargets h, hfuel => by
    have hlength := names?_length htargets
    simp only [List.length_cons] at hlength hfuel
    rw [Parser.stmt?]
    · simp [htargets, h.expr? fuel (by omega)]
    · rintro span left rfl
      simp [names?] at htargets

/-- A reading of a block is found by `block?`, one unit of fuel less than its lexemes ask for being enough. -/
theorem ReadsBlock.block? : ∀ (fuel : Nat) {b : Block} {lexemes rest : List Lexeme}, ReadsBlock b lexemes rest →
    2 * lexemes.length ≤ 2 * rest.length + fuel + 1 → block? fuel lexemes = some (b, rest)
  | 0, _, _, _, h, hfuel => by
    have hlength := h.length_lt
    omega
  | fuel + 1, _, _, _, .mk h, hfuel => by
    simp only [List.length_cons] at hfuel
    simp [Parser.block?, h.stmts? fuel (by omega)]

/-- A reading of statements is found by `stmts?` with two units of fuel for each lexeme it consumes. -/
theorem ReadsStmts.stmts? : ∀ (fuel : Nat) {ss : List Stmt} {stop : Nat} {lexemes rest : List Lexeme},
    ReadsStmts ss stop lexemes rest → 2 * lexemes.length ≤ 2 * rest.length + fuel →
    stmts? fuel lexemes = some (ss, stop, rest)
  | 0, _, _, _, _, h, hfuel => by
    have hlength := h.length_lt
    omega
  | fuel + 1, _, _, _, _, .none, _ => by simp [Parser.stmts?]
  | fuel + 1, _, _, _, _, .some hfirst hothers, hfuel => by
    have hlength := hfirst.length_lt
    have hlength' := hothers.length_lt
    have hread := hfirst.stmt? fuel (by omega)
    rw [Parser.stmts?]
    · simp [hread, hothers.stmts? fuel (by omega)]
    · rintro span left rfl
      cases fuel <;> simp [Parser.stmt?] at hread

/-- A reading of clauses is found by `cases?`; one unit more is asked for, since none may be consumed. -/
theorem ReadsCases.cases? : ∀ (fuel : Nat) {clauses : List Case} {lexemes rest : List Lexeme},
    ReadsCases clauses lexemes rest → 2 * lexemes.length + 1 ≤ 2 * rest.length + fuel →
    cases? fuel lexemes = some (clauses, rest)
  | 0, _, _, _, h, hfuel => by
    have hlength := h.length_le
    omega
  | fuel + 1, _, _, _, .none hdefault hcase, _ => by
    rw [Parser.cases?]
    · exact hdefault
    · exact hcase
  | fuel + 1, _, _, _, .default h, hfuel => by
    simp only [List.length_cons] at hfuel
    simp [Parser.cases?, h.block? fuel (by omega)]
  | fuel + 1, _, _, _, .case hvalue h h', hfuel => by
    have hlength := h.length_lt
    have hlength' := h'.length_le
    simp only [List.length_cons] at hfuel
    simp [Parser.cases?, hvalue, h.block? fuel (by omega), h'.cases? fuel (by omega)]

end

/-- `program?` reads a block if and only if the constructs of the grammar read all lexemes as this block. -/
theorem program?_eq_some_iff {lexemes : List Lexeme} {b : Block} :
    program? lexemes = some b ↔ ReadsBlock b lexemes [] := by
  constructor
  · intro h
    obtain ⟨⟨read, rest⟩, hread, h⟩ := Option.bind_eq_some_iff.1 h
    cases rest with
    | nil =>
      cases h
      exact readsBlock_of_block? hread
    | cons => cases h
  · intro h
    rw [program?, h.block? _ (by simp only [List.length_nil]; omega)]
    rfl

end YulBackend.Parser
