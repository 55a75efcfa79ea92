import YulBackend.Proofs.Parser.Tokens

namespace YulBackend.Parser

/-- The tokens of a call begin with its name and an opening parenthesis. -/
theorem tokens_call {e : Expr} (h : e.isCall) :
    ∃ name rest, e.tokens = .identifier name :: .openParen :: rest := by
  cases e with
  | call _ callee arguments => exact ⟨callee.name, _, by rw [Expr.tokens]⟩
  | identifier _ => cases h
  | literal _ => cases h

/-- The tokens of a non-empty name list begin with a name that is not taken for a call. -/
theorem listTokens_ne_nil {names : List Identifier} (h : names ≠ []) :
    ∃ name rest, Identifier.listTokens names = .identifier name :: rest ∧
      rest.head? ≠ some .openParen := by
  match names, h with
  | [name], _ => exact ⟨name.name, [], rfl, by simp⟩
  | name :: next :: more, _ => exact ⟨name.name, _, by rw [Identifier.listTokens]; simp, by simp⟩

/-- A statement opens with a token that no statement before it could go on with. -/
theorem endsStatement_tokens {s : Stmt} (hwf : s.isWellFormed) (tokens : List Token) :
    EndsStatement (s.tokens ++ tokens) := by
  cases s with
  | expression value =>
    rw [Stmt.isWellFormed, Bool.and_eq_true] at hwf
    obtain ⟨name, rest, hvalue⟩ := tokens_call hwf.1
    exact ⟨.identifier name, .openParen :: rest ++ tokens, by simp [Stmt.tokens, hvalue], by simp⟩
  | assignment _ targets value =>
    simp only [Stmt.isWellFormed, Bool.and_eq_true, Bool.not_eq_true', List.isEmpty_eq_false_iff] at hwf
    obtain ⟨name, rest, htargets, -⟩ := listTokens_ne_nil hwf.1.1
    exact ⟨.identifier name, rest ++ .assign :: (value.tokens ++ tokens),
      by simp [Stmt.tokens, htargets], by simp⟩
  | declaration _ declared value =>
    cases value <;> exact ⟨.keyword .let, _, by rw [Stmt.tokens, List.cons_append], by simp⟩
  | block body => exact ⟨.openBrace, _, by rw [Stmt.tokens, Block.tokens_eq, List.cons_append], by simp⟩
  | function _ _ _ _ _ => exact ⟨.keyword .function, _, by rw [Stmt.tokens, List.cons_append], by simp⟩
  | conditional _ _ _ => exact ⟨.keyword .if, _, by rw [Stmt.tokens, List.cons_append], by simp⟩
  | switch _ _ _ => exact ⟨.keyword .switch, _, by rw [Stmt.tokens, List.cons_append], by simp⟩
  | loop _ _ _ _ _ => exact ⟨.keyword .for, _, by rw [Stmt.tokens, List.cons_append], by simp⟩
  | «break» _ => exact ⟨.keyword .break, _, by rw [Stmt.tokens, List.cons_append], by simp⟩
  | «continue» _ => exact ⟨.keyword .continue, _, by rw [Stmt.tokens, List.cons_append], by simp⟩
  | leave _ => exact ⟨.keyword .leave, _, by rw [Stmt.tokens, List.cons_append], by simp⟩

/-- Whatever statements follow in the block, and also its closing brace, cannot continue the statement before them. -/
theorem endsStatement_listTokens {statements : List Stmt} (hwf : Stmt.allWellFormed statements)
    (tokens : List Token) : EndsStatement (Stmt.listTokens statements ++ .closeBrace :: tokens) := by
  cases statements with
  | nil => exact ⟨.closeBrace, tokens, by simp [Stmt.listTokens], by simp⟩
  | cons s rest =>
    rw [Stmt.allWellFormed, Bool.and_eq_true] at hwf
    rw [Stmt.listTokens, List.append_assoc]
    exact endsStatement_tokens hwf.1 _

/-- The token behind a statement is none of those that would let `stmt?` read on: a parenthesis, comma, assignment,
`case` or `default`. -/
theorem EndsStatement.head?_ne {tokens : List Token} (h : EndsStatement tokens) (token : Token)
    (htoken : token = .openParen ∨ token = .comma ∨ token = .assign ∨ token = .keyword .case ∨
      token = .keyword .default) : tokens.head? ≠ some token := by
  obtain ⟨first, rest, rfl, hne⟩ := h
  rw [List.head?_cons, ne_eq, Option.some.injEq]
  rintro rfl
  simp_all

/-- A construct that could have gone on ends where the next lexeme begins, and there is one. -/
theorem EndsStatement.openEnd? {tokens : List Token} (h : EndsStatement tokens) {lexemes : List Lexeme}
    (htokens : lexemes.map (·.token) = tokens) : ∃ stop, Parser.openEnd? lexemes = some stop := by
  obtain ⟨token, rest, rfl, -⟩ := h
  obtain ⟨span, left, rfl, -⟩ := exists_lexeme_of_tokens htokens
  exact ⟨span.start, rfl⟩

/-- A switch with clauses always finds its end, since something follows every statement. -/
theorem EndsStatement.switchEnd? {tokens : List Token} (h : EndsStatement tokens) {lexemes : List Lexeme}
    (htokens : lexemes.map (·.token) = tokens) {clauses : List Case} (hclauses : clauses ≠ []) :
    ∃ stop, Parser.switchEnd? clauses lexemes = some stop := by
  obtain ⟨stop, hstop⟩ := h.openEnd? htokens
  unfold Parser.switchEnd?
  rw [List.getLast?_eq_some_getLast hclauses]
  obtain ⟨span, _ | value, body⟩ := clauses.getLast hclauses
  · exact ⟨span.stop, rfl⟩
  · exact ⟨stop, hstop⟩

/-- Clauses begin with a keyword, so the scrutinee before them is not taken for a call. -/
theorem head?_listTokens_ne {clauses : List Case} (h : clauses ≠ []) (tokens : List Token) :
    (Case.listTokens clauses ++ tokens).head? ≠ some .openParen := by
  match clauses, h with
  | ⟨_, some value, body⟩ :: rest, _ => simp [Case.listTokens]
  | ⟨_, none, body⟩ :: rest, _ => simp [Case.listTokens]

/-- Neither joining initialisers nor erasing spans makes a clause list empty. -/
theorem eq_nil_of_eraseAll_joinAll {clauses : List Case} (h : Case.eraseAll (Case.joinAll clauses) = []) :
    clauses = [] := by
  match clauses, h with
  | [], _ => rfl
  | ⟨_, _, _⟩ :: rest, h => simp [Case.joinAll, Case.eraseAll] at h

section

variable {lexemes : List Lexeme} {tokens : List Token} {span : Span} {value : Expr}

/-- Reading took a statement off the lexemes that looks as expected, and it left these tokens. -/
def YieldsStmt (lexemes : List Lexeme) (expected : Stmt) (left : List Token) : Prop :=
  ∃ read rest, ReadsStmt read lexemes rest ∧ read.eraseSpans = expected ∧ rest.map (·.token) = left

/-- The tokens of a call read as a call with the same callee and arguments, its spans aside. -/
theorem exists_readsExpr_call {e : Expr} (hcall : e.isCall)
    (htokens : lexemes.map (·.token) = e.tokens ++ tokens) (hopen : tokens.head? ≠ some .openParen) :
    ∃ span callee es rest, ReadsExpr (.call span callee es) lexemes rest ∧
      (Expr.call span callee es).eraseSpans = e.eraseSpans ∧ rest.map (·.token) = tokens := by
  obtain ⟨read, rest, hread, hview, hrest⟩ := exists_readsExpr htokens hopen
  cases e with
  | call _ _ _ =>
    cases read with
    | call span callee es => exact ⟨span, callee, es, rest, hread, hview, hrest⟩
    | identifier _ => cases hview
    | literal _ => cases hview
  | identifier _ => cases hcall
  | literal _ => cases hcall

/-- The tokens of a well-formed expression statement read back as that statement. -/
theorem yieldsStmt_expression (hwf : (Stmt.expression value).isWellFormed)
    (htokens : lexemes.map (·.token) = (Stmt.expression value).tokens ++ tokens) (hend : EndsStatement tokens) :
    YieldsStmt lexemes (Stmt.expression value).joinInitialisers.eraseSpans tokens := by
  rw [Stmt.isWellFormed, Bool.and_eq_true] at hwf
  obtain ⟨_, _, _, rest, hread, hview, hrest⟩ :=
    exists_readsExpr_call hwf.1 htokens (hend.head?_ne _ (by simp))
  refine ⟨_, rest, .expression hread, ?_, hrest⟩
  rw [Stmt.joinInitialisers, Stmt.eraseSpans, Stmt.eraseSpans, hview]

/-- The tokens of a well-formed assignment read back as that assignment. -/
theorem yieldsStmt_assignment {targets : List Identifier} (hwf : (Stmt.assignment span targets value).isWellFormed)
    (htokens : lexemes.map (·.token) = (Stmt.assignment span targets value).tokens ++ tokens)
    (hend : EndsStatement tokens) :
    YieldsStmt lexemes (Stmt.assignment span targets value).joinInitialisers.eraseSpans tokens := by
  simp only [Stmt.isWellFormed, Bool.and_eq_true, Bool.not_eq_true', List.isEmpty_eq_false_iff] at hwf
  rw [Stmt.tokens, List.append_assoc, List.cons_append] at htokens
  obtain ⟨read, _, hread, hview, hassign⟩ := names?_of_tokens hwf.1.1 htokens (by simp)
  obtain ⟨_, left, rfl, hleft⟩ := exists_lexeme_of_tokens hassign
  obtain ⟨result, rest, hresult, hresultView, hrest⟩ := exists_readsExpr hleft (hend.head?_ne _ (by simp))
  obtain ⟨name, after, htargets, -⟩ := listTokens_ne_nil hwf.1.1
  rw [htargets, List.cons_append] at htokens
  obtain ⟨opening, others, rfl, -⟩ := exists_lexeme_of_tokens htokens
  refine ⟨_, rest, .assignment hread hresult, ?_, hrest⟩
  rw [Stmt.joinInitialisers, Stmt.eraseSpans, Stmt.eraseSpans, hview, hresultView]

/-- A bare name that initialises is read as one more declared name. -/
theorem yieldsStmt_declaration {declared : List Identifier} : ∀ {value : Option Expr},
    (Stmt.declaration span declared value).isWellFormed →
    lexemes.map (·.token) = (Stmt.declaration span declared value).tokens ++ tokens → EndsStatement tokens →
    YieldsStmt lexemes (Stmt.declaration span declared value).joinInitialisers.eraseSpans tokens
  | none, hwf, htokens, hend => by
    simp only [Stmt.isWellFormed, Bool.and_eq_true, Bool.not_eq_true', List.isEmpty_eq_false_iff] at hwf
    rw [Stmt.tokens, List.cons_append] at htokens
    obtain ⟨opening, names, rfl, hnames⟩ := exists_lexeme_of_tokens htokens
    obtain ⟨read, rest, hread, hview, hrest⟩ := names?_of_tokens hwf.1.1 hnames (hend.head?_ne _ (by simp))
    obtain ⟨token, tokens, rfl, -, -, hassign, -⟩ := hend
    obtain ⟨next, rest, rfl, -⟩ := exists_lexeme_of_tokens hrest
    refine ⟨_, _, .declared hread hassign, ?_, hrest⟩
    rw [Stmt.joinInitialisers, declaration, Stmt.eraseSpans, Stmt.eraseSpans, hview]
    simp
  | some value, hwf, htokens, hend => by
    simp only [Stmt.isWellFormed, Bool.and_eq_true, Bool.not_eq_true', List.isEmpty_eq_false_iff] at hwf
    rw [Stmt.tokens, List.cons_append, List.append_assoc, List.cons_append] at htokens
    obtain ⟨opening, names, rfl, hnames⟩ := exists_lexeme_of_tokens htokens
    obtain ⟨read, _, hread, hview, hassign⟩ := names?_of_tokens hwf.1.1 hnames (by simp)
    obtain ⟨_, left, rfl, hleft⟩ := exists_lexeme_of_tokens hassign
    obtain ⟨result, rest, hresult, hresultView, hrest⟩ := exists_readsExpr hleft (hend.head?_ne _ (by simp))
    refine ⟨_, rest, .initialised hread hresult, ?_, hrest⟩
    rw [Stmt.joinInitialisers]
    exact eraseSpans_declaration_congr hview hresultView

end

mutual

/-- From lexemes with the tokens of a statement this statement is read, but for bare names that initialise. -/
theorem exists_readsStmt : ∀ {s : Stmt} {lexemes : List Lexeme} {tokens : List Token}, s.isWellFormed →
    lexemes.map (·.token) = s.tokens ++ tokens → EndsStatement tokens →
    YieldsStmt lexemes s.joinInitialisers.eraseSpans tokens
  | .expression _, _, _, hwf, htokens, hend => yieldsStmt_expression hwf htokens hend
  | .assignment _ _ _, _, _, hwf, htokens, hend => yieldsStmt_assignment hwf htokens hend
  | .declaration _ _ _, _, _, hwf, htokens, hend => yieldsStmt_declaration hwf htokens hend
  | .function _ name parameters returns body, lexemes, tokens, hwf, htokens, _ => by
    simp only [Stmt.isWellFormed, Bool.and_eq_true] at hwf
    simp only [Stmt.tokens, List.cons_append, List.append_assoc] at htokens
    obtain ⟨opening, _, rfl, hname⟩ := exists_lexeme_of_tokens htokens
    obtain ⟨_, _, rfl, hparen⟩ := exists_lexeme_of_tokens hname
    obtain ⟨_, left, rfl, hleft⟩ := exists_lexeme_of_tokens hparen
    obtain ⟨takes, left, htakes, htakesView, hleft⟩ := parameters?_of_tokens hleft
    obtain ⟨gives, left, hgives, hgivesView, hleft⟩ := returns?_of_tokens hleft (by rw [Block.tokens_eq]; rfl)
    obtain ⟨read, rest, hread, hview, hrest⟩ := exists_readsBlock hwf.2 hleft
    refine ⟨_, rest, .function htakes hgives hread, ?_, hrest⟩
    rw [Stmt.joinInitialisers, Stmt.eraseSpans, Stmt.eraseSpans, htakesView, hgivesView, hview]
  | .conditional _ condition body, lexemes, tokens, hwf, htokens, _ => by
    rw [Stmt.isWellFormed, Bool.and_eq_true] at hwf
    simp only [Stmt.tokens, List.cons_append, List.append_assoc] at htokens
    obtain ⟨opening, left, rfl, hleft⟩ := exists_lexeme_of_tokens htokens
    obtain ⟨test, left, htest, htestView, hleft⟩ := exists_readsExpr hleft (by simp [Block.tokens_eq])
    obtain ⟨read, rest, hread, hview, hrest⟩ := exists_readsBlock hwf.2 hleft
    refine ⟨_, rest, .conditional htest hread, ?_, hrest⟩
    rw [Stmt.joinInitialisers, Stmt.eraseSpans, Stmt.eraseSpans, htestView, hview]
  | .switch _ scrutinee clauses, lexemes, tokens, hwf, htokens, hend => by
    simp only [Stmt.isWellFormed, Bool.and_eq_true, Bool.not_eq_true', List.isEmpty_eq_false_iff] at hwf
    simp only [Stmt.tokens, List.cons_append, List.append_assoc] at htokens
    obtain ⟨opening, left, rfl, hleft⟩ := exists_lexeme_of_tokens htokens
    obtain ⟨subject, left, hsubject, hsubjectView, hleft⟩ :=
      exists_readsExpr hleft (head?_listTokens_ne hwf.1.2 tokens)
    obtain ⟨read, rest, hread, hview, hrest⟩ := exists_readsCases hwf.2 hleft hend
    have hne : read ≠ [] := by
      rintro rfl
      exact hwf.1.2 (eq_nil_of_eraseAll_joinAll hview.symm)
    obtain ⟨stop, hstop⟩ := hend.switchEnd? hrest hne
    refine ⟨_, rest, .switch hsubject hread hstop, ?_, hrest⟩
    rw [Stmt.joinInitialisers, Stmt.eraseSpans, Stmt.eraseSpans, hsubjectView, hview]
  | .loop _ pre condition post body, lexemes, tokens, hwf, htokens, hend => by
    simp only [Stmt.isWellFormed, Bool.and_eq_true] at hwf
    obtain ⟨⟨⟨hpreWf, -⟩, hpostWf⟩, hbodyWf⟩ := hwf
    simp only [Stmt.tokens, List.cons_append, List.append_assoc] at htokens
    obtain ⟨opening, left, rfl, hleft⟩ := exists_lexeme_of_tokens htokens
    obtain ⟨start, left, hstart, hstartView, hleft⟩ := exists_readsBlock hpreWf hleft
    obtain ⟨test, left, htest, htestView, hleft⟩ := exists_readsExpr hleft (by simp [Block.tokens_eq])
    obtain ⟨step, left, hstep, hstepView, hleft⟩ := exists_readsBlock hpostWf hleft
    obtain ⟨read, rest, hread, hview, hrest⟩ := exists_readsBlock hbodyWf hleft
    refine ⟨_, rest, .loop hstart htest hstep hread, ?_, hrest⟩
    rw [Stmt.joinInitialisers, Stmt.eraseSpans, Stmt.eraseSpans, hstartView, htestView, hstepView, hview]
  | .break _, lexemes, tokens, _, htokens, _ => by
    rw [Stmt.tokens, List.cons_append, List.nil_append] at htokens
    obtain ⟨span, rest, rfl, hrest⟩ := exists_lexeme_of_tokens htokens
    exact ⟨.break span, rest, .break, by rw [Stmt.joinInitialisers]; rfl, hrest⟩
  | .continue _, lexemes, tokens, _, htokens, _ => by
    rw [Stmt.tokens, List.cons_append, List.nil_append] at htokens
    obtain ⟨span, rest, rfl, hrest⟩ := exists_lexeme_of_tokens htokens
    exact ⟨.continue span, rest, .continue, by rw [Stmt.joinInitialisers]; rfl, hrest⟩
  | .leave _, lexemes, tokens, _, htokens, _ => by
    rw [Stmt.tokens, List.cons_append, List.nil_append] at htokens
    obtain ⟨span, rest, rfl, hrest⟩ := exists_lexeme_of_tokens htokens
    exact ⟨.leave span, rest, .leave, by rw [Stmt.joinInitialisers]; rfl, hrest⟩
  | .block body, lexemes, tokens, hwf, htokens, _ => by
    rw [Stmt.isWellFormed] at hwf
    rw [Stmt.tokens] at htokens
    obtain ⟨read, rest, hread, hview, hrest⟩ := exists_readsBlock hwf htokens
    refine ⟨.block read, rest, .block hread, ?_, hrest⟩
    rw [Stmt.joinInitialisers, Stmt.eraseSpans, Stmt.eraseSpans, hview]

/-- The tokens of a well-formed block read back as the block with its bare initialisers joined, spans aside. -/
theorem exists_readsBlock : ∀ {b : Block} {lexemes : List Lexeme} {tokens : List Token}, b.isWellFormed →
    lexemes.map (·.token) = b.tokens ++ tokens →
    ∃ read rest, ReadsBlock read lexemes rest ∧ read.eraseSpans = b.joinInitialisers.eraseSpans ∧
      rest.map (·.token) = tokens
  | ⟨_, statements⟩, lexemes, tokens, hwf, htokens => by
    rw [Block.tokens, List.cons_append, List.append_assoc] at htokens
    obtain ⟨opening, left, rfl, hleft⟩ := exists_lexeme_of_tokens htokens
    obtain ⟨read, stop, rest, hread, hview, hrest⟩ := exists_readsStmts hwf hleft
    refine ⟨_, rest, .mk hread, ?_, hrest⟩
    rw [Block.joinInitialisers, Block.eraseSpans, Block.eraseSpans, hview]

/-- The tokens of well-formed statements and a closing brace read back as the joined statements. Each statement ends
because the next one or the brace does not continue it. -/
theorem exists_readsStmts : ∀ {ss : List Stmt} {lexemes : List Lexeme} {tokens : List Token},
    Stmt.allWellFormed ss → lexemes.map (·.token) = Stmt.listTokens ss ++ .closeBrace :: tokens →
    ∃ read stop rest, ReadsStmts read stop lexemes rest ∧
      Stmt.eraseAll read = Stmt.eraseAll (Stmt.joinAll ss) ∧ rest.map (·.token) = tokens
  | [], lexemes, tokens, _, htokens => by
    obtain ⟨span, rest, rfl, hrest⟩ := exists_lexeme_of_tokens htokens
    exact ⟨[], span.stop, rest, .none, by rw [Stmt.joinAll], hrest⟩
  | s :: more, lexemes, tokens, hwf, htokens => by
    rw [Stmt.allWellFormed, Bool.and_eq_true] at hwf
    rw [Stmt.listTokens, List.append_assoc] at htokens
    obtain ⟨first, left, hfirst, hfirstView, hleft⟩ :=
      exists_readsStmt hwf.1 htokens (endsStatement_listTokens hwf.2 tokens)
    obtain ⟨others, stop, rest, hothers, hothersView, hrest⟩ := exists_readsStmts hwf.2 hleft
    refine ⟨first :: others, stop, rest, .some hfirst hothers, ?_, hrest⟩
    rw [Stmt.joinAll, Stmt.eraseAll, hfirstView, hothersView, Stmt.eraseAll]

/-- The tokens of well-formed clauses read back as the joined clauses, a default clause last. -/
theorem exists_readsCases : ∀ {clauses : List Case} {lexemes : List Lexeme} {tokens : List Token},
    Case.allWellFormed clauses → lexemes.map (·.token) = Case.listTokens clauses ++ tokens → EndsStatement tokens →
    ∃ read rest, ReadsCases read lexemes rest ∧ Case.eraseAll read = Case.eraseAll (Case.joinAll clauses) ∧
      rest.map (·.token) = tokens
  | [], lexemes, tokens, _, htokens, hend => by
    obtain ⟨token, after, rfl, -, -, -, hcase, hdefault⟩ := hend
    obtain ⟨span, rest, rfl, -⟩ := exists_lexeme_of_tokens htokens
    refine ⟨[], _, .none ?_ ?_, by rw [Case.joinAll], htokens⟩
    · rintro opening left heq
      exact hdefault (congrArg Lexeme.token (List.cons.inj heq).1)
    · rintro opening lexeme left heq
      exact hcase (congrArg Lexeme.token (List.cons.inj heq).1)
  | ⟨_, none, body⟩ :: more, lexemes, tokens, hwf, htokens, _ => by
    simp only [Case.allWellFormed, Option.all_none, Option.isSome_none, Bool.false_or, Bool.true_and,
      Bool.and_eq_true, List.isEmpty_iff] at hwf
    obtain ⟨⟨rfl, hbody⟩, -⟩ := hwf
    simp only [Case.listTokens, List.cons_append, List.append_nil] at htokens
    obtain ⟨opening, left, rfl, hleft⟩ := exists_lexeme_of_tokens htokens
    obtain ⟨read, rest, hread, hview, hrest⟩ := exists_readsBlock hbody hleft
    refine ⟨_, rest, .default hread, ?_, hrest⟩
    rw [Case.joinAll, Case.joinAll, Case.eraseAll, Case.eraseAll, hview]
    rfl
  | ⟨_, some value, body⟩ :: more, lexemes, tokens, hwf, htokens, hend => by
    simp only [Case.allWellFormed, Bool.and_eq_true] at hwf
    obtain ⟨⟨-, hbody⟩, hmore⟩ := hwf
    simp only [Case.listTokens, List.cons_append, List.append_assoc] at htokens
    obtain ⟨opening, _, rfl, hvalue⟩ := exists_lexeme_of_tokens htokens
    obtain ⟨span, left, rfl, hleft⟩ := exists_lexeme_of_tokens hvalue
    obtain ⟨read, left, hread, hview, hleft⟩ := exists_readsBlock hbody hleft
    obtain ⟨others, rest, hothers, hothersView, hrest⟩ := exists_readsCases hmore hleft hend
    refine ⟨_, rest, .case (literal?_of_token rfl) hread hothers, ?_, hrest⟩
    rw [Case.joinAll, Case.eraseAll, Case.eraseAll, hview, hothersView]
    rfl

end

end YulBackend.Parser
