import YulBackend.Proofs.Printer.Tokens
import YulBackend.Proofs.Token.Classes

namespace YulBackend

open Grammar

namespace Grammar.Derives

theorem exists_of_append {first second : Form} {word : List Terminal} (h : Derives (first ++ second) word) :
    ∃ xs ys, word = xs ++ ys ∧ Derives first xs ∧ Derives second ys := by
  cases h with
  | sequence hfirst hsecond => exact ⟨_, _, rfl, hfirst, hsecond⟩

/-- One more in front of a list. -/
theorem comma {f : Form} {xs ys : List Terminal} (h : Derives f xs) (hrest : Derives f.commaSeparated ys) :
    Derives f.commaSeparated (xs ++ .comma :: ys) := by
  obtain ⟨first, more, rfl, hfirst, hmore⟩ := exists_of_append hrest
  exact .sequence h (.more (.sequence (.terminal .comma) hfirst) hmore)

/-- What is derived behind one token. -/
theorem token {f : Form} {xs : List Terminal} (t : Terminal) (h : Derives f xs) :
    Derives (.terminal t ++ f) (t :: xs) :=
  .sequence (.terminal t) h

end Grammar.Derives

/-- The tokens of names with commas between them are derived, if there is a name. -/
theorem Identifier.derives_listTokens : ∀ {names : List Identifier}, names ≠ [] →
    Derives (Form.commaSeparated Terminal.identifier) ((Identifier.listTokens names).map Token.terminal)
  | [_], _ => .sequence (.terminal .identifier) .stop
  | _ :: next :: rest, _ =>
    .comma (.terminal .identifier) (Identifier.derives_listTokens (List.cons_ne_nil next rest))

/-- The tokens of parameters are derived, be there any or none. -/
theorem Identifier.derives_parameters (names : List Identifier) :
    Derives Rule.parameters ((Identifier.listTokens names).map Token.terminal) := by
  cases names with
  | nil => exact .rule .absent
  | cons first rest => exact .rule (.present (Identifier.derives_listTokens (List.cons_ne_nil first rest)))

/-- The tokens of return variables are derived: none, or an arrow and the names. -/
theorem Identifier.derives_returnTokens (names : List Identifier) :
    Derives Rule.returnVariables ((Identifier.returnTokens names).map Token.terminal) := by
  cases names with
  | nil => exact .rule .absent
  | cons first rest =>
    exact .rule (.present (.token .arrow (Identifier.derives_listTokens (List.cons_ne_nil first rest))))

/-- The token of a literal is derived, in whichever of the four classes it is. -/
theorem Literal.derives (value : Literal) : Derives Rule.literal [value.token.terminal] := by
  rcases Token.terminal_literal value.kind value.value with h | h | h | h <;> rw [Literal.token, h]
  · exact .rule (.left (.terminal .hexNumber))
  · exact .rule (.right (.left (.terminal .decimalNumber)))
  · exact .rule (.right (.right (.left (.terminal .stringLiteral))))
  · exact .rule (.right (.right (.right (.terminal .boolLiteral))))

mutual

/-- The tokens of every expression are derived from the rule for expressions. -/
theorem Expr.derives : ∀ e : Expr, Derives Rule.expression (e.tokens.map Token.terminal)
  | .call span callee arguments => .rule (.left (Expr.derives_call span callee arguments))
  | .identifier _ => .rule (.right (.right (.terminal .identifier)))
  | .literal value => .rule (.right (.left value.derives))

/-- The tokens of a call are derived from the rule for calls. -/
theorem Expr.derives_call : ∀ (span : Span) (callee : Identifier) (arguments : List Expr),
    Derives Rule.functionCall ((Expr.call span callee arguments).tokens.map Token.terminal)
  | _, _, arguments => by
    rw [Expr.tokens, List.map_cons, List.map_cons, List.map_append]
    exact .rule (.sequence (.sequence (.sequence (.terminal .identifier) (.terminal .openParen))
      (Expr.derives_arguments arguments)) (.terminal .closeParen))

theorem Expr.derives_arguments : ∀ es : List Expr,
    Derives (.optional (Form.commaSeparated Rule.expression)) ((Expr.listTokens es).map Token.terminal)
  | [] => .absent
  | e :: rest => by
    rw [Expr.listTokens, List.map_append]
    exact .present (.sequence e.derives (Expr.derives_more rest))

/-- Arguments behind the first are derived with a comma in front of each. -/
theorem Expr.derives_more : ∀ es : List Expr,
    Derives (.many (Terminal.comma ++ Rule.expression)) ((Expr.moreTokens es).map Token.terminal)
  | [] => .stop
  | e :: rest => by
    rw [Expr.moreTokens, List.map_cons, List.map_append]
    exact .more (.token .comma e.derives) (Expr.derives_more rest)

end

mutual

/-- The tokens of a well-formed statement are derived from the rule for statements. -/
theorem Stmt.derives : ∀ {s : Stmt}, s.isWellFormed → Derives Rule.statement (s.tokens.map Token.terminal)
  | .block _, hwf => .rule (.left (Block.derives hwf))
  | .function _ name parameters returns body, hwf => by
    rw [Stmt.isWellFormed, Bool.and_eq_true] at hwf
    have hfunction := Derives.sequence (.sequence (.sequence (.sequence (.sequence
      (.token (.keyword .function) (.terminal .identifier)) (.terminal .openParen))
      (Identifier.derives_parameters parameters)) (.terminal .closeParen))
      (Identifier.derives_returnTokens returns)) (Block.derives hwf.2)
    refine .rule (.right (.left (.rule ?_)))
    simpa [Stmt.tokens, Rule.body] using hfunction
  | .declaration _ declared none, hwf => by
    simp only [Stmt.isWellFormed, Bool.and_eq_true, Bool.not_eq_true', List.isEmpty_eq_false_iff] at hwf
    refine .rule (.right (.right (.left (.rule ?_))))
    rw [Stmt.tokens, ← List.append_nil (List.map _ _)]
    exact .sequence (.token (.keyword .let) (Identifier.derives_listTokens hwf.1.1)) .absent
  | .declaration _ declared (some value), hwf => by
    simp only [Stmt.isWellFormed, Bool.and_eq_true, Bool.not_eq_true', List.isEmpty_eq_false_iff] at hwf
    have hvalue := Derives.token .assign value.derives
    have hdeclaration := Derives.sequence
      (.token (.keyword .let) (Identifier.derives_listTokens hwf.1.1)) (.present hvalue)
    refine .rule (.right (.right (.left (.rule ?_))))
    simpa [Stmt.tokens, Rule.body] using hdeclaration
  | .conditional _ condition body, hwf => by
    rw [Stmt.isWellFormed, Bool.and_eq_true] at hwf
    have hif := Derives.sequence (.token (.keyword .if) condition.derives) (Block.derives hwf.2)
    refine .rule (.right (.right (.right (.left (.rule ?_)))))
    simpa [Stmt.tokens, Rule.body] using hif
  | .switch _ scrutinee clauses, hwf => by
    simp only [Stmt.isWellFormed, Bool.and_eq_true, Bool.not_eq_true', List.isEmpty_eq_false_iff] at hwf
    have hswitch := Derives.sequence (.token (.keyword .switch) scrutinee.derives)
      (Case.derives_clauses hwf.1.2 hwf.2)
    refine .rule (.right (.right (.right (.right (.left (.rule ?_))))))
    simpa [Stmt.tokens, Rule.body] using hswitch
  | .loop _ pre condition post body, hwf => by
    simp only [Stmt.isWellFormed, Bool.and_eq_true] at hwf
    obtain ⟨⟨⟨hpre, -⟩, hpost⟩, hbody⟩ := hwf
    have hfor := Derives.sequence (.sequence (.sequence (.token (.keyword .for) (Block.derives hpre))
      condition.derives) (Block.derives hpost)) (Block.derives hbody)
    refine .rule (.right (.right (.right (.right (.right (.left (.rule ?_)))))))
    simpa [Stmt.tokens, Rule.body] using hfor
  | .break _, _ =>
    .rule (.right (.right (.right (.right (.right (.right (.left (.rule (.terminal _)))))))))
  | .continue _, _ =>
    .rule (.right (.right (.right (.right (.right (.right (.right (.left (.rule (.terminal _))))))))))
  | .leave _, _ =>
    .rule (.right (.right (.right (.right (.right (.right (.right (.right (.left
      (.rule (.terminal _)))))))))))
  | .assignment _ targets value, hwf => by
    simp only [Stmt.isWellFormed, Bool.and_eq_true, Bool.not_eq_true', List.isEmpty_eq_false_iff] at hwf
    have hassignment := Derives.sequence (.sequence (Identifier.derives_listTokens hwf.1.1)
      (.terminal .assign)) value.derives
    refine .rule (.right (.right (.right (.right (.right (.right (.right (.right (.right
      (.left (.rule ?_)))))))))))
    simpa [Stmt.tokens, Rule.body] using hassignment
  | .expression (.call span callee arguments), _ =>
    .rule (.right (.right (.right (.right (.right (.right (.right (.right (.right
      (.right (.rule (Expr.derives_call span callee arguments))))))))))))
  | .expression (.identifier _), hwf => by cases hwf
  | .expression (.literal _), hwf => by cases hwf

/-- The tokens of a well-formed block are derived from the rule for blocks. -/
theorem Block.derives : ∀ {b : Block}, b.isWellFormed → Derives Rule.block (b.tokens.map Token.terminal)
  | ⟨_, statements⟩, hwf => by
    have hblock := Derives.sequence (.token .openBrace (Stmt.derives_list hwf)) (.terminal .closeBrace)
    refine .rule ?_
    simpa [Block.tokens, Rule.body] using hblock

/-- The tokens of well-formed statements in a row are derived from the repetition of statements. -/
theorem Stmt.derives_list : ∀ {ss : List Stmt}, Stmt.allWellFormed ss →
    Derives (.many Rule.statement) ((Stmt.listTokens ss).map Token.terminal)
  | [], _ => .stop
  | s :: rest, hwf => by
    rw [Stmt.allWellFormed, Bool.and_eq_true] at hwf
    rw [Stmt.listTokens, List.map_append]
    exact .more (Stmt.derives hwf.1) (Stmt.derives_list hwf.2)

theorem Case.derives_default : ∀ {body : Block}, body.isWellFormed →
    Derives Rule.defaultClause (.keyword .default :: body.tokens.map Token.terminal)
  | _, hwf => .rule (.token (.keyword .default) (Block.derives hwf))

theorem Case.derives_case : ∀ (value : Literal) {body : Block}, body.isWellFormed →
    Derives Rule.caseClause
      (.keyword .case :: value.token.terminal :: body.tokens.map Token.terminal)
  | value, _, hwf => .rule (.sequence (.token (.keyword .case) value.derives) (Block.derives hwf))

/-- Cases, and perhaps a default behind them. -/
theorem Case.derives_more : ∀ {clauses : List Case}, Case.allWellFormed clauses →
    Derives (.many Rule.caseClause ++ .optional Rule.defaultClause)
      ((Case.listTokens clauses).map Token.terminal)
  | [], _ => .sequence .stop .absent
  | ⟨_, none, body⟩ :: rest, hwf => by
    simp only [Case.allWellFormed, Option.all_none, Option.isSome_none, Bool.false_or, Bool.true_and,
      Bool.and_eq_true, List.isEmpty_iff] at hwf
    obtain ⟨⟨rfl, hbody⟩, -⟩ := hwf
    rw [Case.listTokens, Case.listTokens, List.append_nil]
    exact .sequence .stop (.present (Case.derives_default hbody))
  | ⟨_, some value, body⟩ :: rest, hwf => by
    simp only [Case.allWellFormed, Bool.and_eq_true] at hwf
    rw [Case.listTokens]
    obtain ⟨xs, ys, hrest, hcases, hdefault⟩ := (Case.derives_more hwf.2).exists_of_append
    rw [List.map_cons, List.map_cons, List.map_append, hrest]
    simpa using Derives.sequence (.more (Case.derives_case value hwf.1.2) hcases) hdefault

/-- The tokens of clauses are derived: one case or more and at most one default clause behind them, or a default clause
alone. -/
theorem Case.derives_clauses : ∀ {clauses : List Case}, clauses ≠ [] → Case.allWellFormed clauses →
    Derives (Form.oneOrMore Rule.caseClause ++ .optional Rule.defaultClause <|> Rule.defaultClause)
      ((Case.listTokens clauses).map Token.terminal)
  | ⟨_, none, body⟩ :: rest, _, hwf => by
    simp only [Case.allWellFormed, Option.all_none, Option.isSome_none, Bool.false_or, Bool.true_and,
      Bool.and_eq_true, List.isEmpty_iff] at hwf
    obtain ⟨⟨rfl, hbody⟩, -⟩ := hwf
    rw [Case.listTokens, Case.listTokens, List.append_nil]
    exact .right (Case.derives_default hbody)
  | ⟨_, some value, body⟩ :: rest, _, hwf => by
    simp only [Case.allWellFormed, Bool.and_eq_true] at hwf
    rw [Case.listTokens]
    obtain ⟨xs, ys, hrest, hcases, hdefault⟩ := (Case.derives_more hwf.2).exists_of_append
    rw [List.map_cons, List.map_cons, List.map_append, hrest]
    refine .left ?_
    simpa [Form.oneOrMore] using Derives.sequence (.sequence (Case.derives_case value hwf.1.2) hcases) hdefault

end

/-- The token sequences of the trees that a rule is about. -/
def Grammar.Rule.Denotes : Rule → List Token → Prop
  | block, word => ∃ b : Block, b.isWellFormed ∧ b.tokens = word
  | parameters, word => ∃ names : List Identifier,
    names.all (·.isWellFormed) ∧ Identifier.listTokens names = word
  | returnVariables, word => ∃ names : List Identifier,
    names.all (·.isWellFormed) ∧ Identifier.returnTokens names = word
  | caseClause, word => ∃ (value : Literal) (body : Block), value.isWellFormed ∧ body.isWellFormed ∧
    .keyword .case :: value.token :: body.tokens = word
  | defaultClause, word => ∃ body : Block, body.isWellFormed ∧ .keyword .default :: body.tokens = word
  | expression, word => ∃ e : Expr, e.isWellFormed ∧ e.tokens = word
  | functionCall, word => ∃ e : Expr, e.isCall ∧ e.isWellFormed ∧ e.tokens = word
  | literal, word => ∃ value : Literal, value.isWellFormed ∧ [value.token] = word
  | _, word => ∃ s : Stmt, s.isWellFormed ∧ s.tokens = word

/-- What a form stands for among the tokens of a text, if every rule stands for its trees. -/
def Grammar.Form.Reads (f : Form) (word : List Token) : Prop :=
  f.Holds Token.terminal (fun token => token.isProper) Rule.Denotes word

namespace Grammar

variable {word : List Token}

@[simp]
theorem Form.reads_append {first second : Form} : (first ++ second).Reads word ↔
    ∃ xs ys, word = xs ++ ys ∧ first.Reads xs ∧ second.Reads ys :=
  Iff.rfl

@[simp]
theorem Form.reads_orElse {first second : Form} :
    (first <|> second).Reads word ↔ first.Reads word ∨ second.Reads word :=
  Iff.rfl

@[simp]
theorem Form.reads_rule {r : Rule} : (rule r).Reads word ↔ r.Denotes word := Iff.rfl

theorem Form.Reads.eq_token {t : Terminal} (h : (Form.terminal t).Reads word) (token : Token)
    (htoken : t.token? = some token) : word = [token] := by
  obtain ⟨token', hterminal, -, rfl⟩ := h
  rw [Token.eq_of_terminal htoken hterminal]

theorem Form.Reads.exists_name (h : (Form.terminal .identifier).Reads word) :
    ∃ name : Identifier, name.isWellFormed ∧ word = [.identifier name.name] := by
  obtain ⟨token, hterminal, hproper, rfl⟩ := h
  obtain ⟨name, rfl⟩ := Token.exists_identifier hterminal
  exact ⟨⟨{}, name⟩, hproper, rfl⟩

/-- What stands behind a token that has its class to itself. -/
theorem Form.Reads.exists_of_token {t : Terminal} {f : Form} (h : (Form.terminal t ++ f).Reads word)
    (token : Token) (htoken : t.token? = some token) : ∃ rest, word = token :: rest ∧ f.Reads rest := by
  obtain ⟨xs, rest, rfl, hxs, hrest⟩ := Form.reads_append.1 h
  exact ⟨rest, by rw [hxs.eq_token token htoken, List.singleton_append], hrest⟩

theorem Form.Reads.many_induction {body : Form} (h : (many body).Reads word) {motive : List Token → Prop}
    (nil : motive []) (cons : ∀ xs ys, body.Reads xs → motive ys → motive (xs ++ ys)) : motive word :=
  Form.Holds.many_induction nil cons h

/-- What names with commas between them read is the tokens of a list of names, with one at least. -/
theorem Form.Reads.exists_names (h : (Form.commaSeparated Terminal.identifier).Reads word) :
    ∃ names : List Identifier, names ≠ [] ∧ names.all (·.isWellFormed) ∧
      Identifier.listTokens names = word := by
  obtain ⟨xs, ys, rfl, hxs, hys⟩ := Form.reads_append.1 h
  obtain ⟨first, hfirst, rfl⟩ := hxs.exists_name
  refine hys.many_induction (motive := fun word => ∀ first : Identifier, first.isWellFormed →
    ∃ names : List Identifier, names ≠ [] ∧ names.all (·.isWellFormed) ∧
      Identifier.listTokens names = .identifier first.name :: word) ?_ ?_ first hfirst
  · intro first hfirst
    exact ⟨[first], by simp, by simpa using hfirst, rfl⟩
  · intro xs ys hpart ih first hfirst
    obtain ⟨rest, rfl, hrest⟩ := hpart.exists_of_token .comma rfl
    obtain ⟨next, hnext, rfl⟩ := hrest.exists_name
    obtain ⟨names, hne, hnames, htokens⟩ := ih next hnext
    refine ⟨first :: names, by simp, by simp [hfirst, hnames], ?_⟩
    cases names with
    | nil => exact absurd rfl hne
    | cons name names => simp [Identifier.listTokens, htokens]

/-- What commas with expressions behind them read is the tokens of arguments behind the first. -/
theorem Form.Reads.exists_more (h : (Form.many (Terminal.comma ++ Rule.expression)).Reads word) :
    ∃ es : List Expr, Expr.allWellFormed es ∧ Expr.moreTokens es = word := by
  refine h.many_induction (motive := fun word =>
    ∃ es : List Expr, Expr.allWellFormed es ∧ Expr.moreTokens es = word) ⟨[], rfl, rfl⟩ ?_
  intro xs ys hpart ih
  obtain ⟨rest, rfl, e, he, rfl⟩ := hpart.exists_of_token .comma rfl
  obtain ⟨es, hes, rfl⟩ := ih
  refine ⟨e :: es, ?_, ?_⟩
  · rw [Expr.allWellFormed, he, hes, Bool.and_self]
  · rw [Expr.moreTokens, List.cons_append]

/-- What optional arguments read is the tokens of some expressions. -/
theorem Form.Reads.exists_arguments (h : (Form.optional (Form.commaSeparated Rule.expression)).Reads word) :
    ∃ es : List Expr, Expr.allWellFormed es ∧ Expr.listTokens es = word := by
  rcases h with rfl | ⟨xs, ys, rfl, ⟨e, he, rfl⟩, hys⟩
  · exact ⟨[], rfl, rfl⟩
  · obtain ⟨es, hes, rfl⟩ := Form.Reads.exists_more hys
    refine ⟨e :: es, ?_, ?_⟩
    · rw [Expr.allWellFormed, he, hes, Bool.and_self]
    · rw [Expr.listTokens]

/-- What a repetition of statements reads is the tokens of well-formed statements. -/
theorem Form.Reads.exists_statements (h : (Form.many Rule.statement).Reads word) :
    ∃ ss : List Stmt, Stmt.allWellFormed ss ∧ Stmt.listTokens ss = word := by
  refine h.many_induction (motive := fun word =>
    ∃ ss : List Stmt, Stmt.allWellFormed ss ∧ Stmt.listTokens ss = word) ⟨[], rfl, rfl⟩ ?_
  intro xs ys hpart ih
  obtain ⟨s, hs, rfl⟩ := hpart
  obtain ⟨ss, hss, rfl⟩ := ih
  refine ⟨s :: ss, ?_, ?_⟩
  · rw [Stmt.allWellFormed, hs, hss, Bool.and_self]
  · rw [Stmt.listTokens]

/-- One more case in front of clauses. -/
theorem Rule.Denotes.cons_case (h : Rule.caseClause.Denotes word) {clauses : List Case}
    (hclauses : Case.allWellFormed clauses) : ∃ clause, Case.allWellFormed (clause :: clauses) ∧
      Case.listTokens (clause :: clauses) = word ++ Case.listTokens clauses := by
  obtain ⟨value, body, hvalue, hbody, rfl⟩ := h
  refine ⟨⟨{}, some value, body⟩, ?_, ?_⟩
  · simp [Case.allWellFormed, hvalue, hbody, hclauses]
  · simp [Case.listTokens]

theorem Form.Reads.exists_default (h : (Form.optional Rule.defaultClause).Reads word) :
    ∃ clauses : List Case, Case.allWellFormed clauses ∧ Case.listTokens clauses = word := by
  rcases h with rfl | ⟨body, hbody, rfl⟩
  · exact ⟨[], rfl, rfl⟩
  · exact ⟨[⟨{}, none, body⟩], by simp [Case.allWellFormed, hbody], by simp [Case.listTokens]⟩

/-- What a repetition of cases reads, with clauses behind it, is the tokens of well-formed clauses. -/
theorem Form.Reads.exists_cases (h : (Form.many Rule.caseClause).Reads word) {tail : List Case}
    (htail : Case.allWellFormed tail) :
    ∃ clauses : List Case, Case.allWellFormed clauses ∧
      Case.listTokens clauses = word ++ Case.listTokens tail := by
  refine h.many_induction (motive := fun word => ∃ clauses : List Case, Case.allWellFormed clauses ∧
    Case.listTokens clauses = word ++ Case.listTokens tail) ⟨tail, htail, rfl⟩ ?_
  intro xs ys hpart ih
  obtain ⟨clauses, hclauses, htokens⟩ := ih
  obtain ⟨clause, hclause, htokens'⟩ := Rule.Denotes.cons_case hpart hclauses
  exact ⟨clause :: clauses, hclause, by rw [htokens', htokens, List.append_assoc]⟩

/-- What the clauses of a `switch` read is the tokens of well-formed clauses, with one at least. -/
theorem Form.Reads.exists_clauses
    (h : (Form.oneOrMore Rule.caseClause ++ .optional Rule.defaultClause <|> (Rule.defaultClause : Form)).Reads
      word) :
    ∃ clauses : List Case, clauses ≠ [] ∧ Case.allWellFormed clauses ∧ Case.listTokens clauses = word := by
  rcases h with ⟨_, zs, rfl, ⟨xs, ys, rfl, hxs, hys⟩, hzs⟩ | ⟨body, hbody, rfl⟩
  · obtain ⟨tail, htail, rfl⟩ := Form.Reads.exists_default hzs
    obtain ⟨clauses, hclauses, htokens⟩ := Form.Reads.exists_cases hys htail
    obtain ⟨clause, hclause, htokens'⟩ := Rule.Denotes.cons_case hxs hclauses
    exact ⟨clause :: clauses, by simp, hclause, by rw [htokens', htokens, List.append_assoc]⟩
  · exact ⟨[⟨{}, none, body⟩], by simp, by simp [Case.allWellFormed, hbody], by simp [Case.listTokens]⟩

/-- What the right-hand side of a block reads is the tokens of a well-formed block. -/
theorem Rule.denotes_block (h : Rule.block.body.Reads word) : Rule.block.Denotes word := by
  obtain ⟨_, zs, rfl, hopen, hclose⟩ := Form.reads_append.1 h
  obtain ⟨ys, rfl, hstatements⟩ := hopen.exists_of_token .openBrace rfl
  obtain ⟨ss, hss, rfl⟩ := hstatements.exists_statements
  rw [hclose.eq_token .closeBrace rfl]
  exact ⟨⟨{}, ss⟩, hss, by rw [Block.tokens, List.cons_append]⟩

/-- Whichever alternative of a statement reads a word, it is the tokens of a well-formed statement. -/
theorem Rule.denotes_statement (h : Rule.statement.body.Reads word) : Rule.statement.Denotes word := by
  simp only [body, Form.reads_orElse, Form.reads_rule] at h
  rcases h with ⟨b, hb, rfl⟩ | h | h | h | h | h | h | h | h | h | h
  · exact ⟨.block b, hb, rfl⟩
  all_goals exact h

/-- What a function definition reads is the tokens of a well-formed function. -/
theorem Rule.denotes_functionDefinition (h : Rule.functionDefinition.body.Reads word) :
    Rule.functionDefinition.Denotes word := by
  simp only [body, Form.reads_append, Form.reads_rule] at h
  obtain ⟨_, _, rfl, ⟨_, _, rfl, ⟨_, _, rfl, ⟨_, _, rfl, ⟨_, _, rfl, ⟨_, _, rfl, hkeyword, hname⟩, hopen⟩,
    parameters, hparameters, rfl⟩, hclose⟩, returns, hreturns, rfl⟩, body, hbody, rfl⟩ := h
  obtain ⟨name, hwf, rfl⟩ := hname.exists_name
  rw [hkeyword.eq_token (.keyword .function) rfl, hopen.eq_token .openParen rfl,
    hclose.eq_token .closeParen rfl]
  refine ⟨.function {} name.name parameters returns body, ?_, by simp [Stmt.tokens]⟩
  rw [Stmt.isWellFormed, hparameters, hreturns, hbody]
  exact Bool.and_eq_true_iff.2 ⟨by simpa [Identifier.isWellFormed] using hwf, rfl⟩

theorem Rule.denotes_parameters (h : Rule.parameters.body.Reads word) : Rule.parameters.Denotes word := by
  rcases h with rfl | h
  · exact ⟨[], rfl, rfl⟩
  · obtain ⟨names, -, hnames, rfl⟩ := Form.Reads.exists_names h
    exact ⟨names, hnames, rfl⟩

theorem Rule.denotes_returnVariables (h : Rule.returnVariables.body.Reads word) :
    Rule.returnVariables.Denotes word := by
  rcases h with rfl | h
  · exact ⟨[], rfl, rfl⟩
  · obtain ⟨_, rfl, hnames⟩ := Form.Reads.exists_of_token h .arrow rfl
    obtain ⟨names, hne, hwf, rfl⟩ := hnames.exists_names
    exact ⟨names, hwf, by simp [Identifier.returnTokens, hne]⟩

/-- What a declaration reads is the tokens of a well-formed one, with or without an initialiser. -/
theorem Rule.denotes_variableDeclaration (h : Rule.variableDeclaration.body.Reads word) :
    Rule.variableDeclaration.Denotes word := by
  obtain ⟨_, _, rfl, hfront, hvalue⟩ := Form.reads_append.1 h
  obtain ⟨_, rfl, hnames⟩ := hfront.exists_of_token (.keyword .let) rfl
  obtain ⟨names, hne, hwf, rfl⟩ := hnames.exists_names
  rcases hvalue with rfl | hvalue
  · exact ⟨.declaration {} names none, by simp [Stmt.isWellFormed, hne, hwf],
      by simp [Stmt.tokens]⟩
  · obtain ⟨_, rfl, e, he, rfl⟩ := Form.Reads.exists_of_token hvalue .assign rfl
    exact ⟨.declaration {} names (some e), by simp [Stmt.isWellFormed, hne, hwf, he],
      by simp [Stmt.tokens]⟩

theorem Rule.denotes_assignment (h : Rule.assignment.body.Reads word) : Rule.assignment.Denotes word := by
  simp only [body, Form.reads_append, Form.reads_rule] at h
  obtain ⟨_, _, rfl, ⟨_, _, rfl, hnames, hassign⟩, e, he, rfl⟩ := h
  obtain ⟨names, hne, hwf, rfl⟩ := hnames.exists_names
  rw [hassign.eq_token .assign rfl]
  exact ⟨.assignment {} names e, by simp [Stmt.isWellFormed, hne, hwf, he],
    by simp [Stmt.tokens]⟩

theorem Rule.denotes_ifStatement (h : Rule.ifStatement.body.Reads word) : Rule.ifStatement.Denotes word := by
  simp only [body, Form.reads_append, Form.reads_rule] at h
  obtain ⟨_, _, rfl, ⟨_, _, rfl, hkeyword, condition, hcondition, rfl⟩, body, hbody, rfl⟩ := h
  rw [hkeyword.eq_token (.keyword .if) rfl]
  exact ⟨.conditional {} condition body, by rw [Stmt.isWellFormed, hcondition, hbody, Bool.and_self],
    by simp [Stmt.tokens]⟩

/-- What a `switch` reads is the tokens of a well-formed one, with one clause at least. -/
theorem Rule.denotes_switchStatement (h : Rule.switchStatement.body.Reads word) :
    Rule.switchStatement.Denotes word := by
  obtain ⟨_, _, rfl, hfront, hclauses⟩ := Form.reads_append.1 h
  obtain ⟨_, rfl, scrutinee, hscrutinee, rfl⟩ := hfront.exists_of_token (.keyword .switch) rfl
  obtain ⟨clauses, hne, hwf, rfl⟩ := hclauses.exists_clauses
  exact ⟨.switch {} scrutinee clauses, by simp [Stmt.isWellFormed, hscrutinee, hne, hwf],
    by simp [Stmt.tokens]⟩

theorem Rule.denotes_caseClause (h : Rule.caseClause.body.Reads word) : Rule.caseClause.Denotes word := by
  simp only [body, Form.reads_append, Form.reads_rule] at h
  obtain ⟨_, _, rfl, ⟨_, _, rfl, hkeyword, value, hvalue, rfl⟩, body, hbody, rfl⟩ := h
  rw [hkeyword.eq_token (.keyword .case) rfl]
  exact ⟨value, body, hvalue, hbody, rfl⟩

theorem Rule.denotes_defaultClause (h : Rule.defaultClause.body.Reads word) :
    Rule.defaultClause.Denotes word := by
  obtain ⟨_, rfl, body, hbody, rfl⟩ := Form.Reads.exists_of_token h (.keyword .default) rfl
  exact ⟨body, hbody, rfl⟩

/-- What a loop reads is the tokens of a well-formed loop. -/
theorem Rule.denotes_forLoop (h : Rule.forLoop.body.Reads word) : Rule.forLoop.Denotes word := by
  simp only [body, Form.reads_append, Form.reads_rule] at h
  obtain ⟨_, _, rfl, ⟨_, _, rfl, ⟨_, _, rfl, ⟨_, _, rfl, hkeyword, pre, hpre, rfl⟩, condition, hcondition, rfl⟩,
    post, hpost, rfl⟩, body, hbody, rfl⟩ := h
  rw [hkeyword.eq_token (.keyword .for) rfl]
  exact ⟨.loop {} pre condition post body, by simp [Stmt.isWellFormed, hpre, hcondition, hpost, hbody],
    by simp [Stmt.tokens]⟩

/-- What a call reads is the tokens of a call. -/
theorem Rule.denotes_functionCall (h : Rule.functionCall.body.Reads word) :
    Rule.functionCall.Denotes word := by
  simp only [body, Form.reads_append] at h
  obtain ⟨_, _, rfl, ⟨_, _, rfl, ⟨_, _, rfl, hname, hopen⟩, harguments⟩, hclose⟩ := h
  obtain ⟨name, hwf, rfl⟩ := hname.exists_name
  obtain ⟨es, hes, rfl⟩ := harguments.exists_arguments
  rw [hopen.eq_token .openParen rfl, hclose.eq_token .closeParen rfl]
  exact ⟨.call {} name es, rfl, by rw [Expr.isWellFormed, hwf, hes, Bool.and_self], by simp [Expr.tokens]⟩

theorem Rule.denotes_literal (h : Rule.literal.body.Reads word) : Rule.literal.Denotes word := by
  obtain ⟨token, hproper, hclass, rfl⟩ : ∃ token : Token, token.isProper ∧
      (token.terminal = .hexNumber ∨ token.terminal = .decimalNumber ∨ token.terminal = .stringLiteral ∨
        token.terminal = .boolLiteral) ∧ word = [token] := by
    rcases h with ⟨token, hclass, hproper, rfl⟩ | ⟨token, hclass, hproper, rfl⟩ |
      ⟨token, hclass, hproper, rfl⟩ | ⟨token, hclass, hproper, rfl⟩ <;>
      exact ⟨token, hproper, by simp [hclass], rfl⟩
  obtain ⟨kind, value, rfl⟩ := Token.exists_literal hproper hclass
  exact ⟨{ kind, value }, hproper, rfl⟩

/-- Whichever alternative of an expression reads a word, it is the tokens of an expression. -/
theorem Rule.denotes_expression (h : Rule.expression.body.Reads word) : Rule.expression.Denotes word := by
  rcases h with ⟨e, -, he, rfl⟩ | ⟨value, hvalue, rfl⟩ | h
  · exact ⟨e, he, rfl⟩
  · exact ⟨.literal value, hvalue, by rw [Expr.tokens]⟩
  · obtain ⟨name, hname, rfl⟩ := Form.Reads.exists_name h
    exact ⟨.identifier name, hname, by rw [Expr.tokens]⟩

/-- Whatever a right-hand side stands for is the tokens of a tree. -/
theorem Rule.denotes_of_body (r : Rule) (word : List Token) (h : r.body.Reads word) : r.Denotes word := by
  cases r with
  | block => exact denotes_block h
  | statement => exact denotes_statement h
  | functionDefinition => exact denotes_functionDefinition h
  | parameters => exact denotes_parameters h
  | returnVariables => exact denotes_returnVariables h
  | variableDeclaration => exact denotes_variableDeclaration h
  | assignment => exact denotes_assignment h
  | expressionStatement =>
    obtain ⟨e, hcall, he, rfl⟩ := h
    exact ⟨.expression e, by rw [Stmt.isWellFormed, hcall, he, Bool.and_self], by rw [Stmt.tokens]⟩
  | ifStatement => exact denotes_ifStatement h
  | switchStatement => exact denotes_switchStatement h
  | caseClause => exact denotes_caseClause h
  | defaultClause => exact denotes_defaultClause h
  | forLoop => exact denotes_forLoop h
  | breakStatement =>
    exact ⟨.break {}, rfl, by rw [Form.Reads.eq_token h (.keyword .break) rfl, Stmt.tokens]⟩
  | continueStatement =>
    exact ⟨.continue {}, rfl, by rw [Form.Reads.eq_token h (.keyword .continue) rfl, Stmt.tokens]⟩
  | leaveStatement =>
    exact ⟨.leave {}, rfl, by rw [Form.Reads.eq_token h (.keyword .leave) rfl, Stmt.tokens]⟩
  | expression => exact denotes_expression h
  | functionCall => exact denotes_functionCall h
  | literal => exact denotes_literal h

/-- The grammar derives the tokens of well-formed blocks and nothing else. -/
theorem derives_block_iff {tokens : List Token} (hproper : ∀ token ∈ tokens, token.isProper) :
    Derives Rule.block (tokens.map Token.terminal) ↔ ∃ b : Block, b.isWellFormed ∧ b.tokens = tokens := by
  refine ⟨fun h => h.holds Rule.denotes_of_body hproper rfl, ?_⟩
  rintro ⟨b, hb, rfl⟩
  exact Block.derives hb

end Grammar

end YulBackend
