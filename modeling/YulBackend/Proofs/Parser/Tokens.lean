import YulBackend.Proofs.Parser.Runs
import YulBackend.Proofs.Printer.Tokens
import YulBackend.Proofs.Syntax.Spans

namespace YulBackend.Parser

/-- Reading succeeds, what it read looks as expected, and these are the tokens that it left. -/
def Yields {α β : Type} (result : Option (α × List Lexeme)) (view : α → β) (expected : β)
    (left : List Token) : Prop :=
  ∃ read rest, result = some (read, rest) ∧ view read = expected ∧ rest.map (·.token) = left

/-- What stands behind a statement in a block: another statement or the end of the block. -/
def EndsStatement (tokens : List Token) : Prop :=
  ∃ token rest, tokens = token :: rest ∧ token ≠ .openParen ∧ token ≠ .comma ∧ token ≠ .assign ∧
    token ≠ .keyword .case ∧ token ≠ .keyword .default

theorem exists_lexeme_of_tokens {lexemes : List Lexeme} {token : Token} {tokens : List Token}
    (h : lexemes.map (·.token) = token :: tokens) :
    ∃ span rest, lexemes = ⟨token, span⟩ :: rest ∧ rest.map (·.token) = tokens := by
  obtain ⟨⟨_, span⟩, rest, rfl, rfl, hrest⟩ := List.map_eq_cons_iff.1 h
  exact ⟨span, rest, rfl, hrest⟩

/-- The tokens of a name list read back as those names when no further comma follows. -/
theorem names?_of_tokens : ∀ {names : List Identifier} {lexemes : List Lexeme} {tokens : List Token},
    names ≠ [] → lexemes.map (·.token) = Identifier.listTokens names ++ tokens →
    tokens.head? ≠ some .comma →
    Yields (names? lexemes) (List.map Identifier.eraseSpan) (names.map Identifier.eraseSpan) tokens
  | [], _, _, hne, _, _ => absurd rfl hne
  | [name], lexemes, tokens, _, htokens, hcomma => by
    rw [Identifier.listTokens, List.cons_append, List.nil_append] at htokens
    obtain ⟨span, rest, rfl, hrest⟩ := exists_lexeme_of_tokens htokens
    refine ⟨[⟨span, name.name⟩], rest, ?_, rfl, hrest⟩
    rw [names?]
    rintro span' rest' rfl
    exact hcomma (by rw [← hrest]; rfl)
  | name :: next :: more, lexemes, tokens, _, htokens, hcomma => by
    simp only [Identifier.listTokens, List.cons_append] at htokens
    obtain ⟨span, _, rfl, hcommas⟩ := exists_lexeme_of_tokens htokens
    obtain ⟨_, rest, rfl, hrest⟩ := exists_lexeme_of_tokens hcommas
    obtain ⟨read, left, hread, hview, hleft⟩ := names?_of_tokens (List.cons_ne_nil next more) hrest hcomma
    refine ⟨⟨span, name.name⟩ :: read, left, ?_, ?_, hleft⟩
    · simp [names?, hread]
    · exact congrArg (name.eraseSpan :: ·) hview

/-- The tokens of a parameter list, empty or not, and its closing parenthesis read back as the names. -/
theorem parameters?_of_tokens {names : List Identifier} {lexemes : List Lexeme} {tokens : List Token}
    (htokens : lexemes.map (·.token) = Identifier.listTokens names ++ .closeParen :: tokens) :
    Yields (parameters? lexemes) (List.map Identifier.eraseSpan) (names.map Identifier.eraseSpan) tokens := by
  cases names with
  | nil =>
    obtain ⟨_, rest, rfl, hrest⟩ := exists_lexeme_of_tokens htokens
    exact ⟨[], rest, rfl, rfl, hrest⟩
  | cons first more =>
    obtain ⟨read, left, hread, hview, hleft⟩ :=
      names?_of_tokens (List.cons_ne_nil first more) htokens (by simp)
    obtain ⟨_, rest, rfl, hrest⟩ := exists_lexeme_of_tokens hleft
    refine ⟨read, rest, ?_, hview, hrest⟩
    rw [parameters?, hread]
    · rfl
    · rintro span rest' rfl
      cases more <;> simp [Identifier.listTokens] at htokens

/-- The tokens of the return variables read back as the names, with no arrow where there are none. -/
theorem returns?_of_tokens {names : List Identifier} {lexemes : List Lexeme} {tokens : List Token}
    (htokens : lexemes.map (·.token) = Identifier.returnTokens names ++ tokens)
    (hnext : tokens.head? = some .openBrace) :
    Yields (returns? lexemes) (List.map Identifier.eraseSpan) (names.map Identifier.eraseSpan) tokens := by
  cases names with
  | nil =>
    refine ⟨[], lexemes, ?_, rfl, htokens⟩
    rw [returns?]
    rintro span rest rfl
    simp [Identifier.returnTokens] at htokens
    simp [← htokens] at hnext
  | cons first more =>
    obtain ⟨_, rest, rfl, hrest⟩ := exists_lexeme_of_tokens htokens
    exact names?_of_tokens (List.cons_ne_nil first more) hrest (by simp [hnext])

theorem literal?_of_token {value : Literal} {lexeme : Lexeme} (h : lexeme.token = value.token) :
    lexeme.literal? = some { value with span := lexeme.span } := by
  rw [Lexeme.literal?, h, Literal.token]

/-- Lexemes whose tokens do not begin with an opening parenthesis leave an identifier before them a variable. -/
theorem notOpening_of_tokens {lexemes : List Lexeme} {tokens : List Token} (h : lexemes.map (·.token) = tokens)
    (hopen : tokens.head? ≠ some .openParen) : NotOpening lexemes := by
  intro lexeme hlexeme htoken
  rw [← h, List.head?_map, Option.mem_def.1 hlexeme] at hopen
  exact hopen (congrArg some htoken)

mutual

/-- From lexemes with the tokens of an expression this expression is read, wherever no parenthesis opens behind. -/
theorem exists_readsExpr : ∀ {e : Expr} {lexemes : List Lexeme} {tokens : List Token},
    lexemes.map (·.token) = e.tokens ++ tokens → tokens.head? ≠ some .openParen →
    ∃ read rest, ReadsExpr read lexemes rest ∧ read.eraseSpans = e.eraseSpans ∧ rest.map (·.token) = tokens
  | .call _ callee arguments, lexemes, tokens, htokens, _ => by
    simp only [Expr.tokens, List.cons_append, List.append_assoc, List.nil_append] at htokens
    obtain ⟨span, _, rfl, hparen⟩ := exists_lexeme_of_tokens htokens
    obtain ⟨_, lexemes, rfl, hlexemes⟩ := exists_lexeme_of_tokens hparen
    obtain ⟨read, stop, rest, hread, hview, hrest⟩ := exists_readsArguments hlexemes
    refine ⟨_, rest, .call hread, ?_, hrest⟩
    simp only [Expr.eraseSpans, hview, Identifier.eraseSpan]
  | .identifier name, lexemes, tokens, htokens, hopen => by
    rw [Expr.tokens, List.cons_append, List.nil_append] at htokens
    obtain ⟨span, rest, rfl, hrest⟩ := exists_lexeme_of_tokens htokens
    exact ⟨_, rest, .name (notOpening_of_tokens hrest hopen), rfl, hrest⟩
  | .literal value, lexemes, tokens, htokens, _ => by
    rw [Expr.tokens, List.cons_append, List.nil_append] at htokens
    obtain ⟨span, rest, rfl, hrest⟩ := exists_lexeme_of_tokens htokens
    exact ⟨_, rest, .literal (literal?_of_token rfl), rfl, hrest⟩

/-- The tokens of an argument list and its closing parenthesis read back as the same arguments, spans aside. -/
theorem exists_readsArguments : ∀ {es : List Expr} {lexemes : List Lexeme} {tokens : List Token},
    lexemes.map (·.token) = Expr.listTokens es ++ .closeParen :: tokens →
    ∃ read stop rest, ReadsArguments read stop lexemes rest ∧ Expr.eraseAll read = Expr.eraseAll es ∧
      rest.map (·.token) = tokens
  | [], lexemes, tokens, htokens => by
    obtain ⟨span, rest, rfl, hrest⟩ := exists_lexeme_of_tokens htokens
    exact ⟨[], span.stop, rest, .none, rfl, hrest⟩
  | e :: more, lexemes, tokens, htokens => by
    rw [Expr.listTokens, List.append_assoc] at htokens
    have hopen : (Expr.moreTokens more ++ Token.closeParen :: tokens).head? ≠ some .openParen := by
      cases more <;> simp [Expr.moreTokens]
    obtain ⟨first, left, hfirst, hfirstView, hleft⟩ := exists_readsExpr htokens hopen
    obtain ⟨others, stop, rest, hothers, hothersView, hrest⟩ := exists_readsMoreArguments hleft
    refine ⟨first :: others, stop, rest, .some hfirst hothers, ?_, hrest⟩
    rw [Expr.eraseAll, hfirstView, hothersView, Expr.eraseAll]

/-- The tokens of further arguments and the closing parenthesis read back as the same arguments, spans aside. -/
theorem exists_readsMoreArguments : ∀ {es : List Expr} {lexemes : List Lexeme} {tokens : List Token},
    lexemes.map (·.token) = Expr.moreTokens es ++ .closeParen :: tokens →
    ∃ read stop rest, ReadsMoreArguments read stop lexemes rest ∧ Expr.eraseAll read = Expr.eraseAll es ∧
      rest.map (·.token) = tokens
  | [], lexemes, tokens, htokens => by
    obtain ⟨span, rest, rfl, hrest⟩ := exists_lexeme_of_tokens htokens
    exact ⟨[], span.stop, rest, .none, rfl, hrest⟩
  | e :: more, lexemes, tokens, htokens => by
    rw [Expr.moreTokens, List.cons_append, List.append_assoc] at htokens
    obtain ⟨_, lexemes, rfl, hlexemes⟩ := exists_lexeme_of_tokens htokens
    have hopen : (Expr.moreTokens more ++ Token.closeParen :: tokens).head? ≠ some .openParen := by
      cases more <;> simp [Expr.moreTokens]
    obtain ⟨next, left, hnext, hnextView, hleft⟩ := exists_readsExpr hlexemes hopen
    obtain ⟨others, stop, rest, hothers, hothersView, hrest⟩ := exists_readsMoreArguments hleft
    refine ⟨next :: others, stop, rest, .some hnext hothers, ?_, hrest⟩
    rw [Expr.eraseAll, hnextView, hothersView, Expr.eraseAll]

end

end YulBackend.Parser
