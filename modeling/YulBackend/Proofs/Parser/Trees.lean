import YulBackend.Proofs.Parser.Tokens
import YulBackend.Proofs.Token.Classes

namespace YulBackend

/-- A token as it counts in the grammar: a string literal with an invalid escape stands for an empty one. -/
def Token.mended : Token → Token
  | badString _ => literal .string ""
  | token => token

/-- Mending leaves a proper token alone, so the tokens of a faultless text are their own mended ones. -/
theorem Token.mended_of_isProper {token : Token} (h : token.isProper) : token.mended = token := by
  cases token with
  | badString _ => cases h
  | _ => rfl

theorem Token.terminal_mended (token : Token) : token.mended.terminal = token.terminal := by
  cases token <;> rfl

/-- A token with a fault is the marker for a string with that bad escape. -/
theorem Token.eq_badString {token : Token} {escape : String} (h : token.fault? = some escape) :
    token = badString escape := by
  cases token with
  | badString _ => exact congrArg badString (Option.some.inj h)
  | _ => cases h

namespace Parser

/-- Reading left `rest` and took these tokens. -/
def Takes (lexemes rest : List Lexeme) (tokens : List Token) : Prop :=
  lexemes.map (·.token.mended) = tokens ++ rest.map (·.token.mended)

/-- Lexemes that are spelt as the grammar spells them, whatever the escapes in their strings. -/
def AllProper (lexemes : List Lexeme) : Prop := ∀ token ∈ lexemes.map (·.token.mended), token.isProper

section

variable {lexemes rest : List Lexeme} {tokens : List Token}

/-- The lexemes left over by a reading are proper when all of them were. -/
theorem AllProper.left (h : AllProper lexemes) (htakes : Takes lexemes rest tokens) : AllProper rest := by
  intro token htoken
  refine h token ?_
  rw [htakes]
  exact List.mem_append_right tokens htoken

theorem AllProper.tail {lexeme : Lexeme} (h : AllProper (lexeme :: rest)) : AllProper rest :=
  fun token htoken => h token (List.mem_cons_of_mem _ htoken)

theorem AllProper.head {lexeme : Lexeme} (h : AllProper (lexeme :: rest)) : lexeme.token.mended.isProper :=
  h _ List.mem_cons_self

theorem takes_nil : Takes lexemes lexemes [] := rfl

theorem Takes.cons (h : Takes lexemes rest tokens) (lexeme : Lexeme) :
    Takes (lexeme :: lexemes) rest (lexeme.token.mended :: tokens) :=
  congrArg (lexeme.token.mended :: ·) h

theorem Takes.append {lexemes' : List Lexeme} {tokens' : List Token} (h : Takes lexemes lexemes' tokens)
    (h' : Takes lexemes' rest tokens') : Takes lexemes rest (tokens ++ tokens') := by
  rw [Takes, h, h', List.append_assoc]

/-- The names that `names?` reads are well formed, and it takes just their tokens. -/
theorem names?_eq_some {names : List Identifier} (hproper : AllProper lexemes)
    (h : names? lexemes = some (names, rest)) :
    names ≠ [] ∧ names.all (·.isWellFormed) ∧ Takes lexemes rest (Identifier.listTokens names) := by
  fun_induction names? lexemes generalizing names with
  | case1 name span _ left ih =>
    obtain ⟨⟨others, left'⟩, hothers, heq⟩ := Option.bind_eq_some_iff.1 h
    cases heq
    obtain ⟨hne, hwf, htakes⟩ := ih hproper.tail.tail hothers
    refine ⟨List.cons_ne_nil _ _, ?_, ?_⟩
    · rw [List.all_cons, hwf, Bool.and_true]
      exact hproper.head
    · cases others with
      | nil => exact absurd rfl hne
      | cons next others => exact (htakes.cons _).cons _
  | case2 name span left _ =>
    cases h
    refine ⟨List.cons_ne_nil _ _, ?_, takes_nil.cons _⟩
    rw [List.all_cons, List.all_nil, Bool.and_true]
    exact hproper.head
  | case3 => cases h

/-- The parameters that `parameters?` reads are well formed, and it takes just their tokens and the closing
parenthesis. -/
theorem parameters?_eq_some {names : List Identifier} (hproper : AllProper lexemes)
    (h : parameters? lexemes = some (names, rest)) :
    names.all (·.isWellFormed) ∧ Takes lexemes rest (Identifier.listTokens names ++ [.closeParen]) := by
  unfold parameters? at h
  split at h
  · cases h
    exact ⟨rfl, takes_nil.cons _⟩
  · obtain ⟨⟨names', left⟩, hnames, h⟩ := Option.bind_eq_some_iff.1 h
    obtain ⟨-, hwf, htakes⟩ := names?_eq_some hproper hnames
    dsimp only at h
    split at h
    · cases h
      exact ⟨hwf, htakes.append (takes_nil.cons _)⟩
    · cases h

/-- The return variables that `returns?` reads are well formed, and it takes just their tokens. -/
theorem returns?_eq_some {names : List Identifier} (hproper : AllProper lexemes)
    (h : returns? lexemes = some (names, rest)) :
    names.all (·.isWellFormed) ∧ Takes lexemes rest (Identifier.returnTokens names) := by
  unfold returns? at h
  split at h
  · obtain ⟨hne, hwf, htakes⟩ := names?_eq_some hproper.tail h
    refine ⟨hwf, ?_⟩
    rw [Identifier.returnTokens, if_neg (by simpa using hne)]
    exact htakes.cons _
  · cases h
    exact ⟨rfl, takes_nil⟩

/-- The literal read from a proper lexeme is well formed and has the lexeme's token. -/
theorem literal?_eq_some {lexeme : Lexeme} {value : Literal} (hproper : lexeme.token.mended.isProper)
    (h : lexeme.literal? = some value) : value.isWellFormed ∧ lexeme.token.mended = value.token := by
  obtain ⟨token, span⟩ := lexeme
  cases token with
  | literal kind text =>
    cases h
    exact ⟨hproper, rfl⟩
  | badString _ =>
    cases h
    exact ⟨rfl, rfl⟩
  | _ => cases h

end

mutual

/-- An expression that is read is well-formed, and reading it took its tokens. -/
theorem ReadsExpr.takes : ∀ {e : Expr} {lexemes rest : List Lexeme}, ReadsExpr e lexemes rest → AllProper lexemes →
    e.isWellFormed ∧ Takes lexemes rest e.tokens
  | _, _, _, .call h, hproper => by
    obtain ⟨hwf, htakes⟩ := h.takes hproper.tail.tail
    refine ⟨?_, (htakes.cons _).cons _⟩
    rw [Expr.isWellFormed, hwf, Bool.and_true]
    exact hproper.head
  | _, _, _, .name _, hproper => ⟨hproper.head, takes_nil.cons _⟩
  | _, _, _, .literal hvalue, hproper => by
    obtain ⟨hwf, htoken⟩ := literal?_eq_some hproper.head hvalue
    refine ⟨hwf, ?_⟩
    rw [Expr.tokens, ← htoken]
    exact takes_nil.cons _

/-- The arguments that `arguments?` reads are well formed, and it takes just their tokens and the closing
parenthesis. -/
theorem ReadsArguments.takes : ∀ {es : List Expr} {stop : Nat} {lexemes rest : List Lexeme},
    ReadsArguments es stop lexemes rest → AllProper lexemes →
    Expr.allWellFormed es ∧ Takes lexemes rest (Expr.listTokens es ++ [.closeParen])
  | _, _, _, _, .none, _ => ⟨rfl, takes_nil.cons _⟩
  | _, _, _, _, .some h h', hproper => by
    obtain ⟨hwf, htakes⟩ := h.takes hproper
    obtain ⟨hwf', htakes'⟩ := h'.takes (hproper.left htakes)
    refine ⟨by rw [Expr.allWellFormed, hwf, hwf', Bool.and_self], ?_⟩
    rw [Expr.listTokens, List.append_assoc]
    exact htakes.append htakes'

/-- The further arguments that `moreArguments?` reads are well formed, and it takes just their tokens and the closing
parenthesis. -/
theorem ReadsMoreArguments.takes : ∀ {es : List Expr} {stop : Nat} {lexemes rest : List Lexeme},
    ReadsMoreArguments es stop lexemes rest → AllProper lexemes →
    Expr.allWellFormed es ∧ Takes lexemes rest (Expr.moreTokens es ++ [.closeParen])
  | _, _, _, _, .none, _ => ⟨rfl, takes_nil.cons _⟩
  | _, _, _, _, .some h h', hproper => by
    obtain ⟨hwf, htakes⟩ := h.takes hproper.tail
    obtain ⟨hwf', htakes'⟩ := h'.takes (hproper.tail.left htakes)
    refine ⟨by rw [Expr.allWellFormed, hwf, hwf', Bool.and_self], ?_⟩
    rw [Expr.moreTokens, List.cons_append, List.append_assoc]
    exact (htakes.append htakes').cons _

end

/-- What `declaration` builds comes from a well-formed declaration, the one with the value still in place. -/
theorem exists_of_declaration {names : List Identifier} (span : Span) (value : Option Expr) (hne : names ≠ [])
    (hnames : names.all (·.isWellFormed)) (hvalue : value.all (·.isWellFormed)) :
    (Stmt.declaration span names value).isWellFormed ∧
      (Stmt.declaration span names value).joinInitialisers = declaration span names value := by
  refine ⟨?_, by rw [Stmt.joinInitialisers]⟩
  rw [Stmt.isWellFormed, hnames, hvalue]
  simpa using hne

mutual

/-- A statement that is read is a tree of its own tokens, with the bare initialisers joined. The tree is not the
one that is read: in that one a joined name no longer stands behind `:=`. -/
theorem ReadsStmt.exists_tree : ∀ {s : Stmt} {lexemes rest : List Lexeme}, ReadsStmt s lexemes rest →
    AllProper lexemes →
    ∃ tree : Stmt, tree.isWellFormed ∧ tree.joinInitialisers = s ∧ Takes lexemes rest tree.tokens
  | _, _, _, .block h, hproper => by
    obtain ⟨tree, hwf, hjoin, htakes⟩ := h.exists_tree hproper
    exact ⟨.block tree, hwf, by rw [Stmt.joinInitialisers, hjoin], htakes⟩
  | _, _, _, @ReadsStmt.function name opening _ _ parameters returns body _ _ _ _ hparameters hreturns h, hproper => by
    have hproper₀ := hproper.tail.tail.tail
    obtain ⟨hwf₁, htakes₁⟩ := parameters?_eq_some hproper₀ hparameters
    have hproper₁ := hproper₀.left htakes₁
    obtain ⟨hwf₂, htakes₂⟩ := returns?_eq_some hproper₁ hreturns
    obtain ⟨tree, hwf₃, hjoin, htakes₃⟩ := h.exists_tree (hproper₁.left htakes₂)
    refine ⟨.function ⟨opening.start, body.span.stop⟩ name parameters returns tree, ?_, ?_, ?_⟩
    · have hname : Word.isName name.toList := hproper.tail.head
      rw [Stmt.isWellFormed, hname, hwf₁, hwf₂, hwf₃]
      rfl
    · rw [Stmt.joinInitialisers, hjoin]
    · have htakes := htakes₁.append (htakes₂.append htakes₃)
      rw [List.append_assoc, List.singleton_append] at htakes
      exact ((htakes.cons _).cons _).cons _
  | _, _, _, .initialised hnames h, hproper => by
    obtain ⟨hne, hwf, htakes⟩ := names?_eq_some hproper.tail hnames
    obtain ⟨hwf', htakes'⟩ := h.takes (hproper.tail.left htakes).tail
    obtain ⟨htree, hjoin⟩ := exists_of_declaration _ (some _) hne hwf hwf'
    exact ⟨_, htree, hjoin, (htakes.append (htakes'.cons _)).cons _⟩
  | _, _, _, .declared hnames _, hproper => by
    obtain ⟨hne, hwf, htakes⟩ := names?_eq_some hproper.tail hnames
    obtain ⟨htree, hjoin⟩ := exists_of_declaration _ none hne hwf rfl
    exact ⟨_, htree, hjoin, htakes.cons _⟩
  | _, _, _, @ReadsStmt.conditional opening condition body _ _ _ h h', hproper => by
    obtain ⟨hwf₁, htakes₁⟩ := h.takes hproper.tail
    obtain ⟨tree, hwf₂, hjoin, htakes₂⟩ := h'.exists_tree (hproper.tail.left htakes₁)
    refine ⟨.conditional ⟨opening.start, body.span.stop⟩ condition tree, ?_, ?_, ?_⟩
    · rw [Stmt.isWellFormed, hwf₁, hwf₂, Bool.and_self]
    · rw [Stmt.joinInitialisers, hjoin]
    · exact (htakes₁.append htakes₂).cons _
  | _, _, _, @ReadsStmt.switch opening scrutinee _ stop _ _ _ h h' hstop, hproper => by
    obtain ⟨hwf₁, htakes₁⟩ := h.takes hproper.tail
    obtain ⟨trees, hwf₂, hjoin, htakes₂⟩ := h'.exists_trees (hproper.tail.left htakes₁)
    have hne : trees ≠ [] := by
      rintro rfl
      subst hjoin
      cases hstop
    refine ⟨.switch ⟨opening.start, stop⟩ scrutinee trees, ?_, ?_, ?_⟩
    · rw [Stmt.isWellFormed, hwf₁, hwf₂]
      simpa using hne
    · rw [Stmt.joinInitialisers, hjoin]
    · exact (htakes₁.append htakes₂).cons _
  | _, _, _, @ReadsStmt.loop opening _ _ body condition _ _ _ _ _ h₁ h₂ h₃ h₄, hproper => by
    obtain ⟨tree₁, hwf₁, hjoin₁, htakes₁⟩ := h₁.exists_tree hproper.tail
    have hproper₁ := hproper.tail.left htakes₁
    obtain ⟨hwf₂, htakes₂⟩ := h₂.takes hproper₁
    have hproper₂ := hproper₁.left htakes₂
    obtain ⟨tree₃, hwf₃, hjoin₃, htakes₃⟩ := h₃.exists_tree hproper₂
    obtain ⟨tree₄, hwf₄, hjoin₄, htakes₄⟩ := h₄.exists_tree (hproper₂.left htakes₃)
    refine ⟨.loop ⟨opening.start, body.span.stop⟩ tree₁ condition tree₃ tree₄, ?_, ?_, ?_⟩
    · rw [Stmt.isWellFormed, hwf₁, hwf₂, hwf₃, hwf₄]
      rfl
    · rw [Stmt.joinInitialisers, hjoin₁, hjoin₃, hjoin₄]
    · exact (htakes₁.append (htakes₂.append (htakes₃.append htakes₄))).cons _
  | _, _, _, @ReadsStmt.break span _, _ => ⟨.break span, rfl, rfl, takes_nil.cons _⟩
  | _, _, _, @ReadsStmt.continue span _, _ => ⟨.continue span, rfl, rfl, takes_nil.cons _⟩
  | _, _, _, @ReadsStmt.leave span _, _ => ⟨.leave span, rfl, rfl, takes_nil.cons _⟩
  | _, _, _, .expression h, hproper => by
    obtain ⟨hwf, htakes⟩ := h.takes hproper
    refine ⟨.expression _, ?_, rfl, htakes⟩
    rw [Stmt.isWellFormed, hwf]
    rfl
  | _, _, _, .assignment htargets h, hproper => by
    obtain ⟨hne, hwf, htakes⟩ := names?_eq_some hproper htargets
    obtain ⟨hwf', htakes'⟩ := h.takes (hproper.left htakes).tail
    refine ⟨.assignment _ _ _, ?_, rfl, htakes.append (htakes'.cons _)⟩
    rw [Stmt.isWellFormed, hwf, hwf']
    simpa using hne

/-- A block that `block?` reads is the joined form of a well-formed tree whose tokens are those it takes. -/
theorem ReadsBlock.exists_tree : ∀ {b : Block} {lexemes rest : List Lexeme}, ReadsBlock b lexemes rest →
    AllProper lexemes →
    ∃ tree : Block, tree.isWellFormed ∧ tree.joinInitialisers = b ∧ Takes lexemes rest tree.tokens
  | _, _, _, @ReadsBlock.mk opening _ stop _ _ h, hproper => by
    obtain ⟨trees, hwf, hjoin, htakes⟩ := h.exists_trees hproper.tail
    exact ⟨⟨⟨opening.start, stop⟩, trees⟩, hwf, by rw [Block.joinInitialisers, hjoin], htakes.cons _⟩

/-- Statements that `stmts?` reads are the joined forms of well-formed trees whose tokens, with the closing brace, are
those it takes. -/
theorem ReadsStmts.exists_trees : ∀ {ss : List Stmt} {stop : Nat} {lexemes rest : List Lexeme},
    ReadsStmts ss stop lexemes rest → AllProper lexemes →
    ∃ trees : List Stmt, Stmt.allWellFormed trees ∧ Stmt.joinAll trees = ss ∧
      Takes lexemes rest (Stmt.listTokens trees ++ [.closeBrace])
  | _, _, _, _, .none, _ => ⟨[], rfl, rfl, takes_nil.cons _⟩
  | _, _, _, _, .some h h', hproper => by
    obtain ⟨tree, hwf, hjoin, htakes⟩ := h.exists_tree hproper
    obtain ⟨trees, hwf', hjoin', htakes'⟩ := h'.exists_trees (hproper.left htakes)
    refine ⟨tree :: trees, by rw [Stmt.allWellFormed, hwf, hwf', Bool.and_self],
      by rw [Stmt.joinAll, hjoin, hjoin'], ?_⟩
    rw [Stmt.listTokens, List.append_assoc]
    exact htakes.append htakes'

/-- Clauses that `cases?` reads are the joined forms of well-formed trees whose tokens are those it takes. -/
theorem ReadsCases.exists_trees : ∀ {clauses : List Case} {lexemes rest : List Lexeme},
    ReadsCases clauses lexemes rest → AllProper lexemes →
    ∃ trees : List Case, Case.allWellFormed trees ∧ Case.joinAll trees = clauses ∧
      Takes lexemes rest (Case.listTokens trees)
  | _, _, _, .none _ _, _ => ⟨[], rfl, rfl, takes_nil⟩
  | _, _, _, @ReadsCases.default opening body _ _ h, hproper => by
    obtain ⟨tree, hwf, hjoin, htakes⟩ := h.exists_tree hproper.tail
    refine ⟨[⟨⟨opening.start, body.span.stop⟩, none, tree⟩], ?_, ?_, ?_⟩
    · simpa [Case.allWellFormed] using hwf
    · rw [Case.joinAll, Case.joinAll, hjoin]
    · rw [Case.listTokens, Case.listTokens, List.append_nil]
      exact htakes.cons _
  | _, _, _, @ReadsCases.case opening _ value body _ _ _ _ hvalue h h', hproper => by
    obtain ⟨hwf₁, htoken⟩ := literal?_eq_some hproper.tail.head hvalue
    obtain ⟨tree, hwf₂, hjoin, htakes⟩ := h.exists_tree hproper.tail.tail
    obtain ⟨trees, hwf₃, hjoin', htakes'⟩ := h'.exists_trees (hproper.tail.tail.left htakes)
    refine ⟨⟨⟨opening.start, body.span.stop⟩, some value, tree⟩ :: trees, ?_, ?_, ?_⟩
    · rw [Case.allWellFormed, hwf₂, hwf₃]
      simpa using hwf₁
    · rw [Case.joinAll, hjoin, hjoin']
    · rw [Case.listTokens, ← htoken]
      exact ((htakes.append htakes').cons _).cons _

end

/-- A program that is read stands in the text as a well-formed tree that differs from it only in that no bare
initialiser has been joined yet. -/
theorem program?_eq_some {lexemes : List Lexeme} {b : Block} (hproper : AllProper lexemes)
    (h : program? lexemes = some b) :
    ∃ tree : Block, tree.isWellFormed ∧ tree.joinInitialisers = b ∧ lexemes.map (·.token.mended) = tree.tokens := by
  obtain ⟨tree, hwf, hjoin, htakes⟩ := (program?_eq_some_iff.1 h).exists_tree hproper
  exact ⟨tree, hwf, hjoin, by simpa [Takes] using htakes⟩

end Parser

end YulBackend
