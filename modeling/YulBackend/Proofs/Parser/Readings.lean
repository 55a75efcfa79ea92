import YulBackend.Parser

namespace YulBackend.Parser

/-- No parenthesis opens here. -/
def NotOpening (lexemes : List Lexeme) : Prop := ∀ lexeme ∈ lexemes.head?, lexeme.token ≠ .openParen

mutual

/-- What `expr?` reads off the front of the lexemes, and the lexemes that it leaves. -/
inductive ReadsExpr : Expr → List Lexeme → List Lexeme → Prop
  | call {name : String} {span opening : Span} {es : List Expr} {stop : Nat} {lexemes rest : List Lexeme} :
    ReadsArguments es stop lexemes rest →
    ReadsExpr (.call ⟨span.start, stop⟩ ⟨span, name⟩ es)
      (⟨.identifier name, span⟩ :: ⟨.openParen, opening⟩ :: lexemes) rest
  | name {name : String} {span : Span} {rest : List Lexeme} : NotOpening rest →
    ReadsExpr (.identifier ⟨span, name⟩) (⟨.identifier name, span⟩ :: rest) rest
  | literal {lexeme : Lexeme} {value : Literal} {rest : List Lexeme} : lexeme.literal? = some value →
    ReadsExpr (.literal value) (lexeme :: rest) rest

/-- What `arguments?` reads, up to the parenthesis that stops there. -/
inductive ReadsArguments : List Expr → Nat → List Lexeme → List Lexeme → Prop
  | none {span : Span} {rest : List Lexeme} : ReadsArguments [] span.stop (⟨.closeParen, span⟩ :: rest) rest
  | some {e : Expr} {es : List Expr} {stop : Nat} {lexemes left rest : List Lexeme} :
    ReadsExpr e lexemes left → ReadsMoreArguments es stop left rest → ReadsArguments (e :: es) stop lexemes rest

/-- What `moreArguments?` reads behind an argument. -/
inductive ReadsMoreArguments : List Expr → Nat → List Lexeme → List Lexeme → Prop
  | none {span : Span} {rest : List Lexeme} : ReadsMoreArguments [] span.stop (⟨.closeParen, span⟩ :: rest) rest
  | some {e : Expr} {es : List Expr} {stop : Nat} {comma : Span} {lexemes left rest : List Lexeme} :
    ReadsExpr e lexemes left → ReadsMoreArguments es stop left rest →
    ReadsMoreArguments (e :: es) stop (⟨.comma, comma⟩ :: lexemes) rest

end

mutual

/-- What `stmt?` reads off the front of the lexemes, construct by construct. -/
inductive ReadsStmt : Stmt → List Lexeme → List Lexeme → Prop
  | block {body : Block} {lexemes rest : List Lexeme} :
    ReadsBlock body lexemes rest → ReadsStmt (.block body) lexemes rest
  | function {name : String} {opening span paren : Span} {parameters returns : List Identifier} {body : Block}
      {lexemes left left' rest : List Lexeme} :
    parameters? lexemes = some (parameters, left) → returns? left = some (returns, left') →
    ReadsBlock body left' rest →
    ReadsStmt (.function ⟨opening.start, body.span.stop⟩ name parameters returns body)
      (⟨.keyword .function, opening⟩ :: ⟨.identifier name, span⟩ :: ⟨.openParen, paren⟩ :: lexemes) rest
  | initialised {opening assign : Span} {names : List Identifier} {value : Expr} {lexemes left rest : List Lexeme} :
    names? lexemes = some (names, ⟨.assign, assign⟩ :: left) → ReadsExpr value left rest →
    ReadsStmt (declaration ⟨opening.start, value.span.stop⟩ names (some value))
      (⟨.keyword .let, opening⟩ :: lexemes) rest
  | declared {opening : Span} {names : List Identifier} {next : Lexeme} {lexemes rest : List Lexeme} :
    names? lexemes = some (names, next :: rest) → next.token ≠ .assign →
    ReadsStmt (.declaration ⟨opening.start, next.span.start⟩ names none)
      (⟨.keyword .let, opening⟩ :: lexemes) (next :: rest)
  | conditional {opening : Span} {condition : Expr} {body : Block} {lexemes left rest : List Lexeme} :
    ReadsExpr condition lexemes left → ReadsBlock body left rest →
    ReadsStmt (.conditional ⟨opening.start, body.span.stop⟩ condition body) (⟨.keyword .if, opening⟩ :: lexemes) rest
  | switch {opening : Span} {scrutinee : Expr} {clauses : List Case} {stop : Nat} {lexemes left rest : List Lexeme} :
    ReadsExpr scrutinee lexemes left → ReadsCases clauses left rest → switchEnd? clauses rest = some stop →
    ReadsStmt (.switch ⟨opening.start, stop⟩ scrutinee clauses) (⟨.keyword .switch, opening⟩ :: lexemes) rest
  | loop {opening : Span} {pre post body : Block} {condition : Expr} {lexemes left₁ left₂ left₃ rest : List Lexeme} :
    ReadsBlock pre lexemes left₁ → ReadsExpr condition left₁ left₂ → ReadsBlock post left₂ left₃ →
    ReadsBlock body left₃ rest →
    ReadsStmt (.loop ⟨opening.start, body.span.stop⟩ pre condition post body)
      (⟨.keyword .for, opening⟩ :: lexemes) rest
  | break {span : Span} {rest : List Lexeme} : ReadsStmt (.break span) (⟨.keyword .break, span⟩ :: rest) rest
  | continue {span : Span} {rest : List Lexeme} : ReadsStmt (.continue span) (⟨.keyword .continue, span⟩ :: rest) rest
  | leave {span : Span} {rest : List Lexeme} : ReadsStmt (.leave span) (⟨.keyword .leave, span⟩ :: rest) rest
  | expression {span : Span} {callee : Identifier} {es : List Expr} {lexemes rest : List Lexeme} :
    ReadsExpr (.call span callee es) lexemes rest → ReadsStmt (.expression (.call span callee es)) lexemes rest
  | assignment {name : String} {opening assign : Span} {targets : List Identifier} {value : Expr}
      {lexemes left rest : List Lexeme} :
    names? (⟨.identifier name, opening⟩ :: lexemes) = some (targets, ⟨.assign, assign⟩ :: left) →
    ReadsExpr value left rest →
    ReadsStmt (.assignment ⟨opening.start, value.span.stop⟩ targets value) (⟨.identifier name, opening⟩ :: lexemes) rest

/-- What `block?` reads off the front of the lexemes. -/
inductive ReadsBlock : Block → List Lexeme → List Lexeme → Prop
  | mk {opening : Span} {statements : List Stmt} {stop : Nat} {lexemes rest : List Lexeme} :
    ReadsStmts statements stop lexemes rest →
    ReadsBlock ⟨⟨opening.start, stop⟩, statements⟩ (⟨.openBrace, opening⟩ :: lexemes) rest

/-- What `stmts?` reads, up to the brace that stops there. -/
inductive ReadsStmts : List Stmt → Nat → List Lexeme → List Lexeme → Prop
  | none {span : Span} {rest : List Lexeme} : ReadsStmts [] span.stop (⟨.closeBrace, span⟩ :: rest) rest
  | some {s : Stmt} {ss : List Stmt} {stop : Nat} {lexemes left rest : List Lexeme} :
    ReadsStmt s lexemes left → ReadsStmts ss stop left rest → ReadsStmts (s :: ss) stop lexemes rest

/-- What `cases?` reads: clauses up to where no further one opens, or to a default. -/
inductive ReadsCases : List Case → List Lexeme → List Lexeme → Prop
  | none {rest : List Lexeme} : (∀ opening left, rest ≠ ⟨.keyword .default, opening⟩ :: left) →
    (∀ opening lexeme left, rest ≠ ⟨.keyword .case, opening⟩ :: lexeme :: left) → ReadsCases [] rest rest
  | default {opening : Span} {body : Block} {lexemes rest : List Lexeme} : ReadsBlock body lexemes rest →
    ReadsCases [⟨⟨opening.start, body.span.stop⟩, Option.none, body⟩] (⟨.keyword .default, opening⟩ :: lexemes) rest
  | case {opening : Span} {lexeme : Lexeme} {value : Literal} {body : Block} {clauses : List Case}
      {lexemes left rest : List Lexeme} :
    lexeme.literal? = .some value → ReadsBlock body lexemes left → ReadsCases clauses left rest →
    ReadsCases (⟨⟨opening.start, body.span.stop⟩, .some value, body⟩ :: clauses)
      (⟨.keyword .case, opening⟩ :: lexeme :: lexemes) rest

end

mutual

/-- A run of `expr?` with any fuel reads by the constructs. -/
theorem readsExpr_of_expr? : ∀ {fuel : Nat} {lexemes rest : List Lexeme} {e : Expr},
    expr? fuel lexemes = some (e, rest) → ReadsExpr e lexemes rest
  | 0, _, _, _, h => by
    rw [expr?] at h
    cases h
  | fuel + 1, lexemes, rest, e, h => by
    unfold expr? at h
    split at h
    next =>
      obtain ⟨⟨es, stop, left⟩, hes, heq⟩ := Option.bind_eq_some_iff.1 h
      cases heq
      exact .call (readsArguments_of_arguments? hes)
    next left hopen =>
      cases h
      refine .name fun lexeme hlexeme htoken => ?_
      obtain ⟨token, span⟩ := lexeme
      obtain rfl : token = .openParen := htoken
      obtain ⟨left', rfl⟩ := List.head?_eq_some_iff.1 hlexeme
      exact hopen span left' rfl
    next =>
      obtain ⟨value, hvalue, heq⟩ := Option.map_eq_some_iff.1 h
      cases heq
      exact .literal hvalue
    next => cases h

/-- A successful run of `arguments?`, with whatever fuel, is a reading of an argument list. -/
theorem readsArguments_of_arguments? : ∀ {fuel : Nat} {lexemes rest : List Lexeme} {es : List Expr} {stop : Nat},
    arguments? fuel lexemes = some (es, stop, rest) → ReadsArguments es stop lexemes rest
  | 0, _, _, _, _, h => by
    rw [arguments?] at h
    cases h
  | fuel + 1, lexemes, rest, es, stop, h => by
    unfold arguments? at h
    split at h
    next =>
      cases h
      exact .none
    next =>
      obtain ⟨⟨first, left⟩, hfirst, h⟩ := Option.bind_eq_some_iff.1 h
      obtain ⟨⟨others, stop', left'⟩, hothers, heq⟩ := Option.bind_eq_some_iff.1 h
      cases heq
      exact .some (readsExpr_of_expr? hfirst) (readsMoreArguments_of_moreArguments? hothers)

/-- A successful run of `moreArguments?` is a reading of further arguments. -/
theorem readsMoreArguments_of_moreArguments? : ∀ {fuel : Nat} {lexemes rest : List Lexeme} {es : List Expr}
    {stop : Nat}, moreArguments? fuel lexemes = some (es, stop, rest) → ReadsMoreArguments es stop lexemes rest
  | 0, _, _, _, _, h => by
    rw [moreArguments?] at h
    cases h
  | fuel + 1, lexemes, rest, es, stop, h => by
    unfold moreArguments? at h
    split at h
    next =>
      cases h
      exact .none
    next =>
      obtain ⟨⟨next, left⟩, hnext, h⟩ := Option.bind_eq_some_iff.1 h
      obtain ⟨⟨others, stop', left'⟩, hothers, heq⟩ := Option.bind_eq_some_iff.1 h
      cases heq
      exact .some (readsExpr_of_expr? hnext) (readsMoreArguments_of_moreArguments? hothers)
    next => cases h

end

mutual

/-- A run of `stmt?` with any fuel reads by the constructs. Every proof about statements that are read goes through
this case split, and none takes the runs apart again. -/
theorem readsStmt_of_stmt? : ∀ {fuel : Nat} {lexemes rest : List Lexeme} {s : Stmt},
    stmt? fuel lexemes = some (s, rest) → ReadsStmt s lexemes rest
  | 0, _, _, _, h => by
    rw [stmt?] at h
    cases h
  | fuel + 1, lexemes, rest, s, h => by
    unfold stmt? at h
    split at h
    next =>
      obtain ⟨⟨body, left⟩, hbody, heq⟩ := Option.bind_eq_some_iff.1 h
      cases heq
      exact .block (readsBlock_of_block? hbody)
    next =>
      obtain ⟨⟨parameters, left₁⟩, hparameters, h⟩ := Option.bind_eq_some_iff.1 h
      obtain ⟨⟨returns, left₂⟩, hreturns, h⟩ := Option.bind_eq_some_iff.1 h
      obtain ⟨⟨body, left₃⟩, hbody, heq⟩ := Option.bind_eq_some_iff.1 h
      cases heq
      exact .function hparameters hreturns (readsBlock_of_block? hbody)
    next =>
      obtain ⟨⟨names, left₁⟩, hnames, h⟩ := Option.bind_eq_some_iff.1 h
      dsimp only at h
      split at h
      next =>
        obtain ⟨⟨value, left₃⟩, hvalue, heq⟩ := Option.bind_eq_some_iff.1 h
        cases heq
        exact .initialised hnames (readsExpr_of_expr? hvalue)
      next hassign =>
        obtain ⟨stop, hstop, heq⟩ := Option.bind_eq_some_iff.1 h
        cases heq
        cases rest with
        | nil => cases hstop
        | cons next left =>
          cases hstop
          obtain ⟨token, span⟩ := next
          refine .declared hnames ?_
          rintro rfl
          exact hassign span left rfl
    next =>
      obtain ⟨⟨condition, left₁⟩, hcondition, h⟩ := Option.bind_eq_some_iff.1 h
      obtain ⟨⟨body, left₂⟩, hbody, heq⟩ := Option.bind_eq_some_iff.1 h
      cases heq
      exact .conditional (readsExpr_of_expr? hcondition) (readsBlock_of_block? hbody)
    next =>
      obtain ⟨⟨scrutinee, left₁⟩, hscrutinee, h⟩ := Option.bind_eq_some_iff.1 h
      obtain ⟨⟨clauses, left₂⟩, hclauses, h⟩ := Option.bind_eq_some_iff.1 h
      obtain ⟨stop, hstop, heq⟩ := Option.bind_eq_some_iff.1 h
      cases heq
      exact .switch (readsExpr_of_expr? hscrutinee) (readsCases_of_cases? hclauses) hstop
    next =>
      obtain ⟨⟨pre, left₁⟩, hpre, h⟩ := Option.bind_eq_some_iff.1 h
      obtain ⟨⟨condition, left₂⟩, hcondition, h⟩ := Option.bind_eq_some_iff.1 h
      obtain ⟨⟨post, left₃⟩, hpost, h⟩ := Option.bind_eq_some_iff.1 h
      obtain ⟨⟨body, left₄⟩, hbody, heq⟩ := Option.bind_eq_some_iff.1 h
      cases heq
      exact .loop (readsBlock_of_block? hpre) (readsExpr_of_expr? hcondition) (readsBlock_of_block? hpost)
        (readsBlock_of_block? hbody)
    next =>
      cases h
      exact .break
    next =>
      cases h
      exact .continue
    next =>
      cases h
      exact .leave
    next =>
      obtain ⟨⟨call, left⟩, hcall, heq⟩ := Option.bind_eq_some_iff.1 h
      cases heq
      have hread := readsExpr_of_expr? hcall
      cases hread with
      | call harguments => exact .expression (.call harguments)
      | name hopen => exact absurd rfl (hopen _ rfl)
      | literal hvalue => cases hvalue
    next =>
      obtain ⟨⟨targets, left₁⟩, htargets, h⟩ := Option.bind_eq_some_iff.1 h
      dsimp only at h
      split at h
      next =>
        obtain ⟨⟨value, left₃⟩, hvalue, heq⟩ := Option.bind_eq_some_iff.1 h
        cases heq
        exact .assignment htargets (readsExpr_of_expr? hvalue)
      next => cases h
    next => cases h

/-- A successful run of `block?` is a reading of a block. -/
theorem readsBlock_of_block? : ∀ {fuel : Nat} {lexemes rest : List Lexeme} {b : Block},
    block? fuel lexemes = some (b, rest) → ReadsBlock b lexemes rest
  | 0, _, _, _, h => by
    rw [block?] at h
    cases h
  | fuel + 1, lexemes, rest, b, h => by
    unfold block? at h
    split at h
    next =>
      obtain ⟨⟨statements, stop, left⟩, hstatements, heq⟩ := Option.bind_eq_some_iff.1 h
      cases heq
      exact .mk (readsStmts_of_stmts? hstatements)
    next => cases h

/-- A successful run of `stmts?` is a reading of statements up to a closing brace. -/
theorem readsStmts_of_stmts? : ∀ {fuel : Nat} {lexemes rest : List Lexeme} {ss : List Stmt} {stop : Nat},
    stmts? fuel lexemes = some (ss, stop, rest) → ReadsStmts ss stop lexemes rest
  | 0, _, _, _, _, h => by
    rw [stmts?] at h
    cases h
  | fuel + 1, lexemes, rest, ss, stop, h => by
    unfold stmts? at h
    split at h
    next =>
      cases h
      exact .none
    next =>
      obtain ⟨⟨first, left⟩, hfirst, h⟩ := Option.bind_eq_some_iff.1 h
      obtain ⟨⟨others, stop', left'⟩, hothers, heq⟩ := Option.bind_eq_some_iff.1 h
      cases heq
      exact .some (readsStmt_of_stmt? hfirst) (readsStmts_of_stmts? hothers)

/-- A successful run of `cases?` is a reading of clauses, the last of which may be the default. -/
theorem readsCases_of_cases? : ∀ {fuel : Nat} {lexemes rest : List Lexeme} {clauses : List Case},
    cases? fuel lexemes = some (clauses, rest) → ReadsCases clauses lexemes rest
  | 0, _, _, _, h => by
    rw [cases?] at h
    cases h
  | fuel + 1, lexemes, rest, clauses, h => by
    unfold cases? at h
    split at h
    next =>
      obtain ⟨⟨body, left⟩, hbody, heq⟩ := Option.bind_eq_some_iff.1 h
      cases heq
      exact .default (readsBlock_of_block? hbody)
    next =>
      obtain ⟨value, hvalue, h⟩ := Option.bind_eq_some_iff.1 h
      obtain ⟨⟨body, left₁⟩, hbody, h⟩ := Option.bind_eq_some_iff.1 h
      obtain ⟨⟨others, left₂⟩, hothers, heq⟩ := Option.bind_eq_some_iff.1 h
      cases heq
      exact .case hvalue (readsBlock_of_block? hbody) (readsCases_of_cases? hothers)
    next hdefault hcase =>
      cases h
      exact .none hdefault hcase

end

end YulBackend.Parser
