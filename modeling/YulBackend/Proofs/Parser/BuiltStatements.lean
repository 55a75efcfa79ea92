import YulBackend.Proofs.Parser.BuiltExpressions
import YulBackend.Proofs.Parser.Language
import YulBackend.Proofs.Parser.Statements

namespace YulBackend

open Grammar (Form Matching Pair Repeats Rule Terminal leaves startOf)

namespace Parser

open Builder (identifier)
open Grammar.Pair (ofName visible visible_cons visible_map_ofName)

variable {ending : Nat} {taken rest : List PlacedToken} {stop : Nat} {pairs inner : List Pair}

/-- The node is built into a block that is read from the parts. -/
structure IsBlock (taken rest : List PlacedToken) (stop : Nat) (pair : Pair) (b : Block) : Prop where
  symbol : pair.symbol = .rule .block
  built : Builder.block pair = builtFrom taken b
  stop : b.span.stop = stop
  opens : ∃ part others, taken = part :: others ∧ part.token = .openBrace
  read : ReadsBlock b (lexemesOf (taken ++ rest)) (lexemesOf rest)

/-- The node is built into a statement that is read from the parts. -/
structure IsStmt (taken rest : List PlacedToken) (pair : Pair) (s : Stmt) : Prop where
  isKeyword : pair.isKeyword = false
  built : Builder.statement pair = builtFrom taken s
  opens : EndsStatement (taken.map (·.token))
  read : EndsStatement (rest.map (·.token)) → ReadsStmt s (lexemesOf (taken ++ rest)) (lexemesOf rest)

/-- The node is built into a clause. -/
structure IsClause (taken : List PlacedToken) (stop : Nat) (pair : Pair) (c : Case) : Prop where
  isKeyword : pair.isKeyword = false
  built : Builder.clause pair = builtFrom taken c
  stop : c.span.stop = stop
  opens : ∃ part others, taken = part :: others ∧ part.token ≠ .openParen

/-- What a match of the rule is built into and what is read from the same parts. -/
def Built : Rule → Matching
  | .block, taken, rest, stop, pairs => ∃ pair b, pairs = [pair] ∧ IsBlock taken rest stop pair b
  | .parameters, taken, rest, _, pairs => ∃ pair, pairs = [pair] ∧ pair.isKeyword = false ∧ Faultless taken ∧
    ∀ closing others, rest = closing :: others → closing.token = .closeParen →
      parameters? (lexemesOf (taken ++ rest)) = some (pair.inner.map identifier, lexemesOf others)
  | .returnVariables, taken, rest, _, pairs => ∃ pair, pairs = [pair] ∧ pair.isKeyword = false ∧ Faultless taken ∧
    ((rest.map (·.token)).head? = some .openBrace →
      returns? (lexemesOf (taken ++ rest)) = some (pair.inner.map identifier, lexemesOf rest))
  | .caseClause, taken, rest, stop, pairs => ∃ pair c, pairs = [pair] ∧ IsClause taken stop pair c ∧ c.value.isSome ∧
    ∀ others left, ReadsCases others (lexemesOf rest) left → ReadsCases (c :: others) (lexemesOf (taken ++ rest)) left
  | .defaultClause, taken, rest, stop, pairs => ∃ pair c, pairs = [pair] ∧ IsClause taken stop pair c ∧
    c.value = none ∧ ReadsCases [c] (lexemesOf (taken ++ rest)) (lexemesOf rest)
  | .expression, taken, rest, stop, pairs => ∃ pair e, pairs = [pair] ∧ IsExpr taken rest stop pair e
  | .functionCall, taken, rest, stop, pairs => ∃ pair span callee es, pairs = [pair] ∧
    IsExpr taken rest stop pair (.call span callee es) ∧
    ∃ name part others, taken = part :: others ∧ part.token = .identifier name
  | .literal, taken, _, stop, pairs => ∃ part pair value, taken = [part] ∧ stop = part.span.stop ∧ pairs = [pair] ∧
    IsLiteral part pair value
  | _, taken, rest, _, pairs => ∃ pair s, pairs = [pair] ∧ IsStmt taken rest pair s

/-- The pair of a block is a node and never a keyword leaf, so `visible` keeps it among the children. -/
theorem IsBlock.isKeyword {pair : Pair} {b : Block} (h : IsBlock taken rest stop pair b) :
    pair.isKeyword = false := by
  have hsymbol := h.symbol
  cases pair with
  | node _ _ _ => rfl
  | leaf _ _ _ => cases hsymbol

theorem IsBlock.head? {pair : Pair} {b : Block} (h : IsBlock taken rest stop pair b) (others : List PlacedToken) :
    ((taken ++ others).map (·.token)).head? = some .openBrace := by
  obtain ⟨part, left, rfl, hpart⟩ := h.opens
  exact congrArg some hpart

theorem EndsStatement.append {tokens : List Token} (h : EndsStatement tokens) (others : List Token) :
    EndsStatement (tokens ++ others) := by
  obtain ⟨token, left, rfl, hne⟩ := h
  exact ⟨token, left ++ others, rfl, hne⟩

/-- Parts whose first token is not an opening parenthesis leave an identifier in front of them a variable. -/
theorem notOpening_of_head? {token : Token} {parts : List PlacedToken}
    (h : (parts.map (·.token)).head? = some token) (hne : token ≠ .openParen) : NotOpening (lexemesOf parts) := by
  cases parts with
  | nil => cases h
  | cons part parts =>
    rintro lexeme ⟨⟩
    cases h
    exact hne

/-- Something always follows a statement, at the latest the closing brace of its block. -/
theorem EndsStatement.exists_part (h : EndsStatement (rest.map (·.token))) :
    ∃ next others, rest = next :: others := by
  obtain ⟨token, left, htokens, -⟩ := h
  obtain ⟨next, others, rfl, -⟩ := List.map_eq_cons_iff.1 htokens
  exact ⟨next, others, rfl⟩

/-- What follows a statement never opens a call, so an identifier that ends the statement is read as a variable. -/
theorem EndsStatement.notOpening (h : EndsStatement (rest.map (·.token))) : NotOpening (lexemesOf rest) := by
  obtain ⟨token, left, htokens, hne, -⟩ := h
  exact notOpening_of_head? (by rw [htokens, List.head?_cons]) hne

/-- The nodes are built into statements, and these are read from the parts up to a closing brace. -/
def Statements (taken rest : List PlacedToken) (pairs : List Pair) : Prop :=
  ∀ closing others, rest = closing :: others → closing.token = .closeBrace →
    EndsStatement ((taken ++ rest).map (·.token)) ∧ visible pairs = pairs ∧ ∃ ss,
      pairs.mapM Builder.statement = builtFrom taken ss ∧
        ReadsStmts ss closing.span.stop (lexemesOf (taken ++ rest)) (lexemesOf others)

/-- The repetition of the statement rule reads as a list of statements, which `stmts?` and the builder's `mapM` answer
alike. -/
theorem statements_of_yields (h : (Form.many Rule.statement).Yields ending Built taken rest stop pairs) :
    Statements taken rest pairs := by
  refine repeats_induction ?_ ?_ h
  · rintro _ closing others rfl hclosing
    refine ⟨⟨.closeBrace, _, congrArg (· :: _) hclosing, by simp⟩, rfl, [], rfl, ?_⟩
    rw [List.nil_append, lexemesOf_cons, PlacedToken.lexeme, hclosing]
    exact .none
  · rintro xs ys rest _ _ qs ⟨pair, s, rfl, hs⟩ hmore closing others hrest hclosing
    obtain ⟨hends, hvisible, ss, hss, hread⟩ := hmore closing others hrest hclosing
    refine ⟨?_, ?_, s :: ss, ?_, ?_⟩
    · rw [List.append_assoc, List.map_append]
      exact hs.opens.append _
    · rw [List.singleton_append, visible_cons hs.isKeyword, hvisible]
    · rw [List.singleton_append, List.mapM_cons]
      exact bind_builtFrom hs.built (map_builtFrom hss)
    · rw [List.append_assoc]
      exact .some (hs.read hends) hread

/-- Under the invariant for the inner rules, the body of the block rule builds the block that `block?` reads from the
same lexemes. -/
theorem exists_isBlock (h : Rule.block.body.Yields ending Built taken rest stop inner) :
    ∃ b, IsBlock taken rest stop (.node .block ⟨startOf ending (taken ++ rest), stop⟩ inner) b := by
  obtain ⟨_, _, _, _, _, rfl, rfl, hfront, hclose⟩ := Form.yields_append.1 h
  obtain ⟨_, ys, _, _, qs, rfl, rfl, hopen, hstatements⟩ := Form.yields_append.1 hfront
  obtain ⟨openText, openSpan, rfl, -, rfl⟩ := exists_part hopen
  obtain ⟨closeText, closeSpan, rfl, rfl, rfl⟩ := exists_part hclose
  obtain ⟨-, hvisible, ss, hss, hread⟩ := statements_of_yields hstatements _ _ rfl rfl
  refine ⟨⟨⟨openSpan.start, closeSpan.stop⟩, ss⟩, rfl, ?_, rfl, ⟨_, _, rfl, rfl⟩, ?_⟩
  · have hinner : visible (leaves ⟨⟨.openBrace, openText⟩, openSpan⟩ ++ qs ++
        leaves ⟨⟨.closeBrace, closeText⟩, closeSpan⟩) = qs := by
      simpa [leaves, Terminal.isNode] using hvisible
    rw [Builder.block_node, hinner, builtFrom_concat]
    · exact map_builtFrom hss
    · simp
  · rw [List.append_assoc]
    exact .mk hread

/-- Under the invariant for the inner rules, an `if` node builds the conditional that `stmt?` reads. -/
theorem exists_isStmt_if (h : Rule.ifStatement.body.Yields ending Built taken rest stop inner) :
    ∃ s, IsStmt taken rest (.node .ifStatement ⟨startOf ending (taken ++ rest), stop⟩ inner) s := by
  obtain ⟨_, ys, _, _, _, rfl, rfl, hfront, pair', body, rfl, hbody⟩ := Form.yields_append.1 h
  obtain ⟨_, xs, _, _, _, rfl, rfl, hkeyword, pair, condition, rfl, hcondition⟩ := Form.yields_append.1 hfront
  obtain ⟨text, span, rfl, -, rfl⟩ := exists_part hkeyword
  refine ⟨.conditional ⟨span.start, stop⟩ condition body, rfl, ?_, ?_, fun _ => ?_⟩
  · have hvisible : visible (leaves ⟨⟨.keyword .if, text⟩, span⟩ ++ [pair] ++ [pair']) = [pair, pair'] := by
      simp [leaves, Terminal.isNode, visible_cons, hcondition.isKeyword, hbody.isKeyword]
    rw [Builder.statement_if hvisible]
    exact bind_builtFrom hcondition.built (map_builtFrom hbody.built)
  · exact ⟨.keyword .if, _, rfl, by simp⟩
  · have hopen := notOpening_of_head? (hbody.head? rest) (by simp)
    rw [List.append_assoc, ← hbody.stop]
    exact .conditional (hcondition.read hopen) hbody.read

/-- Under the invariant for the inner rules, a `for` node builds the loop that `stmt?` reads, with its three blocks in
source order. -/
theorem exists_isStmt_for (h : Rule.forLoop.body.Yields ending Built taken rest stop inner) :
    ∃ s, IsStmt taken rest (.node .forLoop ⟨startOf ending (taken ++ rest), stop⟩ inner) s := by
  obtain ⟨_, ws, _, _, _, rfl, rfl, h₃, pair₄, body, rfl, hbody⟩ := Form.yields_append.1 h
  obtain ⟨_, zs, _, _, _, rfl, rfl, h₂, pair₃, post, rfl, hpost⟩ := Form.yields_append.1 h₃
  obtain ⟨_, ys, _, _, _, rfl, rfl, h₁, pair₂, condition, rfl, hcondition⟩ := Form.yields_append.1 h₂
  obtain ⟨_, xs, _, _, _, rfl, rfl, hkeyword, pair₁, pre, rfl, hpre⟩ := Form.yields_append.1 h₁
  obtain ⟨text, span, rfl, -, rfl⟩ := exists_part hkeyword
  refine ⟨.loop ⟨span.start, stop⟩ pre condition post body, rfl, ?_, ?_, fun _ => ?_⟩
  · have hvisible : visible (leaves ⟨⟨.keyword .for, text⟩, span⟩ ++ [pair₁] ++ [pair₂] ++ [pair₃] ++ [pair₄]) =
        [pair₁, pair₂, pair₃, pair₄] := by
      simp [leaves, Terminal.isNode, visible_cons, hpre.isKeyword, hcondition.isKeyword, hpost.isKeyword,
        hbody.isKeyword]
    rw [Builder.statement_for hvisible]
    simp only [List.append_assoc, List.cons_append, List.nil_append, startOf]
    rw [builtFrom_cons]
    · exact bind_builtFrom hpre.built (bind_builtFrom hcondition.built (bind_builtFrom hpost.built
        (map_builtFrom hbody.built)))
    · simp
  · exact ⟨.keyword .for, _, rfl, by simp⟩
  · have hopen := notOpening_of_head? (hpost.head? (ws ++ rest)) (by simp)
    simp only [List.append_assoc, ← hbody.stop]
    exact .loop hpre.read (hcondition.read hopen) hpost.read hbody.read

/-- A call in statement position builds an expression statement, and `stmt?` takes it because the identifier is
followed by an opening parenthesis. -/
theorem exists_isStmt_expression (h : Rule.expressionStatement.body.Yields ending Built taken rest stop inner) :
    ∃ s, IsStmt taken rest (.node .expressionStatement ⟨startOf ending (taken ++ rest), stop⟩ inner) s := by
  obtain ⟨pair, span, callee, es, rfl, he, name, part, others, rfl, hpart⟩ := h
  refine ⟨.expression (.call span callee es), rfl, ?_, ?_, fun hrest => .expression (he.read hrest.notOpening)⟩
  · rw [Builder.statement_expression (visible_cons he.isKeyword [])]
    exact map_builtFrom he.built
  · exact ⟨.identifier name, _, congrArg (· :: _) hpart, by simp⟩

/-- An assignment node folds its children by `assign`: the names become targets and the one expression the value, as
`assignment?` reads them. -/
theorem exists_isStmt_assignment (h : Rule.assignment.body.Yields ending Built taken rest stop inner) :
    ∃ s, IsStmt taken rest (.node .assignment ⟨startOf ending (taken ++ rest), stop⟩ inner) s := by
  obtain ⟨_, ys, _, _, _, rfl, rfl, hfront, pair, value, rfl, hvalue⟩ := Form.yields_append.1 h
  obtain ⟨xs, _, _, ps, _, rfl, rfl, hnames, hassign⟩ := Form.yields_append.1 hfront
  obtain ⟨text, span, rfl, -, rfl⟩ := exists_part hassign
  obtain ⟨targets, hnames⟩ := exists_names_of_yields hnames
  obtain ⟨name, part, others, rfl, hpart, hopening⟩ := hnames.opens
  refine ⟨.assignment ⟨part.span.start, stop⟩ targets value, rfl, ?_, ?_, fun hrest => ?_⟩
  · have hvisible : visible (ps ++ leaves ⟨⟨.assign, text⟩, span⟩ ++ [pair]) = targets.map ofName ++ [pair] := by
      rw [hnames.pairs, List.append_assoc, visible_map_ofName]
      exact congrArg (_ ++ ·) (visible_cons hvalue.isKeyword [])
    rw [Builder.statement_assignment hvisible]
    simp only [List.append_assoc, List.cons_append, List.nil_append, startOf]
    rw [← List.cons_append, hnames.faultless.builtFrom_append, builtFrom_cons]
    · exact map_builtFrom hvalue.built
    · simp
  · exact ⟨.identifier name, _, congrArg (· :: _) hpart, by simp⟩
  · have hreadNames := hnames.read (by simp [SpeltToken.token])
    simp only [List.append_assoc, List.cons_append, List.nil_append, lexemesOf_cons, PlacedToken.lexeme, hpart]
      at hreadNames ⊢
    rw [← hvalue.stop]
    exact .assignment hreadNames (hvalue.read hrest.notOpening)

/-- A declaration without an initialiser reaches up to the next part. -/
theorem isStmt_declaration {xs : List PlacedToken} {ps : List Pair} {names : List Identifier}
    (hnames : Names xs rest ps names) (text : List Char) (span : Span) :
    IsStmt (⟨⟨.keyword .let, text⟩, span⟩ :: xs) rest
      (.node .variableDeclaration ⟨span.start, startOf ending rest⟩ (leaves ⟨⟨.keyword .let, text⟩, span⟩ ++ ps))
      (.declaration ⟨span.start, startOf ending rest⟩ names none) where
  isKeyword := rfl
  built := by
    have hvisible : visible (leaves ⟨⟨.keyword .let, text⟩, span⟩ ++ ps) = names.map ofName := by
      rw [hnames.pairs, ← List.append_nil (_ ++ _), List.append_assoc]
      exact (visible_map_ofName names []).trans (List.append_nil _)
    rw [Builder.statement_declaration hvisible, builtFrom_cons (by simp), ← List.append_nil xs,
      hnames.faultless.builtFrom_append]
    rfl
  opens := ⟨.keyword .let, _, rfl, by simp⟩
  read hrest := by
    have hreadNames := hnames.read (hrest.head?_ne .comma (by simp))
    have hassign := hrest.head?_ne .assign (by simp)
    obtain ⟨next, others, rfl⟩ := hrest.exists_part
    exact .declared hreadNames fun htoken => hassign (congrArg some htoken)

/-- A declaration with an initialiser reaches up to the end of it. -/
theorem isStmt_initialised {xs zs : List PlacedToken} {ps : List Pair} {pair : Pair} {names : List Identifier}
    {value : Expr} (text assignText : List Char) (span assignSpan : Span)
    (hnames : Names xs (⟨⟨.assign, assignText⟩, assignSpan⟩ :: (zs ++ rest)) ps names)
    (hvalue : IsExpr zs rest stop pair value) :
    IsStmt (⟨⟨.keyword .let, text⟩, span⟩ :: (xs ++ ⟨⟨.assign, assignText⟩, assignSpan⟩ :: zs)) rest
      (.node .variableDeclaration ⟨span.start, stop⟩ (leaves ⟨⟨.keyword .let, text⟩, span⟩ ++ ps ++
        (leaves ⟨⟨.assign, assignText⟩, assignSpan⟩ ++ [pair])))
      (declaration ⟨span.start, stop⟩ names (some value)) where
  isKeyword := rfl
  built := by
    have hvisible : visible (leaves ⟨⟨.keyword .let, text⟩, span⟩ ++ ps ++
        (leaves ⟨⟨.assign, assignText⟩, assignSpan⟩ ++ [pair])) = names.map ofName ++ [pair] := by
      rw [hnames.pairs, List.append_assoc]
      exact (visible_map_ofName names _).trans (congrArg (_ ++ ·) (visible_cons hvalue.isKeyword []))
    rw [Builder.statement_initialised hvisible, builtFrom_cons (by simp), hnames.faultless.builtFrom_append,
      builtFrom_cons (by simp)]
    exact map_builtFrom hvalue.built
  opens := ⟨.keyword .let, _, rfl, by simp⟩
  read hrest := by
    have hreadNames := hnames.read (by simp [SpeltToken.token])
    simp only [List.append_assoc, List.cons_append, lexemesOf_cons] at hreadNames ⊢
    rw [← hvalue.stop]
    exact .initialised hreadNames (hvalue.read hrest.notOpening)

/-- A declaration node folds its children by `declare`, which takes a bare identifier initialiser for one more declared
name; `declaration?` reads the same. -/
theorem exists_isStmt_declaration (h : Rule.variableDeclaration.body.Yields ending Built taken rest stop inner) :
    ∃ s, IsStmt taken rest (.node .variableDeclaration ⟨startOf ending (taken ++ rest), stop⟩ inner) s := by
  obtain ⟨_, ys, _, _, _, rfl, rfl, hfront, hvalue⟩ := Form.yields_append.1 h
  obtain ⟨_, xs, _, _, ps, rfl, rfl, hkeyword, hnames⟩ := Form.yields_append.1 hfront
  obtain ⟨text, span, rfl, -, rfl⟩ := exists_part hkeyword
  obtain ⟨names, hnames⟩ := exists_names_of_yields hnames
  rcases hvalue with ⟨rfl, rfl, rfl⟩ | hinitialiser
  · rw [List.append_nil, List.append_nil]
    exact ⟨_, isStmt_declaration hnames text span⟩
  · obtain ⟨_, zs, _, _, _, rfl, rfl, hassign, pair, value, rfl, hvalue⟩ := Form.yields_append.1 hinitialiser
    obtain ⟨assignText, assignSpan, rfl, -, rfl⟩ := exists_part hassign
    simp only [List.append_assoc, List.cons_append, List.nil_append] at hnames ⊢
    have hs := isStmt_initialised text assignText span assignSpan hnames hvalue
    rw [List.append_assoc] at hs
    exact ⟨_, hs⟩

/-- A parameter list is a node of identifier leaves, and `parameters?` reads the same names. -/
theorem built_parameters (h : Rule.parameters.body.Yields ending Built taken rest stop inner) :
    Built .parameters taken rest stop [.node .parameters ⟨startOf ending (taken ++ rest), stop⟩ inner] := by
  rcases h with ⟨rfl, rfl, rfl⟩ | h
  · refine ⟨_, rfl, rfl, by simp [Faultless], ?_⟩
    rintro closing others rfl hclosing
    simp [PlacedToken.lexeme, hclosing, parameters?, Pair.inner]
  · obtain ⟨names, hnames⟩ := exists_names_of_yields h
    refine ⟨_, rfl, rfl, hnames.faultless, ?_⟩
    rintro closing others rfl hclosing
    have hread := hnames.read (by simp [hclosing])
    have hinner := Builder.map_identifier_ofName names
    rw [← hnames.pairs] at hinner
    obtain ⟨name, part, left, rfl, hpart, -⟩ := hnames.opens
    rw [Pair.inner, hinner, parameters?, hread]
    · simp [PlacedToken.lexeme, hclosing]
    · intro span rest' heq
      have htoken : part.token = .closeParen := congrArg Lexeme.token (List.cons.inj heq).1
      rw [hpart] at htoken
      cases htoken

/-- A list of return variables is a node of identifier leaves, and `returns?` reads the same names whether or not the
arrow is there. -/
theorem built_returnVariables (h : Rule.returnVariables.body.Yields ending Built taken rest stop inner) :
    Built .returnVariables taken rest stop
      [.node .returnVariables ⟨startOf ending (taken ++ rest), stop⟩ inner] := by
  rcases h with ⟨rfl, rfl, rfl⟩ | h
  · refine ⟨_, rfl, rfl, by simp [Faultless], fun hopen => ?_⟩
    rw [Pair.inner, List.map_nil, List.nil_append, returns?]
    intro span rest' heq
    cases rest with
    | nil => cases heq
    | cons part others =>
      have htoken : part.token = .arrow := congrArg Lexeme.token (List.cons.inj heq).1
      rw [List.map_cons, List.head?_cons, htoken] at hopen
      cases hopen
  · obtain ⟨_, xs, _, _, ps, rfl, rfl, harrow, hnames⟩ := Form.yields_append.1 h
    obtain ⟨text, span, rfl, -, rfl⟩ := exists_part harrow
    obtain ⟨names, hnames⟩ := exists_names_of_yields hnames
    refine ⟨_, rfl, rfl, ?_, fun hopen => ?_⟩
    · simpa [Faultless] using ⟨rfl, hnames.faultless⟩
    · have hinner : (leaves ⟨⟨.arrow, text⟩, span⟩ ++ ps).map identifier = names := by
        rw [hnames.pairs]
        exact Builder.map_identifier_ofName names
      rw [Pair.inner, hinner]
      exact hnames.read (by simp [hopen])

/-- Under the invariant for the inner rules, a function node builds the definition that `stmt?` reads: name,
parameters, return variables and body. -/
theorem exists_isStmt_function (h : Rule.functionDefinition.body.Yields ending Built taken rest stop inner) :
    ∃ s, IsStmt taken rest (.node .functionDefinition ⟨startOf ending (taken ++ rest), stop⟩ inner) s := by
  obtain ⟨_, zs, _, _, _, rfl, rfl, h₅, pair₃, body, rfl, hbody⟩ := Form.yields_append.1 h
  obtain ⟨_, ys, _, _, _, rfl, rfl, h₄, pair₂, rfl, hkeyword₂, hfaultless₂, hreturns⟩ := Form.yields_append.1 h₅
  obtain ⟨_, _, _, _, _, rfl, rfl, h₃, hclose⟩ := Form.yields_append.1 h₄
  obtain ⟨_, xs, _, _, _, rfl, rfl, h₂, pair₁, rfl, hkeyword₁, hfaultless₁, hparameters⟩ := Form.yields_append.1 h₃
  obtain ⟨_, _, _, _, _, rfl, rfl, h₁, hopen⟩ := Form.yields_append.1 h₂
  obtain ⟨_, _, _, _, _, rfl, rfl, hkeyword, hname⟩ := Form.yields_append.1 h₁
  obtain ⟨text, span, rfl, -, rfl⟩ := exists_part hkeyword
  obtain ⟨nameText, nameSpan, rfl, -, rfl⟩ := exists_part hname
  obtain ⟨openText, openSpan, rfl, -, rfl⟩ := exists_part hopen
  obtain ⟨closeText, closeSpan, rfl, -, rfl⟩ := exists_part hclose
  refine ⟨.function ⟨span.start, stop⟩ (String.ofList nameText) (pair₁.inner.map identifier)
    (pair₂.inner.map identifier) body, rfl, ?_, ?_, fun _ => ?_⟩
  · have hvisible : visible (leaves ⟨⟨.keyword .function, text⟩, span⟩ ++
        leaves ⟨⟨.identifier, nameText⟩, nameSpan⟩ ++ leaves ⟨⟨.openParen, openText⟩, openSpan⟩ ++ [pair₁] ++
        leaves ⟨⟨.closeParen, closeText⟩, closeSpan⟩ ++ [pair₂] ++ [pair₃]) =
          [.leaf .identifier nameSpan nameText, pair₁, pair₂, pair₃] := by
      have hpairs : visible [pair₁, pair₂, pair₃] = [pair₁, pair₂, pair₃] := by
        simp [visible_cons, hkeyword₁, hkeyword₂, hbody.isKeyword]
      exact congrArg (.leaf .identifier nameSpan nameText :: ·) hpairs
    rw [Builder.statement_function hvisible]
    simp only [List.append_assoc, List.cons_append, List.nil_append, startOf]
    rw [builtFrom_cons, builtFrom_cons, builtFrom_cons, hfaultless₁.builtFrom_append, builtFrom_cons,
      hfaultless₂.builtFrom_append]
    · exact map_builtFrom hbody.built
    all_goals simp
  · exact ⟨.keyword .function, _, rfl, by simp⟩
  · have hreadParameters := hparameters ⟨⟨.closeParen, closeText⟩, closeSpan⟩ (ys ++ (zs ++ rest)) rfl rfl
    rw [← hbody.stop]
    simp only [List.append_assoc]
    exact .function hreadParameters (hreturns (hbody.head? rest)) hbody.read

/-- A case clause builds a clause with a value, and `cases?` reads that clause before the clauses that follow. -/
theorem built_case (h : Rule.caseClause.body.Yields ending Built taken rest stop inner) :
    Built .caseClause taken rest stop [.node .caseClause ⟨startOf ending (taken ++ rest), stop⟩ inner] := by
  obtain ⟨_, ys, _, _, _, rfl, rfl, hfront, pair', body, rfl, hbody⟩ := Form.yields_append.1 h
  obtain ⟨_, _, _, _, _, rfl, rfl, hkeyword, part, pair, value, rfl, -, rfl, hvalue⟩ := Form.yields_append.1 hfront
  obtain ⟨text, span, rfl, -, rfl⟩ := exists_part hkeyword
  have hopens : SpeltToken.token ⟨.keyword .case, text⟩ ≠ .openParen := by simp [SpeltToken.token]
  refine ⟨_, ⟨⟨span.start, stop⟩, some value, body⟩, rfl, ⟨rfl, ?_, rfl, ⟨_, _, rfl, hopens⟩⟩, rfl,
    fun others left hothers => ?_⟩
  · have hvisible : visible (leaves ⟨⟨.keyword .case, text⟩, span⟩ ++ [pair] ++ [pair']) = [pair, pair'] := by
      simp [leaves, Terminal.isNode, visible_cons, hvalue.isKeyword, hbody.isKeyword]
    rw [Builder.clause_case hvisible]
    exact bind_builtFrom hvalue.built (map_builtFrom hbody.built)
  · rw [← hbody.stop, List.append_assoc]
    exact .case hvalue.read hbody.read hothers

/-- A default clause builds a clause without a value, which `cases?` reads only as the last one. -/
theorem built_default (h : Rule.defaultClause.body.Yields ending Built taken rest stop inner) :
    Built .defaultClause taken rest stop [.node .defaultClause ⟨startOf ending (taken ++ rest), stop⟩ inner] := by
  obtain ⟨_, ys, _, _, _, rfl, rfl, hkeyword, pair, body, rfl, hbody⟩ := Form.yields_append.1 h
  obtain ⟨text, span, rfl, -, rfl⟩ := exists_part hkeyword
  have hopens : SpeltToken.token ⟨.keyword .default, text⟩ ≠ .openParen := by simp [SpeltToken.token]
  refine ⟨_, ⟨⟨span.start, stop⟩, none, body⟩, rfl, ⟨rfl, ?_, rfl, ⟨_, _, rfl, hopens⟩⟩, rfl, ?_⟩
  · have hvisible : visible (leaves ⟨⟨.keyword .default, text⟩, span⟩ ++ [pair]) = [pair] := by
      simp [leaves, Terminal.isNode, visible_cons, hbody.isKeyword]
    rw [Builder.clause_default hvisible]
    exact map_builtFrom hbody.built
  · rw [← hbody.stop]
    exact .default hbody.read

/-- The nodes are built into clauses that are read from the parts. -/
structure Clauses (taken rest : List PlacedToken) (pairs : List Pair) (cs : List Case) : Prop where
  visible : visible pairs = pairs
  built : pairs.mapM Builder.clause = builtFrom taken cs
  read : EndsStatement (rest.map (·.token)) → ReadsCases cs (lexemesOf (taken ++ rest)) (lexemesOf rest)

/-- No clause taken is an empty list of clauses for the builder and for `cases?`. -/
theorem clauses_nil (rest : List PlacedToken) : Clauses [] rest [] [] := by
  refine ⟨rfl, rfl, fun hrest => ?_⟩
  have hcase := hrest.head?_ne (.keyword .case) (by simp)
  have hdefault := hrest.head?_ne (.keyword .default) (by simp)
  obtain ⟨next, others, rfl⟩ := hrest.exists_part
  refine .none ?_ ?_
  · intro span rest' heq
    exact hdefault (congrArg (some <| Lexeme.token ·) (List.cons.inj heq).1)
  · intro span lexeme rest' heq
    exact hcase (congrArg (some <| Lexeme.token ·) (List.cons.inj heq).1)

/-- A default clause alone is a clause list, ending where the clause ends. -/
theorem exists_clauses_default (h : Built .defaultClause taken rest stop pairs) :
    ∃ c, c.value = none ∧ c.span.stop = stop ∧ Clauses taken rest pairs [c] := by
  obtain ⟨pair, c, rfl, hc, hvalue, hread⟩ := h
  refine ⟨c, hvalue, hc.stop, visible_cons hc.isKeyword [], ?_, fun _ => hread⟩
  rw [List.mapM_cons]
  exact map_builtFrom hc.built

/-- A case clause in front of a clause list is again a clause list. The rest of the first is what the second takes. -/
theorem exists_clauses_cons {ys : List PlacedToken} {qs : List Pair} {cs : List Case}
    (h : Built .caseClause taken (ys ++ rest) stop pairs) (hcs : Clauses ys rest qs cs) :
    ∃ c, c.value.isSome ∧ Clauses (taken ++ ys) rest (pairs ++ qs) (c :: cs) := by
  obtain ⟨pair, c, rfl, hc, hvalue, hread⟩ := h
  refine ⟨c, hvalue, ?_, ?_, fun hrest => ?_⟩
  · rw [List.singleton_append, visible_cons hc.isKeyword, hcs.visible]
  · rw [List.singleton_append, List.mapM_cons]
    exact bind_builtFrom hc.built (map_builtFrom hcs.built)
  · rw [List.append_assoc]
    exact hread cs _ (hcs.read hrest)

/-- A run of case clauses in front of a clause list is a clause list, all of the new clauses with a value. The
induction is on the run. -/
theorem exists_clauses_many (h : (Form.many Rule.caseClause).Yields ending Built taken rest stop pairs) :
    ∀ {zs rest' : List PlacedToken} {qs : List Pair} {tail : List Case}, rest = zs ++ rest' →
      Clauses zs rest' qs tail → ∃ cs : List Case, (∀ c ∈ cs, c.value.isSome) ∧
        Clauses (taken ++ zs) rest' (pairs ++ qs) (cs ++ tail) := by
  refine repeats_induction (motive := fun taken rest pairs => ∀ {zs rest' : List PlacedToken} {qs : List Pair}
    {tail : List Case}, rest = zs ++ rest' → Clauses zs rest' qs tail → ∃ cs : List Case,
      (∀ c ∈ cs, c.value.isSome) ∧ Clauses (taken ++ zs) rest' (pairs ++ qs) (cs ++ tail)) ?_ ?_ h
  · intro rest zs rest' qs tail hrest htail
    exact ⟨[], by simp, htail⟩
  · intro xs ys rest stop ps qs hcase ih zs rest' qs' tail hrest htail
    obtain ⟨cs, hvalues, hclauses⟩ := ih hrest htail
    rw [hrest, ← List.append_assoc] at hcase
    obtain ⟨c, hvalue, hall⟩ := exists_clauses_cons hcase hclauses
    refine ⟨c :: cs, List.forall_mem_cons.2 ⟨hvalue, hvalues⟩, ?_⟩
    rwa [List.append_assoc, List.append_assoc]

/-- A switch with a default clause ends where that clause ends. -/
theorem switchEnd?_concat {c : Case} (h : c.value = none) (cases : List Case) (lexemes : List Lexeme) :
    switchEnd? (cases ++ [c]) lexemes = some c.span.stop := by
  obtain ⟨span, value, body⟩ := c
  subst h
  rw [switchEnd?, List.getLast?_concat]

/-- A switch of valued clauses only ends where the source reader looks for the end of an open construct, since the
default clause was tried there. -/
theorem switchEnd?_of_forall {cases : List Case} (hne : cases ≠ []) (h : ∀ c ∈ cases, c.value.isSome)
    (lexemes : List Lexeme) : switchEnd? cases lexemes = openEnd? lexemes := by
  have hlast := h _ (List.getLast_mem hne)
  rw [switchEnd?, List.getLast?_eq_some_getLast hne]
  generalize cases.getLast hne = last at hlast
  obtain ⟨span, _ | value, body⟩ := last
  · cases hlast
  · rfl

/-- The clauses of a switch, and where it ends. -/
theorem exists_clauses_of_yields
    (h : (Form.oneOrMore Rule.caseClause ++ .optional Rule.defaultClause <|> (Rule.defaultClause : Form)).Yields
      ending Built taken rest stop pairs) :
    ∃ cs, Clauses taken rest pairs cs ∧ (∃ part others, taken = part :: others ∧ part.token ≠ .openParen) ∧
      (EndsStatement (rest.map (·.token)) → switchEnd? cs (lexemesOf rest) = some stop) := by
  rcases h with h | h
  · obtain ⟨_, zs, _, _, _, rfl, rfl, hcases, hdefault⟩ := h
    obtain ⟨xs, ys, _, ps, ps', rfl, rfl, hfirst, hmany⟩ := hcases
    have hopens : ∃ part others, xs ++ ys ++ zs = part :: others ∧ part.token ≠ .openParen := by
      obtain ⟨_, _, -, hc, -⟩ := id hfirst
      obtain ⟨part, others, rfl, hpart⟩ := hc.opens
      exact ⟨part, others ++ ys ++ zs, rfl, hpart⟩
    have hcons {tail : List Case} {qs : List Pair} (htail : Clauses zs rest qs tail) :
        ∃ cs : List Case, cs ≠ [] ∧ (∀ c ∈ cs, c.value.isSome) ∧
          Clauses (xs ++ ys ++ zs) rest (ps ++ ps' ++ qs) (cs ++ tail) := by
      obtain ⟨cs, hvalues, hclauses⟩ := exists_clauses_many hmany rfl htail
      rw [← List.append_assoc] at hfirst
      obtain ⟨c, hvalue, hall⟩ := exists_clauses_cons hfirst hclauses
      refine ⟨c :: cs, List.cons_ne_nil _ _, List.forall_mem_cons.2 ⟨hvalue, hvalues⟩, ?_⟩
      rw [List.append_assoc, List.append_assoc]
      exact hall
    rcases hdefault with ⟨rfl, rfl, rfl⟩ | hdefault
    · obtain ⟨cs, hne, hvalues, hall⟩ := hcons (clauses_nil rest)
      refine ⟨cs ++ [], hall, hopens, fun hrest => ?_⟩
      obtain ⟨next, others, rfl⟩ := hrest.exists_part
      rw [List.append_nil, switchEnd?_of_forall hne hvalues]
      rfl
    · obtain ⟨c, hvalue, hstop, hc⟩ := exists_clauses_default hdefault
      obtain ⟨cs, -, -, hall⟩ := hcons hc
      exact ⟨cs ++ [c], hall, hopens, fun _ => by rw [switchEnd?_concat hvalue, hstop]⟩
  · obtain ⟨c, hvalue, hstop, hc⟩ := exists_clauses_default h
    obtain ⟨_, _, -, hdefault, -⟩ := h
    exact ⟨[c], hc, hdefault.opens, fun _ => by rw [← List.nil_append [c], switchEnd?_concat hvalue, hstop]⟩

/-- Under the invariant for the inner rules, a `switch` node builds the switch that `stmt?` reads, with or without a
default clause. -/
theorem exists_isStmt_switch (h : Rule.switchStatement.body.Yields ending Built taken rest stop inner) :
    ∃ s, IsStmt taken rest (.node .switchStatement ⟨startOf ending (taken ++ rest), stop⟩ inner) s := by
  obtain ⟨_, ys, _, _, qs, rfl, rfl, hfront, hclauses⟩ := Form.yields_append.1 h
  obtain ⟨_, xs, _, _, _, rfl, rfl, hkeyword, pair, scrutinee, rfl, hscrutinee⟩ := Form.yields_append.1 hfront
  obtain ⟨text, span, rfl, -, rfl⟩ := exists_part hkeyword
  obtain ⟨cs, hclauses, ⟨part, others, rfl, hpart⟩, hstop⟩ := exists_clauses_of_yields hclauses
  refine ⟨.switch ⟨span.start, stop⟩ scrutinee cs, rfl, ?_, ?_, fun hrest => ?_⟩
  · have hvisible : visible (leaves ⟨⟨.keyword .switch, text⟩, span⟩ ++ [pair] ++ qs) = pair :: qs := by
      have hpairs := visible_cons hscrutinee.isKeyword qs
      rw [hclauses.visible] at hpairs
      exact hpairs
    rw [Builder.statement_switch hvisible]
    exact bind_builtFrom hscrutinee.built (map_builtFrom hclauses.built)
  · exact ⟨.keyword .switch, _, rfl, by simp⟩
  · have hopen : NotOpening (lexemesOf (part :: others ++ rest)) := notOpening_of_head? rfl hpart
    rw [List.append_assoc]
    exact .switch (hscrutinee.read hopen) (hclauses.read hrest) (hstop hrest)

/-- A statement of one keyword is a node with nothing inside, where the keyword stands. -/
theorem exists_isStmt_keyword {r : Rule} {word : Keyword} {make : Span → Stmt}
    (h : (Form.terminal (.keyword word)).Yields ending Built taken rest stop inner)
    (hleaf : (Terminal.keyword word).isNode = false)
    (hword : word ≠ .case ∧ word ≠ .default) (hbuilt : ∀ span, Builder.statement (.node r span []) = .ok (make span))
    (hread : ∀ span others, ReadsStmt (make span) (⟨.keyword word, span⟩ :: others) others) :
    ∃ s, IsStmt taken rest (.node r ⟨startOf ending (taken ++ rest), stop⟩ inner) s := by
  obtain ⟨text, span, rfl, rfl, rfl⟩ := exists_part h
  have hinner : leaves ⟨⟨.keyword word, text⟩, span⟩ = [] := if_neg (by simp [hleaf])
  rw [hinner]
  exact ⟨make span, rfl, hbuilt span, ⟨.keyword word, [], rfl, by simp [hword]⟩, fun _ => hread span _⟩

/-- A block in statement position builds a block statement, and `stmt?` reads the same block. -/
theorem IsBlock.isStmt {pair : Pair} {b : Block} (h : IsBlock taken rest stop pair b) :
    IsStmt taken rest pair (.block b) where
  isKeyword := h.isKeyword
  built := (Builder.statement_block h.symbol).trans (map_builtFrom h.built)
  opens := by
    obtain ⟨part, others, rfl, hpart⟩ := h.opens
    exact ⟨.openBrace, _, congrArg (· :: _) hpart, by simp⟩
  read _ := .block h.read

/-- Whatever the right-hand side of a rule matches is built into what is read. -/
theorem built_of_yields (r : Rule) (taken rest : List PlacedToken) (stop : Nat) (inner : List Pair)
    (h : r.body.Yields ending Built taken rest stop inner) :
    Built r taken rest stop (r.pairs ⟨startOf ending (taken ++ rest), stop⟩ inner) := by
  cases r with
  | block =>
    obtain ⟨b, hb⟩ := exists_isBlock h
    exact ⟨_, b, rfl, hb⟩
  | statement =>
    rcases h with ⟨pair, b, rfl, hb⟩ | h | h | h | h | h | h | h | h | h | h
    · exact ⟨pair, .block b, rfl, hb.isStmt⟩
    all_goals exact h
  | functionDefinition =>
    obtain ⟨s, hs⟩ := exists_isStmt_function h
    exact ⟨_, s, rfl, hs⟩
  | parameters => exact built_parameters h
  | returnVariables => exact built_returnVariables h
  | variableDeclaration =>
    obtain ⟨s, hs⟩ := exists_isStmt_declaration h
    exact ⟨_, s, rfl, hs⟩
  | assignment =>
    obtain ⟨s, hs⟩ := exists_isStmt_assignment h
    exact ⟨_, s, rfl, hs⟩
  | expressionStatement =>
    obtain ⟨s, hs⟩ := exists_isStmt_expression h
    exact ⟨_, s, rfl, hs⟩
  | ifStatement =>
    obtain ⟨s, hs⟩ := exists_isStmt_if h
    exact ⟨_, s, rfl, hs⟩
  | switchStatement =>
    obtain ⟨s, hs⟩ := exists_isStmt_switch h
    exact ⟨_, s, rfl, hs⟩
  | caseClause => exact built_case h
  | defaultClause => exact built_default h
  | forLoop =>
    obtain ⟨s, hs⟩ := exists_isStmt_for h
    exact ⟨_, s, rfl, hs⟩
  | breakStatement =>
    have hbuilt (span : Span) : Builder.statement (.node .breakStatement span []) = .ok (.break span) := by
      rw [Builder.statement]
      rfl
    obtain ⟨s, hs⟩ := exists_isStmt_keyword h rfl (by simp) hbuilt fun _ _ => .break
    exact ⟨_, s, rfl, hs⟩
  | continueStatement =>
    have hbuilt (span : Span) : Builder.statement (.node .continueStatement span []) = .ok (.continue span) := by
      rw [Builder.statement]
      rfl
    obtain ⟨s, hs⟩ := exists_isStmt_keyword h rfl (by simp) hbuilt fun _ _ => .continue
    exact ⟨_, s, rfl, hs⟩
  | leaveStatement =>
    have hbuilt (span : Span) : Builder.statement (.node .leaveStatement span []) = .ok (.leave span) := by
      rw [Builder.statement]
      rfl
    obtain ⟨s, hs⟩ := exists_isStmt_keyword h rfl (by simp) hbuilt fun _ _ => .leave
    exact ⟨_, s, rfl, hs⟩
  | expression =>
    rcases h with ⟨pair, span, callee, es, rfl, he, -⟩ | ⟨part, pair, value, rfl, rfl, rfl, hvalue⟩ | h
    · exact ⟨pair, .call span callee es, rfl, he⟩
    · exact ⟨pair, .literal value, rfl, hvalue.isExpr rest⟩
    · obtain ⟨text, span, rfl, rfl, rfl⟩ := exists_part h
      exact ⟨_, _, rfl, isExpr_identifier span text rest⟩
  | functionCall =>
    obtain ⟨span, callee, es, he, hopens⟩ := exists_isExpr_call (fun _ _ _ _ h => h) h
    exact ⟨_, span, callee, es, rfl, he, hopens⟩
  | literal => exact exists_isLiteral_of_yields h

/-- The tree of a match of a block is built into the block that is read from the same parts. -/
theorem exists_isBlock_of_matches {parts : List PlacedToken}
    (h : Grammar.Matches ending Rule.block parts [] stop pairs) :
    ∃ pair b, pairs = [pair] ∧ IsBlock parts [] stop pair b :=
  h.yields built_of_yields

end Parser

end YulBackend
