import YulBackend.Proofs.Parser.BuiltTrees
import YulBackend.Proofs.Syntax.Termination

namespace YulBackend

namespace Grammar

/-- The lexemes that the text has from this place on. -/
def Cursor.Ahead (c : Cursor) (lexemes : List Lexeme) : Prop :=
  ∃ ending parts, Faces ending c parts ∧ lexemesOf parts = lexemes

/-- Where no gap is in front of the lexemes, `Runs` matches the form with those that are not left. -/
def Passes (f : Form) (lexemes left : List Lexeme) : Prop :=
  ∀ c : Cursor, c.skip = c → c.Ahead lexemes → ∃ c' pairs, Runs f c c' pairs ∧ c'.Ahead left

/-- Behind a match, `RunsOn` repeats the form with the lexemes that are not left. -/
def PassesOn (body : Form) (lexemes left : List Lexeme) : Prop :=
  ∀ c : Cursor, c.Ahead lexemes → ∃ c' pairs, RunsOn body c c' pairs ∧ c'.Ahead left

/-- Where no gap is in front of the lexemes, `Fails` holds of the form. -/
def Refuses (f : Form) (lexemes : List Lexeme) : Prop := ∀ c : Cursor, c.skip = c → c.Ahead lexemes → Fails f c

/-- The next lexeme, if there is one, is not of this class. -/
def NextIsNot (t : Terminal) (lexemes : List Lexeme) : Prop := ∀ lexeme ∈ lexemes.head?, lexeme.token.terminal ≠ t

variable {f g body : Form} {t : Terminal} {r : Rule} {c : Cursor} {lexeme : Lexeme}
  {lexemes middle rest : List Lexeme}

theorem Cursor.ahead_skip_iff : c.skip.Ahead lexemes ↔ c.Ahead lexemes := by
  simp only [Cursor.Ahead, faces_skip_iff]

theorem Cursor.Ahead.skip (h : c.Ahead lexemes) : c.skip.Ahead lexemes := Cursor.ahead_skip_iff.2 h

theorem nextIsNot_cons : NextIsNot t (lexeme :: rest) ↔ lexeme.token.terminal ≠ t := by
  simp [NextIsNot]

/-- Where no gap is in front, the text is over, or the next lexeme is what the pattern of its class takes and of no
other class. -/
theorem Cursor.Ahead.cases_of_skip (h : c.Ahead lexemes) (hskip : c.skip = c) :
    (lexemes = [] ∧ c.chars = []) ∨ ∃ lexeme rest c' pairs, lexemes = lexeme :: rest ∧ c'.Ahead rest ∧
      lexeme.token.terminal.run c = some (c', pairs) ∧ ∀ t, lexeme.token.terminal ≠ t → t.run c = none := by
  obtain ⟨ending, parts, hfaces, rfl⟩ := h
  obtain ⟨hchars, rfl⟩ | ⟨part, others, text, rfl, hchars, hcut, -, hrest⟩ := hfaces.cases_of_skip hskip
  · exact .inl ⟨rfl, hchars⟩
  have hterminal : part.lexeme.token.terminal = part.terminal := hcut.terminal_token
  obtain ⟨pairs, hrun⟩ : ∃ pairs, part.terminal.run c = some (c.pass part.source text, pairs) := by
    rw [Terminal.run, cut?_pattern.2 ⟨part.text, hcut, rfl, hchars⟩]
    exact ⟨_, rfl⟩
  refine .inr ⟨part.lexeme, lexemesOf others, c.pass part.source text, pairs, rfl, ⟨ending, others, hrest, rfl⟩,
    hterminal ▸ hrun, fun t ht => ?_⟩
  rw [Terminal.run, Option.map_eq_none_iff, Option.eq_none_iff_forall_not_mem]
  rintro ⟨taken, rest⟩ htaken
  obtain ⟨raw, hcut', rfl, hchars'⟩ := cut?_pattern.1 htaken
  have hpart := (hcut.unique hcut' (hchars.symm.trans hchars')).1
  exact ht (hterminal.trans (congrArg SpeltToken.terminal hpart))

namespace Passes

/-- A terminal passes over a lexeme of its own kind. The lexer cut that lexeme by the longest match, and so does the
terminal's pattern. -/
theorem terminal (h : lexeme.token.terminal = t) : Passes (.terminal t) (lexeme :: rest) rest := by
  subst h
  intro c hskip hahead
  obtain ⟨hnil, -⟩ | ⟨_, _, c', pairs, heq, hleft, hrun, -⟩ := hahead.cases_of_skip hskip
  · cases hnil
  · cases heq
    exact ⟨c', pairs, .terminal hrun, hleft⟩

theorem rule (h : Passes r.body lexemes rest) : Passes (.rule r) lexemes rest := by
  intro c hskip hahead
  obtain ⟨c', pairs, hrun, hleft⟩ := h c hskip hahead
  exact ⟨c', _, .rule hrun, hleft⟩

/-- A sequence passes over what its parts pass over in turn. -/
theorem append (hfirst : Passes f lexemes middle) (hsecond : Passes g middle rest) :
    Passes (f ++ g) lexemes rest := by
  intro c hskip hahead
  obtain ⟨c₁, ps, hrun₁, hleft₁⟩ := hfirst c hskip hahead
  obtain ⟨c₂, qs, hrun₂, hleft₂⟩ := hsecond c₁.skip (Cursor.skip_skip c₁) hleft₁.skip
  exact ⟨c₂, ps ++ qs, .sequence hrun₁ hrun₂, hleft₂⟩

/-- One more token behind a match. -/
theorem token (hfirst : Passes f lexemes (lexeme :: rest)) (ht : lexeme.token.terminal = t) :
    Passes (f ++ .terminal t) lexemes rest :=
  hfirst.append (.terminal ht)

/-- A choice passes over what its first alternative passes over. -/
theorem left (h : Passes f lexemes rest) : Passes (f <|> g) lexemes rest := by
  intro c hskip hahead
  obtain ⟨c', pairs, hrun, hleft⟩ := h c hskip hahead
  exact ⟨c', pairs, .left hrun, hleft⟩

/-- A choice tries its second alternative only where the first refuses. -/
theorem right (hfirst : Refuses f lexemes) (h : Passes g lexemes rest) : Passes (f <|> g) lexemes rest := by
  intro c hskip hahead
  obtain ⟨c', pairs, hrun, hleft⟩ := h c hskip hahead
  exact ⟨c', pairs, .right (hfirst c hskip hahead) hrun, hleft⟩

/-- An optional form passes over its body where the body passes. -/
theorem present (h : Passes body lexemes rest) : Passes (.optional body) lexemes rest := by
  intro c hskip hahead
  obtain ⟨c', pairs, hrun, hleft⟩ := h c hskip hahead
  exact ⟨c', pairs, .present hrun, hleft⟩

theorem absent (h : Refuses body lexemes) : Passes (.optional body) lexemes lexemes := by
  intro c hskip hahead
  exact ⟨c, [], .absent (h c hskip hahead), hahead⟩

end Passes

namespace PassesOn

theorem stop (h : Refuses body lexemes) : PassesOn body lexemes lexemes := by
  intro c hahead
  exact ⟨c, [], .stop (h c.skip (Cursor.skip_skip c) hahead.skip), hahead⟩

theorem further (h : Passes body lexemes middle) (hon : PassesOn body middle rest) : PassesOn body lexemes rest := by
  intro c hahead
  obtain ⟨c₁, ps, hrun, hleft⟩ := h c.skip (Cursor.skip_skip c) hahead.skip
  obtain ⟨c₂, qs, hrun', hrest⟩ := hon c₁ hleft
  exact ⟨c₂, ps ++ qs, .further hrun hrun', hrest⟩

/-- What `PassesOn` takes behind a match is what a repetition takes that starts there. -/
theorem many (h : PassesOn body lexemes rest) : Passes (.many body) lexemes rest := by
  intro c hskip hahead
  obtain ⟨c', pairs, hon, hleft⟩ := h c hahead
  cases hon with
  | stop hfail =>
    rw [hskip] at hfail
    exact ⟨c, [], .none hfail, hleft⟩
  | further hrun hon =>
    rw [hskip] at hrun
    exact ⟨c', _, .some hrun hon, hleft⟩

end PassesOn

namespace Refuses

/-- A terminal refuses in front of a lexeme of another kind, and at the end of the text. -/
theorem terminal (h : NextIsNot t lexemes) : Refuses (.terminal t) lexemes := by
  intro c hskip hahead
  obtain ⟨rfl, hchars⟩ | ⟨lexeme, _, _, _, rfl, -, -, hother⟩ := hahead.cases_of_skip hskip
  · cases hrun : t.run c with
    | none => exact .terminal hrun
    | some found =>
      have hlength := Terminal.length_lt_of_run hrun
      rw [hchars] at hlength
      cases hlength
  · exact .terminal (hother t (nextIsNot_cons.1 h))

theorem rule (h : Refuses r.body lexemes) : Refuses (.rule r) lexemes :=
  fun c hskip hahead => .rule (h c hskip hahead)

theorem first (h : Refuses f lexemes) : Refuses (f ++ g) lexemes :=
  fun c hskip hahead => .first (h c hskip hahead)

/-- A sequence refuses where its second part refuses after the first passed: nothing is tried again behind a passed
part. -/
theorem second (hfirst : Passes f lexemes middle) (h : Refuses g middle) : Refuses (f ++ g) lexemes := by
  intro c hskip hahead
  obtain ⟨c', pairs, hrun, hleft⟩ := hfirst c hskip hahead
  exact .second hrun (h c'.skip (Cursor.skip_skip c') hleft.skip)

theorem orElse (hfirst : Refuses f lexemes) (hsecond : Refuses g lexemes) : Refuses (f <|> g) lexemes :=
  fun c hskip hahead => .choice (hfirst c hskip hahead) (hsecond c hskip hahead)

end Refuses

/-- The class of the token that a form starts with, if that is settled before anything is chosen. -/
def Form.opening? : Form → Option Terminal
  | terminal t => some t
  | sequence first _ => first.opening?
  | _ => none

/-- A form that starts with a known terminal refuses wherever that terminal is not next. -/
theorem Refuses.of_opening (hf : f.opening? = some t) (h : NextIsNot t lexemes) : Refuses f lexemes := by
  induction f with
  | terminal s =>
    cases hf
    exact .terminal h
  | sequence first _ ih => exact (ih hf).first
  | _ => cases hf

/-- A form that starts with a known terminal refuses in front of a lexeme of another class. -/
theorem Refuses.of_ne (hf : f.opening? = some t) (h : lexeme.token.terminal ≠ t) : Refuses f (lexeme :: rest) :=
  .of_opening hf (nextIsNot_cons.2 h)

theorem NextIsNot.of_token {token : Token} (ht : t.token? = some token)
    (h : ∀ lexeme ∈ lexemes.head?, lexeme.token ≠ token) : NextIsNot t lexemes :=
  fun lexeme hlexeme hterminal => h lexeme hlexeme (Token.eq_of_terminal ht hterminal)

/-- A terminal of fixed spelling is not next when the lexemes do not begin with its token. -/
theorem NextIsNot.of_forall {token : Token} (ht : t.token? = some token)
    (h : ∀ span others, lexemes ≠ ⟨token, span⟩ :: others) : NextIsNot t lexemes := by
  refine .of_token ht ?_
  rintro ⟨token', span⟩ hnext rfl
  obtain ⟨others, rfl⟩ := List.head?_eq_some_iff.1 hnext
  exact h span others rfl

/-- The first of these forms that matches, or else the last one. -/
def Form.firstOf (last : Form) : List Form → Form
  | [] => last
  | f :: fs => f <|> firstOf last fs

/-- A list of alternatives passes by the first that passes, all those before it refusing. -/
theorem Passes.firstOf {last : Form} {before after : List Form} (hbefore : ∀ g ∈ before, Refuses g lexemes)
    (h : Passes f lexemes rest) : Passes (.firstOf last (before ++ f :: after)) lexemes rest := by
  induction before with
  | nil => exact .left h
  | cons g before ih =>
    rw [List.forall_mem_cons] at hbefore
    exact .right hbefore.1 (ih hbefore.2)

/-- A list of alternatives passes by its last one when all the others refuse. -/
theorem Passes.last {last : Form} {fs : List Form} (hfs : ∀ g ∈ fs, Refuses g lexemes)
    (h : Passes last lexemes rest) : Passes (.firstOf last fs) lexemes rest := by
  induction fs with
  | nil => exact h
  | cons g fs ih =>
    rw [List.forall_mem_cons] at hfs
    exact .right hfs.1 (ih hfs.2)

/-- A list of alternatives refuses when each of them and the last refuse. -/
theorem Refuses.firstOf {last : Form} {fs : List Form} (hfs : ∀ g ∈ fs, Refuses g lexemes)
    (h : Refuses last lexemes) : Refuses (.firstOf last fs) lexemes := by
  induction fs with
  | nil => exact h
  | cons g fs ih =>
    rw [List.forall_mem_cons] at hfs
    exact .orElse hfs.1 (ih hfs.2)

/-- The rules that a statement is tried with, but for the last. -/
def Rule.alternatives : List Rule :=
  [.block, .functionDefinition, .variableDeclaration, .ifStatement, .switchStatement, .forLoop, .breakStatement,
    .continueStatement, .leaveStatement, .assignment]

theorem Rule.body_statement :
    Rule.statement.body = .firstOf (.rule .expressionStatement) (alternatives.map Form.rule) := rfl

/-- No two of the rules that a statement is tried with start alike. -/
theorem Rule.opening?_ne_of_ne {s : Rule} (hr : r ∈ alternatives) (hs : s ∈ alternatives) (hne : s ≠ r) :
    s.body.opening? ≠ r.body.opening? := by
  have hall : ∀ r ∈ alternatives, ∀ s ∈ alternatives, s ≠ r → s.body.opening? ≠ r.body.opening? := by
    decide
  exact hall r hr s hs hne

/-- A statement alternative refuses in front of a token that does not open it. The keyword or brace decides, so no
alternative is committed to by mistake. -/
theorem Rule.refuses_of_mem_alternatives (hr : r ∈ Rule.alternatives)
    (hne : r.body.opening? ≠ some lexeme.token.terminal) : Refuses (.rule r) (lexeme :: rest) := by
  have hall : ∀ r ∈ Rule.alternatives, r.body.opening?.isSome := by
    decide
  obtain ⟨t, ht⟩ := Option.isSome_iff_exists.1 (hall r hr)
  refine .rule (.of_ne ht ?_)
  rintro rfl
  exact hne ht

/-- A statement is matched by the rule that starts with its first token. -/
theorem passes_statement (hr : r ∈ Rule.alternatives) (hopening : r.body.opening? = some lexeme.token.terminal)
    (h : Passes (.rule r) (lexeme :: lexemes) rest) : Passes (.rule .statement) (lexeme :: lexemes) rest := by
  obtain ⟨before, after, hsplit, hnotMem⟩ := List.eq_append_cons_of_mem hr
  refine .rule ?_
  rw [Rule.body_statement, hsplit, List.map_append, List.map_cons]
  refine .firstOf (List.forall_mem_map.2 fun s hs => ?_) h
  have hmem : s ∈ Rule.alternatives := by
    rw [hsplit]
    exact List.mem_append_left _ hs
  have hne : s ≠ r := by
    rintro rfl
    exact hnotMem hs
  refine Rule.refuses_of_mem_alternatives hmem ?_
  rw [← hopening]
  exact Rule.opening?_ne_of_ne hr hmem hne

/-- A call is a statement where no assignment is: behind its name there is a parenthesis. -/
theorem passes_statement_of_call {name : String} {span opening : Span}
    (h : Passes (.rule .functionCall) (⟨.identifier name, span⟩ :: ⟨.openParen, opening⟩ :: lexemes) rest) :
    Passes (.rule .statement) (⟨.identifier name, span⟩ :: ⟨.openParen, opening⟩ :: lexemes) rest := by
  refine .rule ?_
  rw [Rule.body_statement]
  refine .last (List.forall_mem_map.2 fun s hs => ?_) (.rule h)
  by_cases hassignment : s = .assignment
  · subst hassignment
    have hnames : Passes (.commaSeparated (.terminal .identifier))
        (⟨.identifier name, span⟩ :: ⟨.openParen, opening⟩ :: lexemes) (⟨.openParen, opening⟩ :: lexemes) :=
      (Passes.terminal rfl).append
        (PassesOn.stop (.of_ne rfl (by simp [Token.terminal]))).many
    exact .rule (.first (.second hnames (.of_ne rfl (by simp [Token.terminal]))))
  · exact Rule.refuses_of_mem_alternatives hs (Rule.opening?_ne_of_ne (r := .assignment) (by decide) hs hassignment)

/-- No statement starts with a closing brace, so the statements of a block stop there. -/
theorem refuses_statement {span : Span} : Refuses (.rule .statement) (⟨.closeBrace, span⟩ :: rest) := by
  refine .rule ?_
  rw [Rule.body_statement]
  refine .firstOf (List.forall_mem_map.2 fun s hs => Rule.refuses_of_mem_alternatives hs ?_) ?_
  · have hall : ∀ s ∈ Rule.alternatives, s.body.opening? ≠ some .closeBrace := by
      decide
    exact hall s hs
  · exact .rule (.rule (.of_ne rfl (by simp [Token.terminal])))

/-- A comma-separated list passes by its first element and then by a comma and an element as often as they come. -/
theorem Passes.commaSeparated (h : Passes f lexemes middle) (hon : PassesOn (.terminal .comma ++ f) middle rest) :
    Passes f.commaSeparated lexemes rest :=
  h.append hon.many

/-- The classes of the tokens that are literals. -/
def Terminal.literals : List Terminal := [.hexNumber, .decimalNumber, .stringLiteral, .boolLiteral]

/-- A lexeme that reads as a literal has one of the literal terminals. -/
theorem terminal_mem_literals {value : Literal} (h : lexeme.literal? = some value) :
    lexeme.token.terminal ∈ Terminal.literals := by
  obtain ⟨token, span⟩ := lexeme
  cases token with
  | literal kind value =>
    rcases Token.terminal_literal kind value with hclass | hclass | hclass | hclass <;>
      simp [hclass, Terminal.literals]
  | badString _ => simp [Token.terminal, Terminal.literals]
  | _ => cases h

/-- The literal rule passes over any one lexeme of a literal terminal. -/
theorem passes_literal (h : lexeme.token.terminal ∈ Terminal.literals) :
    Passes (.rule .literal) (lexeme :: rest) rest := by
  simp only [Terminal.literals, List.mem_cons, List.not_mem_nil, or_false] at h
  refine .rule ?_
  rcases h with hclass | hclass | hclass | hclass
  · exact .left (.terminal hclass)
  · exact .right (.of_ne rfl (by simp [hclass])) (.left (.terminal hclass))
  · exact .right (.of_ne rfl (by simp [hclass])) (.right (.of_ne rfl (by simp [hclass])) (.left (.terminal hclass)))
  · exact .right (.of_ne rfl (by simp [hclass])) (.right (.of_ne rfl (by simp [hclass]))
      (.right (.of_ne rfl (by simp [hclass])) (.terminal hclass)))

/-- The literal rule refuses in front of anything but a literal. -/
theorem refuses_literal (h : ∀ lexeme ∈ lexemes.head?, lexeme.token.terminal ∉ Terminal.literals) :
    Refuses (.rule .literal) lexemes := by
  have hnext (t : Terminal) (ht : t ∈ Terminal.literals) : Refuses (.terminal t) lexemes := by
    refine .terminal fun lexeme hlexeme hclass => h lexeme hlexeme ?_
    rwa [hclass]
  exact .rule (.orElse (hnext _ (by decide)) (.orElse (hnext _ (by decide))
    (.orElse (hnext _ (by decide)) (hnext _ (by decide)))))

/-- No expression starts with a closing parenthesis, so an empty argument list stays empty. -/
theorem refuses_expression {span : Span} : Refuses (.rule .expression) (⟨.closeParen, span⟩ :: rest) := by
  have hcall : Refuses (.rule .functionCall) (⟨.closeParen, span⟩ :: rest) :=
    .rule (.of_ne rfl (by simp [Token.terminal]))
  exact .rule (.orElse hcall (.orElse (refuses_literal (by simp [Token.terminal, Terminal.literals]))
    (.of_ne rfl (by simp [Token.terminal]))))

end Grammar

open Grammar

namespace Parser

/-- What `names?` reads starts with a name, and goes on as long as there are commas. -/
theorem exists_passesOn_of_names? {lexemes rest : List Lexeme} {names : List Identifier}
    (h : names? lexemes = some (names, rest)) : ∃ name span others, lexemes = ⟨.identifier name, span⟩ :: others ∧
      PassesOn (.terminal .comma ++ .terminal .identifier) others rest := by
  fun_induction names? lexemes generalizing names with
  | case1 name span _ left ih =>
    obtain ⟨⟨names', left'⟩, hnames, heq⟩ := Option.bind_eq_some_iff.1 h
    cases heq
    obtain ⟨name', span', others, rfl, hon⟩ := ih hnames
    exact ⟨name, span, _, rfl, .further ((Passes.terminal rfl).token rfl) hon⟩
  | case2 name span others hcomma =>
    cases h
    exact ⟨name, span, _, rfl, .stop (.of_opening rfl (.of_forall rfl hcomma))⟩
  | case3 => cases h

theorem passes_names {lexemes rest : List Lexeme} {names : List Identifier}
    (h : names? lexemes = some (names, rest)) :
    Passes (.commaSeparated (.terminal .identifier)) lexemes rest := by
  obtain ⟨name, span, others, rfl, hon⟩ := exists_passesOn_of_names? h
  exact (Passes.terminal rfl).commaSeparated hon

/-- The parameters that `parameters?` reads are passed by the parameter rule, which stops in front of the closing
parenthesis. -/
theorem exists_passes_parameters {lexemes rest : List Lexeme} {names : List Identifier}
    (h : parameters? lexemes = some (names, rest)) :
    ∃ closing, Passes (.rule .parameters) lexemes (⟨.closeParen, closing⟩ :: rest) := by
  unfold parameters? at h
  split at h
  next closing left =>
    cases h
    exact ⟨closing, .rule (.absent (.of_ne rfl (by simp [Token.terminal])))⟩
  next =>
    obtain ⟨⟨names', left⟩, hnames, h⟩ := Option.bind_eq_some_iff.1 h
    dsimp only at h
    split at h
    next closing _ =>
      cases h
      exact ⟨closing, .rule (.present (passes_names hnames))⟩
    next => cases h

/-- The return variables that `returns?` reads are passed by their rule. -/
theorem passes_returnVariables {lexemes rest : List Lexeme} {names : List Identifier}
    (h : returns? lexemes = some (names, rest)) : Passes (.rule .returnVariables) lexemes rest := by
  unfold returns? at h
  split at h
  next => exact .rule (.present ((Passes.terminal rfl).append (passes_names h)))
  next harrow =>
    cases h
    exact .rule (.absent (.of_opening rfl (.of_forall rfl harrow)))

theorem passes_functionCall {name : String} {span opening : Span} {lexemes rest : List Lexeme}
    (h : ∃ closing, Passes (.optional (.commaSeparated (.rule .expression))) lexemes (⟨.closeParen, closing⟩ :: rest)) :
    Passes (.rule .functionCall) (⟨.identifier name, span⟩ :: ⟨.openParen, opening⟩ :: lexemes) rest := by
  obtain ⟨closing, h⟩ := h
  exact .rule ((((Passes.terminal rfl).token rfl).append h).token rfl)

mutual

/-- What `ReadsExpr` reads is what an expression matches: a call where a parenthesis follows the name, or else a
literal or a name. -/
theorem ReadsExpr.passes : ∀ {e : Expr} {lexemes rest : List Lexeme}, ReadsExpr e lexemes rest →
    Passes (.rule .expression) lexemes rest
  | _, _, _, .call h => .rule (.left (passes_functionCall h.exists_passes))
  | _, _, _, .name hopen => by
    have hcall : Refuses (.terminal .openParen) _ := .terminal (.of_token rfl hopen)
    refine .rule (.right (.rule (.first (.first (.second (.terminal rfl) hcall)))) (.right ?_ (.terminal rfl)))
    exact refuses_literal (by simp [Terminal.literals])
  | _, _, _, .literal hvalue => by
    have hclass := terminal_mem_literals hvalue
    refine .rule (.right (.rule (.of_ne rfl ?_)) (.left (passes_literal hclass)))
    intro hname
    rw [hname] at hclass
    simp [Terminal.literals] at hclass

/-- An argument list that `arguments?` reads is passed by the optional expression list, up to the closing
parenthesis. -/
theorem ReadsArguments.exists_passes : ∀ {es : List Expr} {stop : Nat} {lexemes rest : List Lexeme},
    ReadsArguments es stop lexemes rest → ∃ closing,
      Passes (.optional (.commaSeparated (.rule .expression))) lexemes (⟨.closeParen, closing⟩ :: rest)
  | _, _, _, _, .none => ⟨_, .absent (.first refuses_expression)⟩
  | _, _, _, _, .some hfirst hothers => by
    obtain ⟨closing, hon⟩ := hothers.exists_passesOn
    exact ⟨closing, .present (hfirst.passes.commaSeparated hon)⟩

/-- Further arguments that `moreArguments?` reads are passed by the repetition of a comma and an expression. -/
theorem ReadsMoreArguments.exists_passesOn : ∀ {es : List Expr} {stop : Nat} {lexemes rest : List Lexeme},
    ReadsMoreArguments es stop lexemes rest → ∃ closing,
      PassesOn (.terminal .comma ++ .rule .expression) lexemes (⟨.closeParen, closing⟩ :: rest)
  | _, _, _, _, .none => ⟨_, .stop (.first (.of_ne rfl (by simp [Token.terminal])))⟩
  | _, _, _, _, .some hnext hothers => by
    obtain ⟨closing, hon⟩ := hothers.exists_passesOn
    exact ⟨closing, .further ((Passes.terminal rfl).append hnext.passes) hon⟩

end

/-- The case rule refuses unless the keyword `case` and one more lexeme are next. -/
theorem refuses_caseClause {lexemes : List Lexeme}
    (h : ∀ opening lexeme others, lexemes ≠ ⟨.keyword .case, opening⟩ :: lexeme :: others) :
    Refuses (.rule .caseClause) lexemes := by
  by_cases hcase : ∃ opening others, lexemes = ⟨.keyword .case, opening⟩ :: others
  · obtain ⟨opening, others, rfl⟩ := hcase
    cases others with
    | nil => exact .rule (.first (.second (.terminal rfl) (refuses_literal (by simp))))
    | cons lexeme others => exact absurd rfl (h opening lexeme others)
  · refine .rule (.of_opening rfl (.of_forall rfl fun opening others heq => hcase ⟨opening, others, heq⟩))

theorem refuses_caseClause_default {opening : Span} {rest : List Lexeme} :
    Refuses (.rule .caseClause) (⟨.keyword .default, opening⟩ :: rest) :=
  refuses_caseClause (by simp)

theorem passes_caseClause {opening : Span} {lexeme : Lexeme} {value : Literal} {lexemes rest : List Lexeme}
    (hvalue : lexeme.literal? = some value) (hbody : Passes (.rule .block) lexemes rest) :
    Passes (.rule .caseClause) (⟨.keyword .case, opening⟩ :: lexeme :: lexemes) rest := by
  have hliteral : Passes (.rule .literal) (lexeme :: lexemes) lexemes := passes_literal (terminal_mem_literals hvalue)
  exact .rule (((Passes.terminal rfl).append hliteral).append hbody)

mutual

/-- What `ReadsStmt` reads is what a statement matches. -/
theorem ReadsStmt.passes : ∀ {s : Stmt} {lexemes rest : List Lexeme}, ReadsStmt s lexemes rest →
    Passes (.rule .statement) lexemes rest
  | _, _, _, .block h => by
    have hblock := h.passes
    obtain ⟨hstatements⟩ := h
    exact passes_statement (r := .block) (by decide) rfl hblock
  | _, _, _, .function hparameters hreturns h => by
    obtain ⟨closing, hnames⟩ := exists_passes_parameters hparameters
    refine passes_statement (r := .functionDefinition) (by decide) rfl (.rule ?_)
    exact ((((((Passes.terminal rfl).token rfl).token rfl).append hnames).token rfl).append
      (passes_returnVariables hreturns)).append h.passes
  | _, _, _, .initialised hnames h => by
    refine passes_statement (r := .variableDeclaration) (by decide) rfl (.rule ?_)
    exact ((Passes.terminal rfl).append (passes_names hnames)).append
      (.present ((Passes.terminal rfl).append h.passes))
  | _, _, _, .declared hnames hassign => by
    refine passes_statement (r := .variableDeclaration) (by decide) rfl (.rule ?_)
    refine ((Passes.terminal rfl).append (passes_names hnames)).append (.absent (.of_opening rfl (.of_token rfl ?_)))
    rintro lexeme ⟨⟩
    exact hassign
  | _, _, _, .conditional h h' => by
    refine passes_statement (r := .ifStatement) (by decide) rfl (.rule ?_)
    exact ((Passes.terminal rfl).append h.passes).append h'.passes
  | _, _, _, .switch h (.none _ _) hstop => by cases hstop
  | _, _, _, .switch h (.default hbody) _ => by
    refine passes_statement (r := .switchStatement) (by decide) rfl (.rule ?_)
    refine ((Passes.terminal rfl).append h.passes).append (.right (.first (.first refuses_caseClause_default)) ?_)
    exact .rule ((Passes.terminal rfl).append hbody.passes)
  | _, _, _, .switch h (.case hvalue hbody hothers) _ => by
    obtain ⟨middle, hon, hdefault⟩ := hothers.exists_passesOn
    refine passes_statement (r := .switchStatement) (by decide) rfl (.rule ?_)
    refine ((Passes.terminal rfl).append h.passes).append (.left ?_)
    exact ((passes_caseClause hvalue hbody.passes).append hon.many).append hdefault
  | _, _, _, .loop h₁ h₂ h₃ h₄ => by
    refine passes_statement (r := .forLoop) (by decide) rfl (.rule ?_)
    exact ((((Passes.terminal rfl).append h₁.passes).append h₂.passes).append h₃.passes).append h₄.passes
  | _, _, _, .break => passes_statement (r := .breakStatement) (by decide) rfl (.rule (.terminal rfl))
  | _, _, _, .continue => passes_statement (r := .continueStatement) (by decide) rfl (.rule (.terminal rfl))
  | _, _, _, .leave => passes_statement (r := .leaveStatement) (by decide) rfl (.rule (.terminal rfl))
  | _, _, _, .expression h => by
    obtain ⟨harguments⟩ := h
    exact passes_statement_of_call (passes_functionCall harguments.exists_passes)
  | _, _, _, .assignment htargets h => by
    refine passes_statement (r := .assignment) (by decide) rfl (.rule ?_)
    exact ((passes_names htargets).token rfl).append h.passes

/-- A block that `block?` reads is passed by the block rule. -/
theorem ReadsBlock.passes : ∀ {b : Block} {lexemes rest : List Lexeme}, ReadsBlock b lexemes rest →
    Passes (.rule .block) lexemes rest
  | _, _, _, .mk h => by
    obtain ⟨closing, hon⟩ := h.exists_passesOn
    exact .rule (((Passes.terminal rfl).append hon.many).token rfl)

/-- Statements that `stmts?` reads are passed by the repetition of the statement rule, up to the closing brace. -/
theorem ReadsStmts.exists_passesOn : ∀ {ss : List Stmt} {stop : Nat} {lexemes rest : List Lexeme},
    ReadsStmts ss stop lexemes rest →
    ∃ closing, PassesOn (.rule .statement) lexemes (⟨.closeBrace, closing⟩ :: rest)
  | _, _, _, _, .none => ⟨_, .stop refuses_statement⟩
  | _, _, _, _, .some h h' => by
    obtain ⟨closing, hon⟩ := h'.exists_passesOn
    exact ⟨closing, .further h.passes hon⟩

/-- The clauses that `ReadsCases` reads are cases as long as there are any, and then a default clause if there is
one. -/
theorem ReadsCases.exists_passesOn : ∀ {clauses : List Case} {lexemes rest : List Lexeme},
    ReadsCases clauses lexemes rest → ∃ middle, PassesOn (.rule .caseClause) lexemes middle ∧
      Passes (.optional (.rule .defaultClause)) middle rest
  | _, _, _, .none hdefault hcase => by
    refine ⟨_, .stop (refuses_caseClause hcase), .absent (.rule (.of_opening rfl (.of_forall rfl hdefault)))⟩
  | _, _, _, .default h => by
    exact ⟨_, .stop refuses_caseClause_default, .present (.rule ((Passes.terminal rfl).append h.passes))⟩
  | _, _, _, .case hvalue h h' => by
    obtain ⟨middle, hon, hdefault⟩ := h'.exists_passesOn
    exact ⟨middle, .further (passes_caseClause hvalue h.passes) hon, hdefault⟩

end

end Parser

/-- Where `program?` reads the lexemes of a text, matching the text comes to a block. -/
theorem PlacedSplit.exists_outcome {source : String} {parts : List PlacedToken} {b : Block}
    (h : PlacedSplit source parts) (hprogram : Parser.program? (lexemesOf parts) = some b) :
    ∃ pairs, Outcome source (some pairs) := by
  have hahead : (Cursor.ofText source).Ahead (lexemesOf parts) := by
    refine ⟨source.utf8ByteSize, parts, ⟨h.splits, h.lexemes, ?_⟩, rfl⟩
    rw [Cursor.ofText, Nat.zero_add, Lexer.byteCount_toList]
  obtain ⟨c, pairs, hrun, hend⟩ :=
    (Parser.program?_eq_some_iff.1 hprogram).passes _ (Cursor.skip_skip _) hahead.skip
  obtain ⟨-, hchars⟩ | ⟨_, _, _, _, hcons, -⟩ := hend.skip.cases_of_skip (Cursor.skip_skip c)
  · exact ⟨pairs, .matched hrun hchars⟩
  · cases hcons

/-- `parse` reads a text as the rules are written. Taking for good the first alternative that matches, repeating as
long as there is a match and skipping the gaps, the rules come to one outcome on every text. It is a failure if and
only if `parse` calls the text malformed, and otherwise `buildProgram` makes of its nodes what `parse` reads. -/
theorem parse_eq_outcome (source : String) : (∃! outcome, Outcome source outcome) ∧
    (Outcome source none ↔ parse source = .error .malformed) ∧
      ∀ pairs, Outcome source (some pairs) → Tree source pairs ∧
        ((∃ b, buildProgram pairs = .ok b ∧ parse source = .ok b) ∨
          ∃ escape, buildProgram pairs = .error (.invalidEscape escape) ∧
            parse source = .error (.invalidEscape escape)) := by
  obtain ⟨outcome, houtcome⟩ := exists_outcome source
  refine ⟨⟨outcome, houtcome, fun _ h => h.unique houtcome⟩, ⟨fun hfail => ?_, fun hmalformed => ?_⟩,
    fun pairs h => ⟨h.tree, buildProgram_of_tree h.tree⟩⟩
  · by_contra hparse
    obtain ⟨_, htree⟩ := (exists_tree_iff source).2 hparse
    obtain ⟨parts, b, hparts, hprogram, -⟩ := exists_program_of_tree htree
    obtain ⟨pairs, h⟩ := hparts.exists_outcome hprogram
    cases hfail.unique h
  · cases outcome with
    | none => exact houtcome
    | some pairs => exact absurd hmalformed ((exists_tree_iff source).1 ⟨pairs, houtcome.tree⟩)

end YulBackend
