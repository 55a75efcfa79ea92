import YulBackend.Proofs.Parser.Pieces
import YulBackend.Proofs.Parser.TreeBuilder

namespace YulBackend

open Grammar (Form Matching Pair Repeats Terminal leaves startOf)

/-- The lexemes of the parts of a text. -/
def lexemesOf (parts : List PlacedToken) : List Lexeme := parts.map (·.lexeme)

@[simp]
theorem lexemesOf_nil : lexemesOf [] = [] := rfl

@[simp]
theorem lexemesOf_cons (part : PlacedToken) (parts : List PlacedToken) :
    lexemesOf (part :: parts) = part.lexeme :: lexemesOf parts := rfl

/-- This, unless a string literal among the parts has an invalid escape. Then the first one is the error. -/
def builtFrom {α : Type} (parts : List PlacedToken) (built : α) : Except BuildError α :=
  match parts.findSome? (·.token.fault?) with
  | some escape => .error (.invalidEscape escape)
  | none => .ok built

/-- No string literal among the parts has an invalid escape. -/
def Faultless (parts : List PlacedToken) : Prop := ∀ part ∈ parts, part.token.fault? = none

section

variable {α β : Type} {built : α} {built' : β} {x : Except BuildError α} {part : PlacedToken}
  {parts parts' : List PlacedToken}

/-- Sequencing two builder steps that are faithful to their tokens is faithful to the concatenated tokens, so
`builtFrom` composes along the builder's binds. -/
theorem bind_builtFrom {f : α → Except BuildError β} (hx : x = builtFrom parts built)
    (hf : f built = builtFrom parts' built') : (do f (← x)) = builtFrom (parts ++ parts') built' := by
  rw [hx, builtFrom, builtFrom, List.findSome?_append]
  cases parts.findSome? (·.token.fault?) with
  | some escape => rfl
  | none => exact hf

/-- A pure continuation of a builder step keeps the tokens the step is answered from and maps only what is built. -/
theorem map_builtFrom {f : α → β} (hx : x = builtFrom parts built) :
    (do return f (← x)) = builtFrom parts (f built) := by
  rw [← List.append_nil parts]
  exact bind_builtFrom hx rfl

/-- Only a string literal can carry a bad escape; a token of any other terminal never makes the builder fail. -/
theorem fault?_of_ne (h : part.terminal ≠ .stringLiteral) : part.token.fault? = none := by
  obtain ⟨⟨t, text⟩, span⟩ := part
  cases t with
  | stringLiteral => exact absurd rfl h
  | _ => rfl

theorem Faultless.builtFrom_append (h : Faultless parts) (built : α) :
    builtFrom (parts ++ parts') built = builtFrom parts' built := by
  have hnone : parts.findSome? (·.token.fault?) = none := List.findSome?_eq_none_iff.2 h
  rw [builtFrom, builtFrom, List.findSome?_append, hnone, Option.none_or]

@[simp]
theorem builtFrom_cons (h : part.terminal ≠ .stringLiteral) (built : α) :
    builtFrom (part :: parts) built = builtFrom parts built := by
  have hfaultless : Faultless [part] := by simpa [Faultless] using fault?_of_ne h
  exact hfaultless.builtFrom_append built

@[simp]
theorem builtFrom_concat (h : part.terminal ≠ .stringLiteral) (built : α) :
    builtFrom (parts ++ [part]) built = builtFrom parts built := by
  rw [builtFrom, builtFrom, List.findSome?_append, List.findSome?_singleton, fault?_of_ne h, Option.or_none]

end

namespace Parser

open Builder (identifier)
open Grammar.Pair (ofName)

variable {ending : Nat} {meaning : Grammar.Rule → Matching} {taken rest : List PlacedToken} {stop : Nat}
  {pairs : List Pair}

/-- Reading one terminal takes exactly one part, the one the form stops at, and its pairs are the leaves of that
part. -/
theorem exists_part {t : Terminal} (h : (Form.terminal t).Yields ending meaning taken rest stop pairs) :
    ∃ text span, taken = [⟨⟨t, text⟩, span⟩] ∧ stop = span.stop ∧ pairs = leaves ⟨⟨t, text⟩, span⟩ := by
  obtain ⟨⟨⟨_, text⟩, span⟩, rfl, rfl, rfl, rfl⟩ := h
  exact ⟨text, span, rfl, rfl, rfl⟩

/-- An induction over a repetition from its end on. -/
theorem repeats_induction {body : Matching} {motive : List PlacedToken → List PlacedToken → List Pair → Prop}
    (none : ∀ rest, motive [] rest [])
    (more : ∀ xs ys rest middle ps qs, body xs (ys ++ rest) middle ps → motive ys rest qs →
      motive (xs ++ ys) rest (ps ++ qs))
    (h : Repeats ending body taken rest stop pairs) : motive taken rest pairs := by
  induction h with
  | none => exact none _
  | @last taken rest stop pairs hbody =>
    have hmore := more taken [] rest stop pairs [] hbody (none rest)
    rwa [List.append_nil, List.append_nil] at hmore
  | more hbody _ ih => exact more _ _ _ _ _ _ hbody ih

/-- The nodes are those of names, and the names are read from the parts behind a first one. -/
def MoreNames (taken rest : List PlacedToken) (pairs : List Pair) : Prop :=
  Faultless taken ∧ (taken.map (·.token)).head? ≠ some .openParen ∧ ∃ names : List Identifier,
    pairs = names.map ofName ∧ ∀ first span, (rest.map (·.token)).head? ≠ some .comma →
      names? (⟨.identifier first, span⟩ :: lexemesOf (taken ++ rest)) = some (⟨span, first⟩ :: names, lexemesOf rest)

/-- The repetition of a comma and an identifier reads as further names, each leaf an identifier of the list. -/
theorem moreNames_of_yields
    (h : (Form.many (Terminal.comma ++ Terminal.identifier)).Yields ending meaning taken rest stop pairs) :
    MoreNames taken rest pairs := by
  refine repeats_induction ?_ ?_ h
  · refine fun rest => ⟨by simp [Faultless], by simp, [], rfl, fun first span hcomma => ?_⟩
    rw [names?, List.nil_append]
    intro span' rest' heq
    cases rest with
    | nil => cases heq
    | cons part rest => exact hcomma (congrArg (some <| Lexeme.token ·) (List.cons.inj heq).1)
  · rintro _ ys rest _ _ qs hbody ⟨hfault, -, names, rfl, hread⟩
    obtain ⟨_, _, _, _, _, rfl, rfl, hcomma, hname⟩ := Form.yields_append.1 hbody
    obtain ⟨commaText, commaSpan, rfl, -, rfl⟩ := exists_part hcomma
    obtain ⟨text, span, rfl, -, rfl⟩ := exists_part hname
    refine ⟨?_, ?_, ⟨span, String.ofList text⟩ :: names, ?_, fun first span' hrest => ?_⟩
    · simpa [Faultless] using ⟨rfl, rfl, hfault⟩
    · simp [SpeltToken.token]
    · simp [leaves, Terminal.isNode, ofName]
    · have hmore := hread (String.ofList text) span hrest
      simp [PlacedToken.lexeme, SpeltToken.token, names?, hmore]

/-- The nodes are those of one name or more, and the names are read from the parts. -/
structure Names (taken rest : List PlacedToken) (pairs : List Pair) (names : List Identifier) : Prop where
  ne_nil : names ≠ []
  pairs : pairs = names.map ofName
  faultless : Faultless taken
  opens : ∃ name part others, taken = part :: others ∧ part.token = .identifier name ∧
    (others.map (·.token)).head? ≠ some .openParen
  read : (rest.map (·.token)).head? ≠ some .comma → names? (lexemesOf (taken ++ rest)) = some (names, lexemesOf rest)

/-- A comma-separated identifier list read from the grammar is a list of names that `names?` and the tree builder agree
on. -/
theorem exists_names_of_yields
    (h : (Form.commaSeparated Terminal.identifier).Yields ending meaning taken rest stop pairs) :
    ∃ names, Names taken rest pairs names := by
  obtain ⟨_, more, _, _, _, rfl, rfl, hfirst, hmore⟩ := Form.yields_append.1 h
  obtain ⟨text, span, rfl, -, rfl⟩ := exists_part hfirst
  obtain ⟨hfault, hopens, names, rfl, hread⟩ := moreNames_of_yields hmore
  exact ⟨⟨span, String.ofList text⟩ :: names,
    { ne_nil := List.cons_ne_nil _ _
      pairs := by simp [leaves, Terminal.isNode, ofName]
      faultless := by simpa [Faultless] using ⟨rfl, hfault⟩
      opens := ⟨_, _, more, rfl, rfl, hopens⟩
      read := hread _ span }⟩

/-- The node is built into a literal that is read from the part. -/
structure IsLiteral (part : PlacedToken) (pair : Pair) (value : Literal) : Prop where
  isKeyword : pair.isKeyword = false
  built : Builder.literal pair = builtFrom [part] value
  expression : Builder.expression pair = (do return .literal (← Builder.literal pair))
  read : part.lexeme.literal? = some value

/-- A quoted string is built as a literal whether or not its escapes decode. The faulty one becomes the marker value
that `fault?` recognises. -/
theorem exists_isLiteral_string (span : Span) (text : List Char) :
    ∃ value, IsLiteral ⟨⟨.stringLiteral, text⟩, span⟩ (.leaf .stringLiteral span text) value := by
  have hexpression : Builder.expression (.leaf .stringLiteral span text) =
      (do return .literal (← Builder.literal (.leaf .stringLiteral span text))) := by
    rw [Builder.expression]
    rfl
  cases hdecode : Escape.decode text with
  | ok decoded =>
    refine ⟨⟨span, .string, String.ofList decoded⟩, rfl, ?_, hexpression, ?_⟩
    · rw [Builder.literal, Builder.unescape, hdecode, builtFrom, List.findSome?_singleton, SpeltToken.token,
        Token.ofStringBody, hdecode]
      rfl
    · rw [PlacedToken.lexeme, SpeltToken.token, Token.ofStringBody, hdecode, Lexeme.literal?]
  | error escape =>
    refine ⟨⟨span, .string, ""⟩, rfl, ?_, hexpression, ?_⟩
    · rw [Builder.literal, Builder.unescape, hdecode, builtFrom, List.findSome?_singleton, SpeltToken.token,
        Token.ofStringBody, hdecode]
      rfl
    · rw [PlacedToken.lexeme, SpeltToken.token, Token.ofStringBody, hdecode, Lexeme.literal?]

/-- Whatever alternative of the literal rule applied, one part was taken and the builder turns its pair into a
literal. -/
theorem exists_isLiteral_of_yields (h : Grammar.Rule.literal.body.Yields ending meaning taken rest stop pairs) :
    ∃ part pair value, taken = [part] ∧ stop = part.span.stop ∧ pairs = [pair] ∧ IsLiteral part pair value := by
  rcases h with h | h | h | h
  all_goals obtain ⟨text, span, rfl, rfl, rfl⟩ := exists_part h
  · exact ⟨_, _, _, rfl, rfl, rfl, rfl, rfl, by rw [Builder.expression]; rfl, rfl⟩
  · exact ⟨_, _, _, rfl, rfl, rfl, rfl, rfl, by rw [Builder.expression]; rfl, rfl⟩
  · obtain ⟨value, hvalue⟩ := exists_isLiteral_string span text
    exact ⟨_, _, value, rfl, rfl, rfl, hvalue⟩
  · exact ⟨_, _, _, rfl, rfl, rfl, rfl, rfl, by rw [Builder.expression]; rfl, rfl⟩

/-- The node is built into an expression that is read from the parts. -/
structure IsExpr (taken rest : List PlacedToken) (stop : Nat) (pair : Pair) (e : Expr) : Prop where
  isKeyword : pair.isKeyword = false
  built : Builder.expression pair = builtFrom taken e
  stop : e.span.stop = stop
  read : NotOpening (lexemesOf rest) → ReadsExpr e (lexemesOf (taken ++ rest)) (lexemesOf rest)

/-- A literal part is an expression: the tree builder wraps it and `expr?` reads the same literal from the same
lexeme. -/
theorem IsLiteral.isExpr {part : PlacedToken} {pair : Pair} {value : Literal} (h : IsLiteral part pair value)
    (rest : List PlacedToken) : IsExpr [part] rest part.span.stop pair (.literal value) where
  isKeyword := h.isKeyword
  built := h.expression.trans (map_builtFrom h.built)
  stop := congrArg Span.stop (Lexeme.span_of_literal? h.read)
  read _ := .literal h.read

/-- A lone identifier is a variable for the tree builder, and `expr?` reads it so when no opening parenthesis
follows. -/
theorem isExpr_identifier (span : Span) (text : List Char) (rest : List PlacedToken) :
    IsExpr [⟨⟨.identifier, text⟩, span⟩] rest span.stop (.leaf .identifier span text)
      (.identifier ⟨span, String.ofList text⟩) where
  isKeyword := rfl
  built := Builder.expression_of_symbol rfl
  stop := rfl
  read hopen := .name hopen

/-- The nodes are built into further arguments, and these are read from the parts up to a closing parenthesis. -/
def MoreArguments (taken rest : List PlacedToken) (pairs : List Pair) : Prop :=
  ∀ closing others, rest = closing :: others → closing.token = .closeParen →
    NotOpening (lexemesOf (taken ++ rest)) ∧ ∃ es, pairs.mapM Builder.expression = builtFrom taken es ∧
      ReadsMoreArguments es closing.span.stop (lexemesOf (taken ++ rest)) (lexemesOf others)

section

variable (hexpr : ∀ taken rest stop pairs, meaning .expression taken rest stop pairs →
  ∃ pair e, pairs = [pair] ∧ IsExpr taken rest stop pair e)

include hexpr

/-- The repetition of a comma and an expression reads as further arguments. The induction is on the derivation, with
the head's invariant from the enclosing one. -/
theorem moreArguments_of_yields
    (h : (Form.many (Terminal.comma ++ Grammar.Rule.expression)).Yields ending meaning taken rest stop pairs) :
    MoreArguments taken rest pairs := by
  refine repeats_induction ?_ ?_ h
  · rintro rest closing others rfl hclosing
    refine ⟨?_, [], rfl, ?_⟩
    · simp [NotOpening, PlacedToken.lexeme, hclosing]
    · rw [List.nil_append, lexemesOf_cons, PlacedToken.lexeme, hclosing]
      exact .none
  · rintro _ ys rest _ _ qs hbody hmore closing others hrest hclosing
    obtain ⟨hopen, es, hes, hread⟩ := hmore closing others hrest hclosing
    obtain ⟨_, xs, _, _, _, rfl, rfl, hcomma, hvalue⟩ := Form.yields_append.1 hbody
    obtain ⟨text, span, rfl, -, rfl⟩ := exists_part hcomma
    obtain ⟨pair, e, rfl, he⟩ := hexpr _ _ _ _ hvalue
    refine ⟨by simp [NotOpening, PlacedToken.lexeme, SpeltToken.token], e :: es, ?_, ?_⟩
    · have hbuilt : List.mapM Builder.expression (pair :: qs) = builtFrom (xs ++ ys) (e :: es) := by
        rw [List.mapM_cons]
        exact bind_builtFrom he.built (map_builtFrom hes)
      simpa [leaves, Terminal.isNode, builtFrom_cons] using hbuilt
    · rw [List.append_assoc, List.append_assoc]
      exact .some (he.read hopen) hread

/-- The nodes are built into arguments, and these are read from the parts up to a closing parenthesis. -/
theorem exists_arguments_of_yields
    {closing : PlacedToken} (hclosing : closing.token = .closeParen)
    (h : (Form.optional (Form.commaSeparated Grammar.Rule.expression)).Yields ending meaning taken (closing :: rest)
      stop pairs) :
    ∃ es, pairs.mapM Builder.expression = builtFrom taken es ∧
      ReadsArguments es closing.span.stop (lexemesOf (taken ++ closing :: rest)) (lexemesOf rest) := by
  rcases h with ⟨rfl, rfl, rfl⟩ | h
  · refine ⟨[], rfl, ?_⟩
    rw [List.nil_append, lexemesOf_cons, PlacedToken.lexeme, hclosing]
    exact .none
  · obtain ⟨xs, ys, _, _, qs, rfl, rfl, hfirst, hmore⟩ := Form.yields_append.1 h
    obtain ⟨pair, e, rfl, he⟩ := hexpr _ _ _ _ hfirst
    obtain ⟨hopen, es, hes, hread⟩ := moreArguments_of_yields hexpr hmore closing rest rfl hclosing
    refine ⟨e :: es, ?_, ?_⟩
    · rw [List.singleton_append, List.mapM_cons]
      exact bind_builtFrom he.built (map_builtFrom hes)
    · rw [List.append_assoc]
      exact .some (he.read hopen) hread

/-- A call is built of its node, and it is read from the parts. -/
theorem exists_isExpr_call (h : Grammar.Rule.functionCall.body.Yields ending meaning taken rest stop pairs) :
    ∃ span callee es, IsExpr taken rest stop (.node .functionCall ⟨startOf ending (taken ++ rest), stop⟩ pairs)
        (.call span callee es) ∧
      ∃ name part others, taken = part :: others ∧ part.token = .identifier name := by
  obtain ⟨_, _, _, _, _, rfl, rfl, hfront, hclose⟩ := Form.yields_append.1 h
  obtain ⟨_, arguments, _, _, qs, rfl, rfl, hcallee, harguments⟩ := Form.yields_append.1 hfront
  obtain ⟨_, _, _, _, _, rfl, rfl, hname, hopen⟩ := Form.yields_append.1 hcallee
  obtain ⟨text, span, rfl, -, rfl⟩ := exists_part hname
  obtain ⟨openText, openSpan, rfl, -, rfl⟩ := exists_part hopen
  obtain ⟨closeText, closeSpan, rfl, rfl, rfl⟩ := exists_part hclose
  rw [List.singleton_append] at harguments
  obtain ⟨es, hes, hread⟩ := exists_arguments_of_yields hexpr rfl harguments
  refine ⟨⟨span.start, closeSpan.stop⟩, ⟨span, String.ofList text⟩, es, ?_, _, _, _, rfl, rfl⟩
  refine ⟨rfl, ?_, rfl, fun _ => ?_⟩
  · have hinner : leaves ⟨⟨.identifier, text⟩, span⟩ ++ leaves ⟨⟨.openParen, openText⟩, openSpan⟩ ++ qs ++
        leaves ⟨⟨.closeParen, closeText⟩, closeSpan⟩ = ofName ⟨span, String.ofList text⟩ :: qs := by
      simp [leaves, Terminal.isNode, ofName]
    rw [hinner, Builder.expression_call, builtFrom_concat]
    · exact map_builtFrom hes
    · simp
  · rw [List.append_assoc]
    exact .call hread

end

end Parser

end YulBackend
