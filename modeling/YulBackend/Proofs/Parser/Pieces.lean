import YulBackend.Proofs.Parser.Language
import YulBackend.Proofs.Token.Places

namespace YulBackend

namespace Lexeme

variable {distance distance' : Nat} {lexeme lexeme' : Lexeme} {lexemes taken taken' : List Lexeme} {token : Token}
  {span : Span}

/-- Lexemes aligned with a non-empty run begin with the same token at the same place, up to the two distances, and stay
aligned behind it. -/
theorem aligned_cons_iff : Aligned distance distance' lexemes (⟨token, span⟩ :: taken) ↔
    ∃ span' rest, lexemes = ⟨token, span'⟩ :: rest ∧ span'.move distance = span.move distance' ∧
      Aligned distance distance' rest taken := by
  rw [Aligned, List.forall₂_cons_right_iff]
  constructor
  · rintro ⟨⟨_, span'⟩, rest, hfirst, hrest, rfl⟩
    obtain ⟨rfl, hspan⟩ := Lexeme.mk.inj hfirst
    exact ⟨span', rest, rfl, hspan, hrest⟩
  · rintro ⟨span', rest, rfl, hspan, hrest⟩
    exact ⟨⟨token, span'⟩, rest, congrArg (Lexeme.mk token) hspan, hrest, rfl⟩

theorem Aligned.split (h : Aligned distance distance' lexemes (taken ++ taken')) :
    ∃ front back, lexemes = front ++ back ∧ Aligned distance distance' front taken ∧
      Aligned distance distance' back taken' :=
  ⟨_, _, (List.take_append_drop _ _).symm, List.forall₂_take_append _ _ _ h, List.forall₂_drop_append _ _ _ h⟩

/-- What is read of a literal is where it stands and what its token says. -/
theorem literal?_of_move {value : Literal} (h : lexeme.literal? = some value)
    (hmove : lexeme'.move distance = lexeme.move distance') :
    ∃ value', lexeme'.literal? = some value' ∧ value'.move distance = value.move distance' := by
  obtain ⟨token, span⟩ := lexeme
  obtain ⟨token', span'⟩ := lexeme'
  simp only [move, mk.injEq] at hmove
  obtain ⟨rfl, hspan⟩ := hmove
  cases token' with
  | literal kind text =>
    cases h
    exact ⟨_, rfl, congrArg (Literal.mk · kind text) hspan⟩
  | badString _ =>
    cases h
    exact ⟨_, rfl, congrArg (Literal.mk · .string "") hspan⟩
  | _ => cases h

theorem span_of_literal? {value : Literal} (h : lexeme.literal? = some value) : value.span = lexeme.span := by
  obtain ⟨token, span⟩ := lexeme
  cases token <;> cases h <;> rfl

end Lexeme

namespace Parser

open Lexeme (Aligned)

/-- Wherever such lexemes stand, the expression is read from them, whatever is behind. -/
def ReadFrom (e : Expr) (taken : List Lexeme) : Prop :=
  ∀ distance distance' lexemes rest, Aligned distance distance' lexemes taken → NotOpening rest →
    ∃ e', ReadsExpr e' (lexemes ++ rest) rest ∧ e'.move distance = e.move distance'

/-- Wherever such lexemes stand, these arguments and the closing parenthesis are read from them. -/
def ArgumentsReadFrom (Reads : List Expr → Nat → List Lexeme → List Lexeme → Prop) (es : List Expr) (stop : Nat)
    (taken : List Lexeme) : Prop :=
  ∀ distance distance' lexemes rest, Aligned distance distance' lexemes taken →
    ∃ es' stop', Reads es' stop' (lexemes ++ rest) rest ∧
      Expr.moveAll distance es' = Expr.moveAll distance' es ∧ stop' + distance = stop + distance'

variable {e : Expr} {es : List Expr} {stop : Nat} {lexemes rest taken : List Lexeme} {span span' : Span} {name : String}

/-- A variable is read from its one lexeme wherever that is moved to. -/
theorem readFrom_identifier : ReadFrom (.identifier ⟨span, name⟩) [⟨.identifier name, span⟩] := by
  intro distance distance' lexemes rest haligned hrest
  obtain ⟨span', _, rfl, hspan, haligned⟩ := Lexeme.aligned_cons_iff.1 haligned
  cases haligned
  exact ⟨_, .name hrest, congrArg (fun span => Expr.identifier ⟨span, name⟩) hspan⟩

/-- A literal is read from its one lexeme wherever that is moved to. -/
theorem readFrom_literal {lexeme : Lexeme} {value : Literal} (h : lexeme.literal? = some value) :
    ReadFrom (.literal value) [lexeme] := by
  intro distance distance' lexemes rest haligned _
  obtain ⟨lexeme', _, hmove, hnil, rfl⟩ := List.forall₂_cons_right_iff.1 haligned
  cases hnil
  obtain ⟨value', hvalue, hvalueMove⟩ := Lexeme.literal?_of_move h hmove
  exact ⟨_, .literal hvalue, congrArg Expr.literal hvalueMove⟩

/-- A call is read from its name, the opening parenthesis and its arguments, wherever they are moved to together. -/
theorem readFrom_call {openSpan : Span} (h : ArgumentsReadFrom ReadsArguments es stop taken) :
    ReadFrom (.call ⟨span.start, stop⟩ ⟨span, name⟩ es)
      (⟨.identifier name, span⟩ :: ⟨.openParen, openSpan⟩ :: taken) := by
  intro distance distance' lexemes rest haligned _
  obtain ⟨span', _, rfl, hspan, haligned⟩ := Lexeme.aligned_cons_iff.1 haligned
  obtain ⟨openSpan', _, rfl, -, haligned⟩ := Lexeme.aligned_cons_iff.1 haligned
  obtain ⟨es', stop', hread, hes, hstop⟩ := h distance distance' _ rest haligned
  refine ⟨_, .call hread, ?_⟩
  simp only [Span.move, Span.mk.injEq] at hspan
  simp only [Expr.move, Identifier.move, Span.move, hspan, hes, hstop]

/-- The closing parenthesis alone stands for no arguments, or no further ones. -/
theorem argumentsReadFrom_nil {Reads : List Expr → Nat → List Lexeme → List Lexeme → Prop}
    (h : ∀ span rest, Reads [] span.stop (⟨.closeParen, span⟩ :: rest) rest) :
    ArgumentsReadFrom Reads [] span.stop [⟨.closeParen, span⟩] := by
  intro distance distance' lexemes rest haligned
  obtain ⟨span', _, rfl, hspan, haligned⟩ := Lexeme.aligned_cons_iff.1 haligned
  cases haligned
  exact ⟨[], span'.stop, h span' rest, rfl, congrArg Span.stop hspan⟩

section

variable {taken' : List Lexeme}

/-- After an expression its closing parenthesis, or a comma, is where the further arguments begin. -/
theorem exists_of_readFrom (hfirst : ReadFrom e taken) (hothers : ArgumentsReadFrom ReadsMoreArguments es stop taken')
    (hne : taken' ≠ []) (hopen : NotOpening taken') {distance distance' : Nat}
    (haligned : Aligned distance distance' lexemes (taken ++ taken')) (rest : List Lexeme) :
    ∃ e' es' stop' left, ReadsExpr e' (lexemes ++ rest) left ∧ ReadsMoreArguments es' stop' left rest ∧
      Expr.moveAll distance (e' :: es') = Expr.moveAll distance' (e :: es) ∧ stop' + distance = stop + distance' := by
  obtain ⟨front, back, rfl, hfront, hback⟩ := haligned.split
  have hnotOpening : NotOpening (back ++ rest) := by
    cases hback with
    | nil => exact absurd rfl hne
    | @cons first last _ _ hmove _ =>
      intro lexeme hlexeme
      cases hlexeme
      have htoken : first.token = last.token := (Lexeme.mk.inj hmove).1
      rw [htoken]
      exact hopen last rfl
  obtain ⟨e', hread, hmove⟩ := hfirst distance distance' front (back ++ rest) hfront hnotOpening
  obtain ⟨es', stop', hreadOthers, hmoveOthers, hstop⟩ := hothers distance distance' back rest hback
  refine ⟨e', es', stop', back ++ rest, ?_, hreadOthers, ?_, hstop⟩
  · rwa [List.append_assoc]
  · rw [Expr.moveAll, Expr.moveAll, hmove, hmoveOthers]

/-- An argument list is read from the lexemes of its first argument and of the others. What follows the first never
opens a call. -/
theorem argumentsReadFrom_cons (hfirst : ReadFrom e taken)
    (hothers : ArgumentsReadFrom ReadsMoreArguments es stop taken') (hne : taken' ≠ []) (hopen : NotOpening taken') :
    ArgumentsReadFrom ReadsArguments (e :: es) stop (taken ++ taken') := by
  intro distance distance' lexemes rest haligned
  obtain ⟨e', es', stop', left, hread, hothers, hmove, hstop⟩ :=
    exists_of_readFrom hfirst hothers hne hopen haligned rest
  exact ⟨e' :: es', stop', .some hread hothers, hmove, hstop⟩

/-- Further arguments are read from a comma, an argument and the arguments after it. -/
theorem moreArgumentsReadFrom_cons (hfirst : ReadFrom e taken)
    (hothers : ArgumentsReadFrom ReadsMoreArguments es stop taken') (hne : taken' ≠ []) (hopen : NotOpening taken') :
    ArgumentsReadFrom ReadsMoreArguments (e :: es) stop (⟨.comma, span⟩ :: (taken ++ taken')) := by
  intro distance distance' lexemes rest haligned
  obtain ⟨span', _, rfl, -, haligned⟩ := Lexeme.aligned_cons_iff.1 haligned
  obtain ⟨e', es', stop', left, hread, hothers, hmove, hstop⟩ :=
    exists_of_readFrom hfirst hothers hne hopen haligned rest
  exact ⟨e' :: es', stop', .some hread hothers, hmove, hstop⟩

end

mutual

/-- An expression that is read ends with the last lexeme that was taken, and it is read from the same lexemes
elsewhere. -/
theorem ReadsExpr.readFrom : ∀ {e : Expr} {lexemes rest : List Lexeme}, ReadsExpr e lexemes rest →
    ∃ front last, lexemes = front ++ last :: rest ∧ e.span.stop = last.span.stop ∧ ReadFrom e (front ++ [last])
  | _, _, _, .call h => by
    obtain ⟨front, last, rfl, hstop, hread⟩ := h.readFrom
    exact ⟨_ :: _ :: front, last, rfl, hstop, readFrom_call hread⟩
  | _, _, _, .name _ => ⟨[], _, rfl, rfl, readFrom_identifier⟩
  | _, _, _, .literal hvalue =>
    ⟨[], _, rfl, congrArg Span.stop (Lexeme.span_of_literal? hvalue), readFrom_literal hvalue⟩

/-- The lexemes `arguments?` consumed read as the same argument list elsewhere, and the list stops at the last of them,
the closing parenthesis. -/
theorem ReadsArguments.readFrom : ∀ {es : List Expr} {stop : Nat} {lexemes rest : List Lexeme},
    ReadsArguments es stop lexemes rest →
    ∃ front last, lexemes = front ++ last :: rest ∧ stop = last.span.stop ∧
      ArgumentsReadFrom ReadsArguments es stop (front ++ [last])
  | _, _, _, _, .none => ⟨[], _, rfl, rfl, argumentsReadFrom_nil fun _ _ => .none⟩
  | _, _, _, _, .some h h' => by
    obtain ⟨front, last, rfl, -, hread⟩ := h.readFrom
    obtain ⟨front', last', rfl, hstop, hopen, hread'⟩ := h'.readFrom
    refine ⟨front ++ last :: front', last', by simp, hstop, ?_⟩
    simpa using argumentsReadFrom_cons hread hread' (by simp) hopen

/-- The lexemes `moreArguments?` consumed read as the same further arguments elsewhere; they open no call and end in
the closing parenthesis. -/
theorem ReadsMoreArguments.readFrom : ∀ {es : List Expr} {stop : Nat} {lexemes rest : List Lexeme},
    ReadsMoreArguments es stop lexemes rest →
    ∃ front last, lexemes = front ++ last :: rest ∧ stop = last.span.stop ∧ NotOpening (front ++ [last]) ∧
      ArgumentsReadFrom ReadsMoreArguments es stop (front ++ [last])
  | _, _, _, _, .none => ⟨[], _, rfl, rfl, by simp [NotOpening], argumentsReadFrom_nil fun _ _ => .none⟩
  | _, _, _, _, @ReadsMoreArguments.some _ _ _ comma _ _ _ h h' => by
    obtain ⟨front, last, rfl, -, hread⟩ := h.readFrom
    obtain ⟨front', last', rfl, hstop, hopen, hread'⟩ := h'.readFrom
    refine ⟨⟨.comma, comma⟩ :: (front ++ last :: front'), last', by simp, hstop, by simp [NotOpening], ?_⟩
    simpa using moreArgumentsReadFrom_cons hread hread' (by simp) hopen

end

/-- A call with one argument is a program on its own. -/
theorem program?_of_argument {openBrace callee openParen closeParen closeBrace : Span}
    (h : ReadsExpr e (lexemes ++ [⟨.closeParen, closeParen⟩, ⟨.closeBrace, closeBrace⟩])
      [⟨.closeParen, closeParen⟩, ⟨.closeBrace, closeBrace⟩]) :
    program? (⟨.openBrace, openBrace⟩ :: ⟨.identifier name, callee⟩ :: ⟨.openParen, openParen⟩ ::
        (lexemes ++ [⟨.closeParen, closeParen⟩, ⟨.closeBrace, closeBrace⟩])) =
      some ⟨⟨openBrace.start, closeBrace.stop⟩,
        [.expression (.call ⟨callee.start, closeParen.stop⟩ ⟨callee, name⟩ [e])]⟩ :=
  program?_eq_some_iff.2 (.mk (.some (.expression (.call (.some h .none))) .none))

end Parser

namespace Lexer

/-- A brace, a name and a parenthesis in front of a text. -/
theorem lexemes?_opening {callee : String} (hcallee : Word.isName callee.toList) (cs : List Char) :
    ∃ openBrace name openParen, lexemes? 0 (("\x7b" ++ callee ++ "(").toList ++ cs) =
      (lexemes? ("\x7b" ++ callee ++ "(").utf8ByteSize cs).map
        ([⟨.openBrace, openBrace⟩, ⟨.identifier callee, name⟩, ⟨.openParen, openParen⟩] ++ ·) := by
  have hsource : ("\x7b" ++ callee ++ "(").toList ++ cs = '{' :: (callee.toList ++ '(' :: cs) := by simp
  have hoffset : byteCount ['{'] + byteCount callee.toList + byteCount ['('] =
      ("\x7b" ++ callee ++ "(").utf8ByteSize := by
    rw [← byteCount_toList, ← byteCount_append, ← byteCount_append]
    simp
  have hword : Token.ofWord? callee.toList = some (.identifier callee) := by
    rw [Token.ofWord?_name hcallee, String.ofList_toList]
  have hend : EndsWord ('(' :: cs) := by
    rintro c ⟨⟩
    decide
  obtain ⟨hgap, hnext⟩ := next?_of_word hend (Word.all_isNameChar_of_isName hcallee) hword
  rw [hsource, lexemes?_token (splitGap_of_ne (by decide) (by decide) _) rfl, lexemes?_token hgap hnext,
    lexemes?_token (splitGap_of_ne (by decide) (by decide) _) rfl, Nat.zero_add, hoffset, Option.map_map,
    Option.map_map]
  exact ⟨_, _, _, rfl⟩

/-- The text put behind an expression to close it lexes to a closing parenthesis and a closing brace. -/
theorem lexemes?_closing (offset : Nat) : ∃ closeParen closeBrace,
    lexemes? offset [')', '}'] = some [⟨.closeParen, closeParen⟩, ⟨.closeBrace, closeBrace⟩] := by
  have hnil (offset : Nat) : lexemes? offset [] = some [] := by
    rw [lexemes?_eq, splitGap]
    rfl
  rw [lexemes?_token (splitGap_of_ne (by decide) (by decide) _) rfl,
    lexemes?_token (splitGap_of_ne (by decide) (by decide) _) rfl, hnil]
  exact ⟨_, _, rfl⟩

end Lexer

/-- Lexemes aligned with faultless ones are faultless: only the tokens count, not their places. -/
theorem Lexeme.Aligned.fault {distance distance' : Nat} {lexemes taken : List Lexeme}
    (h : Aligned distance distance' lexemes taken) (hfault : ∀ lexeme ∈ taken, lexeme.token.fault? = none) :
    ∀ lexeme ∈ lexemes, lexeme.token.fault? = none := by
  induction h with
  | nil => exact hfault
  | cons hmove _ ih =>
    rw [List.forall_mem_cons] at hfault ⊢
    obtain ⟨htoken, -⟩ := Lexeme.mk.inj hmove
    exact ⟨htoken ▸ hfault.1, ih hfault.2⟩

/-- What is read in one place is read from the piece of the text that stands there. -/
theorem Continues.shows {source : String} {e : Expr} {front rest : List Lexeme} {last : Lexeme}
    (h : Continues source e.span.start (front ++ last :: rest)) (hstop : e.span.stop = last.span.stop)
    (hread : Parser.ReadFrom e (front ++ [last])) : e.Shows source := by
  obtain ⟨⟨before, cs, hsource, hbefore, hlexemes⟩, hfault⟩ := h
  obtain ⟨piece, rest', rfl, -, hpiece, hmoved⟩ := Lexer.exists_piece hlexemes
  intro text htext callee hcallee
  have htext' : e.span.Slices source (String.ofList piece) := by
    refine Span.slices_iff.2 ⟨before, rest', by simp [hsource], hbefore, ?_⟩
    rw [String.toList_ofList, Lexer.byteCount_append, hstop, hpiece, hbefore]
  obtain rfl := htext.unique htext'
  obtain ⟨openBrace, name, openParen, hopening⟩ := Lexer.lexemes?_opening hcallee (piece ++ [')', '}'])
  obtain ⟨moved, haligned, hmovedLexemes⟩ := hmoved [')', '}'] (by rintro c ⟨⟩; decide)
    ("\x7b" ++ callee ++ "(").utf8ByteSize
  obtain ⟨closeParen, closeBrace, hclosing⟩ := Lexer.lexemes?_closing
    (("\x7b" ++ callee ++ "(").utf8ByteSize + Lexer.byteCount piece)
  obtain ⟨e', hexpr, hmove⟩ := hread _ _ moved [⟨.closeParen, closeParen⟩, ⟨.closeBrace, closeBrace⟩] haligned
    (by rintro lexeme ⟨⟩; simp)
  have hcall : Lexer.lexemes? 0 ("\x7b" ++ callee ++ "(" ++ String.ofList piece ++ ")\x7d").toList =
      some (⟨.openBrace, openBrace⟩ :: ⟨.identifier callee, name⟩ :: ⟨.openParen, openParen⟩ ::
        (moved ++ [⟨.closeParen, closeParen⟩, ⟨.closeBrace, closeBrace⟩])) := by
    have htoList : ("\x7b" ++ callee ++ "(" ++ String.ofList piece ++ ")\x7d").toList =
        ("\x7b" ++ callee ++ "(").toList ++ (piece ++ [')', '}']) := by simp
    rw [htoList, hopening, hmovedLexemes, hclosing]
    rfl
  refine ⟨_, _, _, e', parse_eq_ok_iff.2 ⟨_, hcall, Parser.program?_of_argument hexpr, ?_⟩, rfl, hmove⟩
  rw [List.findSome?_eq_none_iff]
  have hmovedFault := haligned.fault fun l hl => hfault l (by simp at hl ⊢; tauto)
  simpa [Token.fault?, or_imp, forall_and] using hmovedFault

end YulBackend
