import YulBackend.Proofs.Printer.Tokens

namespace YulBackend

open Lexer

/-- Printing without colours, in an indentation of blanks. -/
structure PrintContext.IsPlain (context : PrintContext) : Prop where
  colour : context.colour = false
  unit : ∀ c ∈ context.unit.toList, isBlank c

/-- Indentation is made of blanks, tabs or spaces. -/
theorem Indent.isBlank_of_mem_unit (indent : Indent) : ∀ c ∈ indent.unit.toList, isBlank c := by
  intro c hc
  cases indent with
  | spaces count =>
    rw [unit, String.toList_ofList] at hc
    rw [List.eq_of_mem_replicate hc]
    rfl
  | tabs =>
    have htab : c = '\t' := by simpa [unit] using hc
    rw [htab]
    rfl

theorem PrintContext.isPlain_ofStyle {style : PrintStyle} (h : style.colour = false) :
    (PrintContext.ofStyle style).IsPlain :=
  ⟨h, style.indent.isBlank_of_mem_unit⟩

@[simp]
theorem Piece.toList_renderAll_nil (context : PrintContext) : (renderAll context []).toList = [] := by
  simp [renderAll]

@[simp]
theorem Piece.toList_renderAll_cons (context : PrintContext) (piece : Piece) (pieces : List Piece) :
    (renderAll context (piece :: pieces)).toList =
      (piece.render context).toList ++ (renderAll context pieces).toList := by
  simp [renderAll]

@[simp]
theorem Piece.toList_renderAll_append (context : PrintContext) (before after : List Piece) :
    (renderAll context (before ++ after)).toList =
      (renderAll context before).toList ++ (renderAll context after).toList := by
  simp [renderAll]

@[simp]
theorem Piece.toList_render_text (context : PrintContext) (content : String) :
    ((text content).render context).toList = content.toList := rfl

@[simp]
theorem Piece.toList_render_newline (context : PrintContext) (depth : Nat) :
    ((newline depth).render context).toList = '\n' :: (context.indentation depth).toList := by
  simp [render]

section

variable {context : PrintContext} {cs : List Char} {tokens : List Token}

/-- A reserved word that is rendered without colour is read as its token, if the word ends there. -/
theorem reads_keyword_piece (hcontext : context.IsPlain) (k : Keyword) (h : Reads cs tokens)
    (hend : EndsWord cs) : Reads (((Piece.keyword k).render context).toList ++ cs) (.keyword k :: tokens) := by
  rw [Piece.render, hcontext.colour]
  exact reads_keyword k h hend

theorem reads_keyword_space (hcontext : context.IsPlain) (k : Keyword) (h : Reads cs tokens) :
    Reads (((Piece.keyword k).render context).toList ++ ' ' :: cs) (.keyword k :: tokens) :=
  reads_keyword_piece hcontext k h.space (endsWord_space cs)

/-- A function up to what stands behind its parameters. -/
theorem reads_signature (hcontext : context.IsPlain) {name : String} {parameters : List Identifier}
    (hname : Word.isName name.toList) (hparameters : parameters.all (·.isWellFormed)) (h : Reads cs tokens) :
    Reads (((Piece.keyword .function).render context).toList ++
        ' ' :: (name.toList ++ '(' :: ((Identifier.listText parameters).toList ++ ')' :: cs)))
      (.keyword .function :: .identifier name :: .openParen ::
        (Identifier.listTokens parameters ++ .closeParen :: tokens)) := by
  have hlist := Identifier.reads_list hparameters h.closeParen (endsWord_cons (by decide) _)
  have hopen := reads_name hname hlist.openParen (endsWord_cons (by decide) _)
  exact reads_keyword_space hcontext .function hopen

/-- A line break and the indentation behind it are a gap. -/
theorem reads_newline (hcontext : context.IsPlain) (depth : Nat) (h : Reads cs tokens) :
    Reads ('\n' :: ((context.indentation depth).toList ++ cs)) tokens := by
  refine (h.blanks fun c hc => ?_).blank (by decide)
  simp only [PrintContext.indentation, String.toList_join, List.mem_flatMap] at hc
  obtain ⟨unit, hunit, hc⟩ := hc
  rw [List.eq_of_mem_replicate hunit] at hc
  exact hcontext.unit c hc

/-- A word ends in front of statements, since each starts on a line of its own. -/
theorem endsWord_statements (depth : Nat) (statements : List Stmt) (hend : EndsWord cs) :
    EndsWord ((Piece.renderAll context (Stmt.listPieces depth statements)).toList ++ cs) := by
  cases statements with
  | nil => simpa [Stmt.listPieces] using hend
  | cons s rest =>
    rw [Stmt.listPieces, Piece.toList_renderAll_cons, Piece.toList_render_newline]
    exact endsWord_cons (by decide) _

/-- A word ends in front of the clauses of a `switch`, since each starts on a line of its own. -/
theorem endsWord_clauses (depth : Nat) (cases : List Case) (hend : EndsWord cs) :
    EndsWord ((Piece.renderAll context (Case.listPieces depth cases)).toList ++ cs) := by
  rcases cases with _ | ⟨⟨span, _ | value, body⟩, rest⟩
  · simpa [Case.listPieces] using hend
  all_goals
    rw [Case.listPieces, Piece.toList_renderAll_cons, Piece.toList_render_newline]
    exact endsWord_cons (by decide) _

end

mutual

/-- A statement is printed as its tokens, if what follows it does not go on with a word. -/
theorem Stmt.reads {context : PrintContext} {cs : List Char} {tokens : List Token}
    (hcontext : context.IsPlain) (depth : Nat) (h : Reads cs tokens) (hend : EndsWord cs) :
    ∀ {s : Stmt}, s.isWellFormed →
      Reads ((Piece.renderAll context (s.pieces depth)).toList ++ cs) (s.tokens ++ tokens)
  | .expression value, hwf => by
    rw [Stmt.isWellFormed, Bool.and_eq_true] at hwf
    simpa [Stmt.pieces, Stmt.tokens] using Expr.reads hwf.2 h hend
  | .assignment _ targets value, hwf => by
    rw [Stmt.isWellFormed, Bool.and_eq_true, Bool.and_eq_true] at hwf
    have hvalue := (Expr.reads hwf.2 h hend).space
    have hassign := hvalue.assign.space
    have htargets := Identifier.reads_list hwf.1.2 hassign (endsWord_space _)
    simpa [Stmt.pieces, Stmt.tokens] using htargets
  | .declaration _ declared none, hwf => by
    rw [Stmt.isWellFormed, Bool.and_eq_true, Bool.and_eq_true] at hwf
    have hdeclared := Identifier.reads_list hwf.1.2 h hend
    have hlet := reads_keyword_space hcontext .let hdeclared
    simpa [Stmt.pieces, Stmt.tokens] using hlet
  | .declaration _ declared (some value), hwf => by
    rw [Stmt.isWellFormed, Bool.and_eq_true, Bool.and_eq_true] at hwf
    have hvalue := (Expr.reads hwf.2 h hend).space
    have hassign := hvalue.assign.space
    have hdeclared := Identifier.reads_list hwf.1.2 hassign (endsWord_space _)
    have hlet := reads_keyword_space hcontext .let hdeclared
    simpa [Stmt.pieces, Stmt.tokens] using hlet
  | .function _ name parameters returns body, hwf => by
    simp only [Stmt.isWellFormed, Bool.and_eq_true] at hwf
    obtain ⟨⟨⟨hname, hparameters⟩, hreturns⟩, hbody⟩ := hwf
    have hbody := (Block.reads hcontext depth h hbody).space
    cases returns with
    | nil =>
      simpa [Stmt.pieces, Stmt.tokens, Identifier.returnTokens] using
        reads_signature hcontext hname hparameters hbody
    | cons first rest =>
      have hreturns := Identifier.reads_list hreturns hbody (endsWord_space _)
      have harrow := hreturns.space.arrow.space
      simpa [Stmt.pieces, Stmt.tokens, Identifier.returnTokens] using
        reads_signature hcontext hname hparameters harrow
  | .conditional _ condition body, hwf => by
    rw [Stmt.isWellFormed, Bool.and_eq_true] at hwf
    have hbody := (Block.reads hcontext depth h hwf.2).space
    have hcondition := Expr.reads hwf.1 hbody (endsWord_space _)
    have hif := reads_keyword_space hcontext .if hcondition
    simpa [Stmt.pieces, Stmt.tokens] using hif
  | .switch _ scrutinee cases, hwf => by
    simp only [Stmt.isWellFormed, Bool.and_eq_true] at hwf
    have hcases := Case.reads_list hcontext depth h hend hwf.2
    have hscrutinee := Expr.reads hwf.1.1 hcases (endsWord_clauses depth cases hend)
    have hswitch := reads_keyword_space hcontext .switch hscrutinee
    simpa [Stmt.pieces, Stmt.tokens] using hswitch
  | .loop _ pre condition post body, hwf => by
    simp only [Stmt.isWellFormed, Bool.and_eq_true] at hwf
    obtain ⟨⟨⟨hpre, hcondition⟩, hpost⟩, hbody⟩ := hwf
    have hbody := (Block.reads hcontext depth h hbody).space
    have hpost := (Block.reads hcontext depth hbody hpost).space
    have hcondition := (Expr.reads hcondition hpost (endsWord_space _)).space
    have hpre := Block.reads hcontext depth hcondition hpre
    have hfor := reads_keyword_space hcontext .for hpre
    simpa [Stmt.pieces, Stmt.tokens] using hfor
  | .break _, _ => by
    simpa [Stmt.pieces, Stmt.tokens] using reads_keyword_piece hcontext .break h hend
  | .continue _, _ => by
    simpa [Stmt.pieces, Stmt.tokens] using reads_keyword_piece hcontext .continue h hend
  | .leave _, _ => by
    simpa [Stmt.pieces, Stmt.tokens] using reads_keyword_piece hcontext .leave h hend
  | .block body, hwf => Block.reads hcontext depth h hwf

/-- A block ends with its brace, so anything may follow it. -/
theorem Block.reads {context : PrintContext} {cs : List Char} {tokens : List Token}
    (hcontext : context.IsPlain) (depth : Nat) (h : Reads cs tokens) :
    ∀ {b : Block}, b.isWellFormed →
      Reads ((Piece.renderAll context (b.pieces depth)).toList ++ cs) (b.tokens ++ tokens)
  | ⟨_, []⟩, _ => by
    simpa [Block.pieces, Block.tokens, Stmt.listTokens] using
      (h.closeBrace.space).openBrace
  | ⟨_, first :: rest⟩, hwf => by
    have hclose := reads_newline hcontext depth h.closeBrace
    have hstatements := Stmt.reads_list hcontext (depth + 1) hclose (endsWord_cons (by decide) _) hwf
    simpa [Block.pieces, Block.tokens] using hstatements.openBrace

/-- Statements that are printed in a row are read as their tokens. -/
theorem Stmt.reads_list {context : PrintContext} {cs : List Char} {tokens : List Token}
    (hcontext : context.IsPlain) (depth : Nat) (h : Reads cs tokens) (hend : EndsWord cs) :
    ∀ {ss : List Stmt}, Stmt.allWellFormed ss →
      Reads ((Piece.renderAll context (Stmt.listPieces depth ss)).toList ++ cs) (Stmt.listTokens ss ++ tokens)
  | [], _ => by simpa [Stmt.listPieces, Stmt.listTokens] using h
  | s :: rest, hwf => by
    rw [Stmt.allWellFormed, Bool.and_eq_true] at hwf
    have hrest := Stmt.reads_list hcontext depth h hend hwf.2
    have hfirst := Stmt.reads hcontext depth hrest (endsWord_statements depth rest hend) hwf.1
    simpa [Stmt.listPieces, Stmt.listTokens] using reads_newline hcontext depth hfirst

/-- The printed clauses of a `switch` are read as their tokens. -/
theorem Case.reads_list {context : PrintContext} {cs : List Char} {tokens : List Token}
    (hcontext : context.IsPlain) (depth : Nat) (h : Reads cs tokens) (hend : EndsWord cs) :
    ∀ {cases : List Case}, Case.allWellFormed cases →
      Reads ((Piece.renderAll context (Case.listPieces depth cases)).toList ++ cs)
        (Case.listTokens cases ++ tokens)
  | [], _ => by simpa [Case.listPieces, Case.listTokens] using h
  | ⟨_, some value, body⟩ :: rest, hwf => by
    simp only [Case.allWellFormed, Bool.and_eq_true] at hwf
    obtain ⟨⟨⟨hvalue, -⟩, hbody⟩, hrest⟩ := hwf
    have hrest := Case.reads_list hcontext depth h hend hrest
    have hbody := (Block.reads hcontext depth hrest hbody).space
    have hvalue := Literal.reads hvalue hbody (endsWord_space _)
    have hcase := reads_keyword_space hcontext .case hvalue
    simpa [Case.listPieces, Case.listTokens] using reads_newline hcontext depth hcase
  | ⟨_, none, body⟩ :: rest, hwf => by
    simp only [Case.allWellFormed, Bool.and_eq_true] at hwf
    obtain ⟨⟨-, hbody⟩, hrest⟩ := hwf
    have hrest := Case.reads_list hcontext depth h hend hrest
    have hbody := Block.reads hcontext depth hrest hbody
    have hdefault := reads_keyword_space hcontext .default hbody
    simpa [Case.listPieces, Case.listTokens] using reads_newline hcontext depth hdefault

end

end YulBackend
