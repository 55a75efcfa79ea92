import YulBackend.Printer
import YulBackend.Proofs.Syntax.Spans

namespace YulBackend

@[simp]
theorem Literal.text_eraseSpan (value : Literal) : value.eraseSpan.text = value.text := rfl

@[simp]
theorem Identifier.listText_eraseSpan (names : List Identifier) :
    Identifier.listText (names.map (·.eraseSpan)) = Identifier.listText names := by
  simp [Identifier.listText, Function.comp_def, Identifier.eraseSpan]

mutual

@[simp]
theorem Expr.text_eraseSpans : ∀ e : Expr, e.eraseSpans.text = e.text
  | .call _ callee arguments => by
    rw [Expr.eraseSpans, Expr.text, Expr.text, Expr.texts_eraseAll arguments, Identifier.eraseSpan]
  | .identifier _ => by rw [Expr.eraseSpans, Expr.text, Expr.text, Identifier.eraseSpan]
  | .literal value => by rw [Expr.eraseSpans, Expr.text, Expr.text, value.text_eraseSpan]

theorem Expr.texts_eraseAll : ∀ es : List Expr, Expr.texts (Expr.eraseAll es) = Expr.texts es
  | [] => by rw [Expr.eraseAll]
  | e :: rest => by
    rw [Expr.eraseAll, Expr.texts, Expr.texts, e.text_eraseSpans, Expr.texts_eraseAll rest]

end

mutual

/-- Laying out a statement does not look at spans. -/
theorem Stmt.pieces_eraseSpans (depth : Nat) : ∀ s : Stmt, s.eraseSpans.pieces depth = s.pieces depth
  | .expression value => by simp [Stmt.eraseSpans, Stmt.pieces]
  | .assignment _ targets value => by simp [Stmt.eraseSpans, Stmt.pieces]
  | .declaration _ declared none => by simp [Stmt.eraseSpans, Stmt.pieces]
  | .declaration _ declared (some value) => by simp [Stmt.eraseSpans, Stmt.pieces]
  | .function _ name parameters returns body => by
    simp [Stmt.eraseSpans, Stmt.pieces, body.pieces_eraseSpans depth]
  | .conditional _ condition body => by
    simp [Stmt.eraseSpans, Stmt.pieces, body.pieces_eraseSpans depth]
  | .switch _ scrutinee clauses => by
    simp [Stmt.eraseSpans, Stmt.pieces, Case.listPieces_eraseAll depth clauses]
  | .loop _ pre condition post body => by
    simp [Stmt.eraseSpans, Stmt.pieces, pre.pieces_eraseSpans depth, post.pieces_eraseSpans depth,
      body.pieces_eraseSpans depth]
  | .break _ => by simp [Stmt.eraseSpans, Stmt.pieces]
  | .continue _ => by simp [Stmt.eraseSpans, Stmt.pieces]
  | .leave _ => by simp [Stmt.eraseSpans, Stmt.pieces]
  | .block body => by simp [Stmt.eraseSpans, Stmt.pieces, body.pieces_eraseSpans depth]

/-- Laying out a block does not look at spans. -/
theorem Block.pieces_eraseSpans (depth : Nat) : ∀ b : Block, b.eraseSpans.pieces depth = b.pieces depth
  | ⟨_, []⟩ => by simp [Block.eraseSpans, Stmt.eraseAll, Block.pieces]
  | ⟨_, first :: rest⟩ => by
    have hpieces := Stmt.listPieces_eraseAll (depth + 1) (first :: rest)
    rw [Stmt.eraseAll] at hpieces
    simp [Block.eraseSpans, Stmt.eraseAll, Block.pieces, hpieces]

theorem Stmt.listPieces_eraseAll (depth : Nat) : ∀ ss : List Stmt,
    Stmt.listPieces depth (Stmt.eraseAll ss) = Stmt.listPieces depth ss
  | [] => by rw [Stmt.eraseAll]
  | s :: rest => by
    rw [Stmt.eraseAll, Stmt.listPieces, Stmt.listPieces, s.pieces_eraseSpans depth,
      Stmt.listPieces_eraseAll depth rest]

theorem Case.listPieces_eraseAll (depth : Nat) : ∀ clauses : List Case,
    Case.listPieces depth (Case.eraseAll clauses) = Case.listPieces depth clauses
  | [] => by rw [Case.eraseAll]
  | ⟨_, none, body⟩ :: rest => by
    simp [Case.eraseAll, Case.listPieces, body.pieces_eraseSpans depth, Case.listPieces_eraseAll depth rest]
  | ⟨_, some value, body⟩ :: rest => by
    simp [Case.eraseAll, Case.listPieces, body.pieces_eraseSpans depth, Case.listPieces_eraseAll depth rest]

end

/-- Trees that are equal up to spans are printed alike, in every style. -/
theorem Block.print_congr {b b' : Block} (h : b.eraseSpans = b'.eraseSpans) (style : PrintStyle) :
    b.print style = b'.print style := by
  rw [print, print, printIn, printIn, ← b.pieces_eraseSpans, h, b'.pieces_eraseSpans]

end YulBackend
