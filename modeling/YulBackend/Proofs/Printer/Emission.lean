import YulBackend.Printer

namespace YulBackend

/-- A printer at work: its context, and what it wrote so far. -/
structure Emission where
  context : PrintContext
  written : String := ""
deriving DecidableEq, Repr

namespace Emission

def write (e : Emission) (text : String) : Emission := { e with written := e.written ++ text }

/-- Goes one level in. -/
def deepen (e : Emission) : Emission := { e with context := e.context.deepen }

/-- Comes one level out, except from the outermost level. -/
def flatten (e : Emission) : Emission := { e with context := e.context.flatten }

/-- Writes the indentation of the level that was reached. -/
def indent (e : Emission) : Emission :=
  e.write (String.join (List.replicate e.context.level e.context.unit))

def keyword (e : Emission) (word : Keyword) : Emission :=
  e.write (if e.context.colour then paintKeyword word.text else word.text)

end Emission

mutual

/-- Writes a statement that stands behind its indentation. -/
def Stmt.emit : Stmt → Emission → Emission
  | .expression value, e => e.write value.text
  | .assignment _ targets value, e =>
    ((e.write (Identifier.listText targets)).write " := ").write value.text
  | .declaration _ declared none, e => ((e.keyword .let).write " ").write (Identifier.listText declared)
  | .declaration _ declared (some value), e =>
    let e := ((e.keyword .let).write " ").write (Identifier.listText declared)
    (e.write " := ").write value.text
  | .function _ name parameters returns body, e =>
    let e := (((e.keyword .function).write " ").write name).write "("
    let e := (e.write (Identifier.listText parameters)).write ")"
    let e := if returns.isEmpty then e else (e.write " -> ").write (Identifier.listText returns)
    body.emit (e.write " ")
  | .conditional _ condition body, e =>
    body.emit ((((e.keyword .if).write " ").write condition.text).write " ")
  | .switch _ scrutinee cases, e =>
    Case.emitAll cases (((e.keyword .switch).write " ").write scrutinee.text)
  | .loop _ pre condition post body, e =>
    let e := pre.emit ((e.keyword .for).write " ")
    let e := post.emit (((e.write " ").write condition.text).write " ")
    body.emit (e.write " ")
  | .break _, e => e.keyword .break
  | .continue _, e => e.keyword .continue
  | .leave _, e => e.keyword .leave
  | .block body, e => body.emit e

/-- Writes a block: an empty one in place, any other with a line for each statement, one level further in. -/
def Block.emit : Block → Emission → Emission
  | ⟨_, []⟩, e => e.write "\x7b \x7d"
  | ⟨_, first :: rest⟩, e =>
    (Stmt.emitAll (first :: rest) (e.write "\x7b\n").deepen).flatten.indent.write "\x7d"

/-- Writes a line for each statement. -/
def Stmt.emitAll : List Stmt → Emission → Emission
  | [], e => e
  | s :: rest, e => Stmt.emitAll rest ((s.emit e.indent).write "\n")

/-- Writes a line for each clause, on the level of its `switch`. -/
def Case.emitAll : List Case → Emission → Emission
  | [], e => e
  | ⟨_, some value, body⟩ :: rest, e =>
    let e := ((e.write "\n").indent.keyword .case).write " "
    Case.emitAll rest (body.emit ((e.write value.text).write " "))
  | ⟨_, none, body⟩ :: rest, e =>
    Case.emitAll rest (body.emit (((e.write "\n").indent.keyword .default).write " "))

end

/-- What a block is printed as in a context, and the context afterwards. -/
def Block.emitIn (context : PrintContext) (b : Block) : String × PrintContext :=
  ((b.emit { context }).written, (b.emit { context }).context)

/-- The context some levels further in. -/
def PrintContext.below (context : PrintContext) (depth : Nat) : PrintContext :=
  { context with level := context.level + depth }

namespace Emission

/-- A printer some levels in from a context, with pieces written. -/
def rendered (context : PrintContext) (depth : Nat) (pieces : List Piece) : Emission :=
  ⟨context.below depth, Piece.renderAll context pieces⟩

theorem write_append (e : Emission) (a b : String) : e.write (a ++ b) = (e.write a).write b := by
  rw [write, write, write, String.append_assoc]

theorem deepen_write (e : Emission) (text : String) : (e.write text).deepen = e.deepen.write text := rfl

theorem flatten_write (e : Emission) (text : String) : (e.write text).flatten = e.flatten.write text := rfl

section

variable (context : PrintContext) (depth : Nat) (pieces : List Piece)

theorem eq_rendered : ({ context } : Emission) = rendered context 0 [] := rfl

theorem rendered_concat (p : Piece) :
    rendered context depth (pieces ++ [p]) = (rendered context depth pieces).write (p.render context) := by
  rw [rendered, rendered, write, Piece.renderAll, Piece.renderAll, List.map_append, String.join_append,
    List.map_singleton, String.join_cons, String.join_nil, String.append_empty]

theorem rendered_text (text : String) :
    (rendered context depth pieces).write text = rendered context depth (pieces ++ [.text text]) := by
  rw [rendered_concat, Piece.render]

theorem rendered_keyword (word : Keyword) :
    (rendered context depth pieces).keyword word = rendered context depth (pieces ++ [.keyword word]) := by
  rw [rendered_concat, Piece.render]
  rfl

/-- Starting a line and indenting it is rendering a line break at the depth that the context is at. -/
theorem rendered_newline :
    ((rendered context depth pieces).write "\n").indent = rendered context depth (pieces ++ [.newline depth]) := by
  rw [rendered_concat, Piece.render, write_append]
  rfl

theorem rendered_deepen : (rendered context depth pieces).deepen = rendered context (depth + 1) pieces := rfl

theorem rendered_flatten : (rendered context (depth + 1) pieces).flatten = rendered context depth pieces := rfl

end

end Emission

section

open Emission

variable (context : PrintContext)

mutual

/-- Emitting a statement at some depth writes what its pieces at that depth are rendered as, and comes back to that
depth. -/
theorem Stmt.emit_rendered (depth : Nat) : ∀ (s : Stmt) (written : List Piece),
    s.emit (rendered context depth written) = rendered context depth (written ++ s.pieces depth)
  | .expression value, written => by
    rw [Stmt.emit, Stmt.pieces, rendered_text]
  | .assignment _ targets value, written => by
    rw [Stmt.emit, Stmt.pieces, ← rendered_text, write_append, write_append]
  | .declaration _ declared none, written => by
    rw [Stmt.emit, Stmt.pieces, rendered_keyword, ← write_append, rendered_text, List.append_assoc]
    rfl
  | .declaration _ declared (some value), written => by
    rw [Stmt.emit, Stmt.pieces, rendered_keyword, ← write_append, ← write_append, ← write_append, rendered_text]
    simp only [String.append_assoc, List.append_assoc, List.cons_append, List.nil_append]
  | .function _ name parameters returns body, written => by
    have harrow : ∀ e : Emission,
        (if returns.isEmpty then e else (e.write " -> ").write (Identifier.listText returns)) =
          e.write (if returns.isEmpty then "" else " -> " ++ Identifier.listText returns) := by
      intro e
      split
      · rw [Emission.write, String.append_empty]
      · rw [write_append]
    rw [Stmt.emit, Stmt.pieces, harrow, rendered_keyword, ← write_append, ← write_append, ← write_append,
      ← write_append, ← write_append, ← write_append, rendered_text, Block.emit_rendered depth body]
    simp only [String.append_assoc, List.append_assoc, List.cons_append, List.nil_append]
  | .conditional _ condition body, written => by
    rw [Stmt.emit, Stmt.pieces, rendered_keyword, ← write_append, ← write_append, rendered_text,
      Block.emit_rendered depth body, List.append_assoc, List.append_assoc]
    rfl
  | .switch _ scrutinee cases, written => by
    rw [Stmt.emit, Stmt.pieces, rendered_keyword, ← write_append, rendered_text, Case.emitAll_rendered depth cases,
      List.append_assoc, List.append_assoc]
    rfl
  | .loop _ pre condition post body, written => by
    rw [Stmt.emit, Stmt.pieces, rendered_keyword, rendered_text, Block.emit_rendered depth pre, ← write_append,
      ← write_append, rendered_text, Block.emit_rendered depth post, rendered_text, Block.emit_rendered depth body]
    simp only [String.append_assoc, List.append_assoc, List.cons_append, List.nil_append]
  | .break _, written => by
    rw [Stmt.emit, Stmt.pieces, rendered_keyword]
  | .continue _, written => by
    rw [Stmt.emit, Stmt.pieces, rendered_keyword]
  | .leave _, written => by
    rw [Stmt.emit, Stmt.pieces, rendered_keyword]
  | .block body, written => by
    rw [Stmt.emit, Stmt.pieces, Block.emit_rendered depth body]

/-- Writing a block adds the rendering of its pieces, and comes back to the level at which it started. -/
theorem Block.emit_rendered (depth : Nat) : ∀ (b : Block) (written : List Piece),
    b.emit (rendered context depth written) = rendered context depth (written ++ b.pieces depth)
  | ⟨_, []⟩, written => by
    rw [Block.emit, Block.pieces, rendered_text]
  | ⟨_, first :: rest⟩, written => by
    have hopen : "\x7b\n" = "\x7b" ++ "\n" := rfl
    rw [Block.emit, Block.pieces, hopen, write_append, rendered_text, deepen_write, rendered_deepen,
      Stmt.emitAll_rendered (depth + 1) (first :: rest), flatten_write, rendered_flatten, rendered_newline,
      rendered_text]
    simp only [List.append_assoc, List.cons_append, List.nil_append]

/-- Statements are written behind a line break each, and the last one is followed by a line break too. -/
theorem Stmt.emitAll_rendered (depth : Nat) : ∀ (ss : List Stmt) (written : List Piece),
    Stmt.emitAll ss ((rendered context depth written).write "\n") =
      (rendered context depth (written ++ Stmt.listPieces depth ss)).write "\n"
  | [], written => by
    rw [Stmt.emitAll, Stmt.listPieces, List.append_nil]
  | s :: rest, written => by
    rw [Stmt.emitAll, Stmt.listPieces, rendered_newline, Stmt.emit_rendered depth s, Stmt.emitAll_rendered depth rest,
      List.append_assoc, List.append_assoc]
    rfl

/-- Emitting the clauses of a `switch` writes what their pieces are rendered as, and comes back to the depth. -/
theorem Case.emitAll_rendered (depth : Nat) : ∀ (cases : List Case) (written : List Piece),
    Case.emitAll cases (rendered context depth written) =
      rendered context depth (written ++ Case.listPieces depth cases)
  | [], written => by
    rw [Case.emitAll, Case.listPieces, List.append_nil]
  | ⟨_, some value, body⟩ :: rest, written => by
    rw [Case.emitAll, Case.listPieces, rendered_newline, rendered_keyword, ← write_append, ← write_append,
      rendered_text, Block.emit_rendered depth body, Case.emitAll_rendered depth rest]
    simp only [String.append_assoc, List.append_assoc, List.cons_append, List.nil_append]
  | ⟨_, none, body⟩ :: rest, written => by
    rw [Case.emitAll, Case.listPieces, rendered_newline, rendered_keyword, rendered_text,
      Block.emit_rendered depth body, Case.emitAll_rendered depth rest]
    simp only [List.append_assoc, List.cons_append, List.nil_append]

end

/-- A block is written as it is printed, and the context is what it was before. -/
theorem Block.emitIn_eq (b : Block) : b.emitIn context = (b.printIn context, context) := by
  rw [emitIn, eq_rendered, Block.emit_rendered, List.nil_append]
  rfl

end

end YulBackend
