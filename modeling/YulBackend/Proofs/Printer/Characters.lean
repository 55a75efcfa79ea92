import YulBackend.Printer
import YulBackend.Proofs.Text.Escape

namespace YulBackend

/-- A character does not occur in a text. -/
def Lacks (c : Char) (text : String) : Prop := c ∉ text.toList

namespace Lacks

variable {c : Char} {a b text : String}

instance : Decidable (Lacks c text) := inferInstanceAs (Decidable (c ∉ text.toList))

theorem append (ha : Lacks c a) (hb : Lacks c b) : Lacks c (a ++ b) := by
  rw [Lacks, String.toList_append, List.mem_append]
  exact fun h => h.elim ha hb

theorem intercalate {texts : List String} (hsep : Lacks c a) (h : ∀ text ∈ texts, Lacks c text) :
    Lacks c (a.intercalate texts) := by
  induction texts with
  | nil => exact List.not_mem_nil
  | cons text rest ih =>
    rw [List.forall_mem_cons] at h
    cases rest with
    | nil => exact h.1
    | cons next rest =>
      rw [String.intercalate_cons_cons]
      exact (h.1.append hsep).append (ih h.2)

theorem join {texts : List String} (h : ∀ text ∈ texts, Lacks c text) : Lacks c (String.join texts) := by
  rw [Lacks, String.toList_join, List.mem_flatMap]
  exact fun ⟨text, htext, hc⟩ => h text htext hc

/-- A control character is in no text that has none. -/
theorem of_isControl (hc : Escape.isControl c) (htext : text.toList.all (!Escape.isControl ·)) : Lacks c text := by
  intro hmem
  have hnot := List.all_eq_true.1 htext c hmem
  rw [hc] at hnot
  cases hnot

end Lacks

/-- A unit of indentation has blanks or tabs only. -/
theorem Indent.lacks_unit {c : Char} (hblank : c ≠ ' ') (htab : c ≠ '\t') (indent : Indent) : Lacks c indent.unit := by
  cases indent with
  | tabs => exact fun h => htab (List.mem_singleton.1 h)
  | spaces count =>
    rw [Indent.unit, Lacks, String.toList_ofList, List.mem_replicate]
    exact fun h => hblank h.2

def Literal.verbatim (value : Literal) : List String :=
  match value.kind with
  | .number | .boolean => [value.value]
  | .string => []

mutual

/-- The names, numbers and truth values of an expression. -/
def Expr.verbatim : Expr → List String
  | .call _ callee arguments => callee.name :: Expr.allVerbatim arguments
  | .identifier name => [name.name]
  | .literal value => value.verbatim

def Expr.allVerbatim : List Expr → List String
  | [] => []
  | e :: rest => e.verbatim ++ Expr.allVerbatim rest

end

mutual

/-- The names, numbers and truth values of a statement. -/
def Stmt.verbatim : Stmt → List String
  | .expression value => value.verbatim
  | .assignment _ targets value => targets.map (·.name) ++ value.verbatim
  | .declaration _ declared none => declared.map (·.name)
  | .declaration _ declared (some value) => declared.map (·.name) ++ value.verbatim
  | .function _ name parameters returns body =>
    name :: (parameters.map (·.name) ++ (returns.map (·.name) ++ body.verbatim))
  | .conditional _ condition body => condition.verbatim ++ body.verbatim
  | .switch _ scrutinee cases => scrutinee.verbatim ++ Case.allVerbatim cases
  | .loop _ pre condition post body =>
    pre.verbatim ++ (condition.verbatim ++ (post.verbatim ++ body.verbatim))
  | .break _ => []
  | .continue _ => []
  | .leave _ => []
  | .block body => body.verbatim

/-- The names, numbers and truth values of a block. -/
def Block.verbatim : Block → List String
  | ⟨_, statements⟩ => Stmt.allVerbatim statements

def Stmt.allVerbatim : List Stmt → List String
  | [] => []
  | s :: rest => s.verbatim ++ Stmt.allVerbatim rest

def Case.allVerbatim : List Case → List String
  | [] => []
  | ⟨_, some value, body⟩ :: rest => value.verbatim ++ (body.verbatim ++ Case.allVerbatim rest)
  | ⟨_, none, body⟩ :: rest => body.verbatim ++ Case.allVerbatim rest

end

section

variable {c : Char}

/-- A literal is printed without a control character, unless the character is in a number or truth value as it stands.
A string is escaped. -/
theorem Literal.lacks_text (hc : Escape.isControl c) {value : Literal} (h : ∀ text ∈ value.verbatim, Lacks c text) :
    Lacks c value.text := by
  rw [verbatim] at h
  rw [text]
  cases hkind : value.kind with
  | string =>
    have hencoded : Lacks c (String.ofList (Escape.encode value.value.toList)) := by
      rw [Lacks, String.toList_ofList]
      exact Escape.notMem_encode hc _
    have hquote : Lacks c "\"" := .of_isControl hc (by decide)
    exact (hquote.append hencoded).append hquote
  | _ =>
    rw [hkind] at h
    exact h _ List.mem_cons_self

theorem Identifier.lacks_listText (hc : Escape.isControl c) {names : List Identifier}
    (h : ∀ text ∈ names.map (·.name), Lacks c text) : Lacks c (listText names) :=
  .intercalate (.of_isControl hc (by decide)) h

mutual

/-- An expression is printed without a control character if all that is printed as it stands is free of it. -/
theorem Expr.lacks_text (hc : Escape.isControl c) :
    ∀ {e : Expr}, (∀ text ∈ e.verbatim, Lacks c text) → Lacks c e.text
  | .call _ callee arguments, h => by
    rw [Expr.verbatim, List.forall_mem_cons] at h
    have hopen : Lacks c "(" := .of_isControl hc (by decide)
    have hclose : Lacks c ")" := .of_isControl hc (by decide)
    have hcomma : Lacks c ", " := .of_isControl hc (by decide)
    rw [Expr.text]
    exact ((h.1.append hopen).append (.intercalate hcomma (Expr.lacks_texts hc h.2))).append hclose
  | .identifier name, h => by
    rw [Expr.text]
    exact h _ List.mem_cons_self
  | .literal value, h => by
    rw [Expr.text]
    exact Literal.lacks_text hc h

theorem Expr.lacks_texts (hc : Escape.isControl c) :
    ∀ {es : List Expr}, (∀ text ∈ Expr.allVerbatim es, Lacks c text) → ∀ text ∈ Expr.texts es, Lacks c text
  | [], _ => by
    rw [Expr.texts]
    exact fun _ h => absurd h List.not_mem_nil
  | e :: rest, h => by
    rw [Expr.allVerbatim, List.forall_mem_append] at h
    rw [Expr.texts, List.forall_mem_cons]
    exact ⟨Expr.lacks_text hc h.1, Expr.lacks_texts hc h.2⟩

end

/-- A character is in no piece of text. Reserved words and line breaks are left out of account. -/
def Piece.TextLacks (c : Char) : Piece → Prop
  | text content => Lacks c content
  | _ => True

mutual

/-- The text pieces of a statement are free of a control character, line breaks between pieces apart, if all that is
printed as it stands is. -/
theorem Stmt.lacks_pieces (hc : Escape.isControl c) (depth : Nat) :
    ∀ {s : Stmt}, (∀ text ∈ s.verbatim, Lacks c text) → ∀ p ∈ s.pieces depth, p.TextLacks c
  | .expression value, h => by
    rw [Stmt.pieces, List.forall_mem_singleton]
    exact Expr.lacks_text hc h
  | .assignment _ targets value, h => by
    rw [Stmt.verbatim, List.forall_mem_append] at h
    have hassign : Lacks c " := " := .of_isControl hc (by decide)
    rw [Stmt.pieces, List.forall_mem_singleton]
    exact ((Identifier.lacks_listText hc h.1).append hassign).append (Expr.lacks_text hc h.2)
  | .declaration _ declared none, h => by
    have hspace : Lacks c " " := .of_isControl hc (by decide)
    rw [Stmt.pieces, List.forall_mem_cons, List.forall_mem_singleton]
    exact ⟨trivial, hspace.append (Identifier.lacks_listText hc h)⟩
  | .declaration _ declared (some value), h => by
    rw [Stmt.verbatim, List.forall_mem_append] at h
    have hspace : Lacks c " " := .of_isControl hc (by decide)
    have hassign : Lacks c " := " := .of_isControl hc (by decide)
    rw [Stmt.pieces, List.forall_mem_cons, List.forall_mem_singleton]
    exact ⟨trivial, ((hspace.append (Identifier.lacks_listText hc h.1)).append hassign).append
      (Expr.lacks_text hc h.2)⟩
  | .function _ name parameters returns body, h => by
    rw [Stmt.verbatim, List.forall_mem_cons, List.forall_mem_append, List.forall_mem_append] at h
    obtain ⟨hname, hparameters, hreturns, hbody⟩ := h
    have hspace : Lacks c " " := .of_isControl hc (by decide)
    have hopen : Lacks c "(" := .of_isControl hc (by decide)
    have hclose : Lacks c ")" := .of_isControl hc (by decide)
    have harrow : Lacks c (if returns.isEmpty then "" else " -> " ++ Identifier.listText returns) := by
      split
      · exact .of_isControl hc (by decide)
      · exact .append (.of_isControl hc (by decide)) (Identifier.lacks_listText hc hreturns)
    rw [Stmt.pieces, List.forall_mem_cons, List.forall_mem_cons]
    refine ⟨trivial, ?_, Block.lacks_pieces hc depth hbody⟩
    have hsignature := ((hspace.append hname).append hopen).append (Identifier.lacks_listText hc hparameters)
    exact ((hsignature.append hclose).append harrow).append hspace
  | .conditional _ condition body, h => by
    rw [Stmt.verbatim, List.forall_mem_append] at h
    have hspace : Lacks c " " := .of_isControl hc (by decide)
    rw [Stmt.pieces, List.forall_mem_cons, List.forall_mem_cons]
    exact ⟨trivial, (hspace.append (Expr.lacks_text hc h.1)).append hspace, Block.lacks_pieces hc depth h.2⟩
  | .switch _ scrutinee cases, h => by
    rw [Stmt.verbatim, List.forall_mem_append] at h
    have hspace : Lacks c " " := .of_isControl hc (by decide)
    rw [Stmt.pieces, List.forall_mem_cons, List.forall_mem_cons]
    exact ⟨trivial, hspace.append (Expr.lacks_text hc h.1), Case.lacks_listPieces hc depth h.2⟩
  | .loop _ pre condition post body, h => by
    rw [Stmt.verbatim, List.forall_mem_append, List.forall_mem_append, List.forall_mem_append] at h
    obtain ⟨hpre, hcondition, hpost, hbody⟩ := h
    have hspace : Lacks c " " := .of_isControl hc (by decide)
    rw [Stmt.pieces, List.forall_mem_cons, List.forall_mem_cons, List.forall_mem_append, List.forall_mem_cons,
      List.forall_mem_append, List.forall_mem_cons]
    exact ⟨trivial, hspace, Block.lacks_pieces hc depth hpre,
      (hspace.append (Expr.lacks_text hc hcondition)).append hspace, Block.lacks_pieces hc depth hpost, hspace,
      Block.lacks_pieces hc depth hbody⟩
  | .break _, _ => by
    rw [Stmt.pieces, List.forall_mem_singleton]
    trivial
  | .continue _, _ => by
    rw [Stmt.pieces, List.forall_mem_singleton]
    trivial
  | .leave _, _ => by
    rw [Stmt.pieces, List.forall_mem_singleton]
    trivial
  | .block body, h => by
    rw [Stmt.pieces]
    exact Block.lacks_pieces hc depth h

/-- A control character that is in no name, number or truth value of a block is in none of the texts that it is
printed as. -/
theorem Block.lacks_pieces (hc : Escape.isControl c) (depth : Nat) :
    ∀ {b : Block}, (∀ text ∈ b.verbatim, Lacks c text) → ∀ p ∈ b.pieces depth, p.TextLacks c
  | ⟨_, []⟩, _ => by
    rw [Block.pieces, List.forall_mem_singleton]
    exact .of_isControl hc (by decide)
  | ⟨_, first :: rest⟩, h => by
    rw [Block.pieces, List.forall_mem_cons, List.forall_mem_append, List.forall_mem_cons, List.forall_mem_singleton]
    exact ⟨.of_isControl hc (by decide), Stmt.lacks_listPieces hc (depth + 1) h, trivial,
      .of_isControl hc (by decide)⟩

/-- So are the text pieces of statements in a row. -/
theorem Stmt.lacks_listPieces (hc : Escape.isControl c) (depth : Nat) :
    ∀ {ss : List Stmt}, (∀ text ∈ Stmt.allVerbatim ss, Lacks c text) → ∀ p ∈ Stmt.listPieces depth ss, p.TextLacks c
  | [], _ => by
    rw [Stmt.listPieces]
    exact fun _ h => absurd h List.not_mem_nil
  | s :: rest, h => by
    rw [Stmt.allVerbatim, List.forall_mem_append] at h
    rw [Stmt.listPieces, List.forall_mem_cons, List.forall_mem_append]
    exact ⟨trivial, Stmt.lacks_pieces hc depth h.1, Stmt.lacks_listPieces hc depth h.2⟩

/-- So are the text pieces of the clauses of a `switch`. -/
theorem Case.lacks_listPieces (hc : Escape.isControl c) (depth : Nat) :
    ∀ {cases : List Case}, (∀ text ∈ Case.allVerbatim cases, Lacks c text) →
      ∀ p ∈ Case.listPieces depth cases, p.TextLacks c
  | [], _ => by
    rw [Case.listPieces]
    exact fun _ h => absurd h List.not_mem_nil
  | ⟨_, some value, body⟩ :: rest, h => by
    rw [Case.allVerbatim, List.forall_mem_append, List.forall_mem_append] at h
    have hspace : Lacks c " " := .of_isControl hc (by decide)
    rw [Case.listPieces, List.forall_mem_cons, List.forall_mem_cons, List.forall_mem_cons, List.forall_mem_append]
    exact ⟨trivial, trivial, (hspace.append (Literal.lacks_text hc h.1)).append hspace,
      Block.lacks_pieces hc depth h.2.1, Case.lacks_listPieces hc depth h.2.2⟩
  | ⟨_, none, body⟩ :: rest, h => by
    rw [Case.allVerbatim, List.forall_mem_append] at h
    rw [Case.listPieces, List.forall_mem_cons, List.forall_mem_cons, List.forall_mem_cons, List.forall_mem_append]
    exact ⟨trivial, trivial, .of_isControl hc (by decide), Block.lacks_pieces hc depth h.1,
      Case.lacks_listPieces hc depth h.2⟩

end

end

end YulBackend
