import YulBackend.Proofs.Syntax.Grammar
import YulBackend.Proofs.Syntax.WellFormed

namespace YulBackend

/-- The token of a class that has only one. -/
def Grammar.Terminal.token? : Grammar.Terminal → Option Token
  | openBrace => some .openBrace
  | closeBrace => some .closeBrace
  | openParen => some .openParen
  | closeParen => some .closeParen
  | comma => some .comma
  | assign => some .assign
  | arrow => some .arrow
  | keyword word => some (.keyword word)
  | identifier | hexNumber | decimalNumber | stringLiteral | boolLiteral => none

namespace Token

open Grammar (Terminal)

/-- The class of a token in the grammar. -/
def terminal : Token → Terminal
  | openBrace => .openBrace
  | closeBrace => .closeBrace
  | openParen => .openParen
  | closeParen => .closeParen
  | comma => .comma
  | assign => .assign
  | arrow => .arrow
  | keyword word => .keyword word
  | identifier _ => .identifier
  | literal .number value => if Word.isHexadecimal value.toList then .hexNumber else .decimalNumber
  | literal .boolean _ => .boolLiteral
  | literal .string _ => .stringLiteral
  | badString _ => .stringLiteral

@[simp]
theorem terminal_openBrace : openBrace.terminal = .openBrace := rfl

@[simp]
theorem terminal_closeBrace : closeBrace.terminal = .closeBrace := rfl

@[simp]
theorem terminal_openParen : openParen.terminal = .openParen := rfl

@[simp]
theorem terminal_closeParen : closeParen.terminal = .closeParen := rfl

@[simp]
theorem terminal_comma : comma.terminal = .comma := rfl

@[simp]
theorem terminal_assign : assign.terminal = .assign := rfl

@[simp]
theorem terminal_arrow : arrow.terminal = .arrow := rfl

@[simp]
theorem terminal_keyword (word : Keyword) : (keyword word).terminal = .keyword word := rfl

@[simp]
theorem terminal_identifier (name : String) : (identifier name).terminal = .identifier := rfl

/-- Tokens as a text without invalid escapes is made of: names and numbers are spelt as the grammar spells
them. -/
def isProper : Token → Bool
  | identifier name => Word.isName name.toList
  | literal kind value => Literal.isWellFormed { kind, value }
  | badString _ => false
  | _ => true

theorem fault?_of_isProper {token : Token} (h : token.isProper) : token.fault? = none := by
  cases token with
  | badString _ => cases h
  | _ => rfl

/-- Every word that `ofWord?` makes a token of is spelt as the grammar spells it. -/
theorem isProper_of_ofWord? {word : List Char} {token : Token} (h : ofWord? word = some token) :
    token.isProper := by
  unfold ofWord? at h
  dsimp only at h
  split at h
  · cases h
    rfl
  split at h
  next hboolean =>
    cases h
    simpa [isProper, Literal.isWellFormed] using hboolean
  split at h
  next hnumber =>
    cases h
    simpa [isProper, Literal.isWellFormed] using hnumber
  split at h
  next hname =>
    cases h
    simpa [isProper] using hname
  · cases h

/-- A string literal without an invalid escape is a proper token, whatever its characters. -/
theorem isProper_ofStringBody {raw : List Char} (h : (ofStringBody raw).fault? = none) :
    (ofStringBody raw).isProper := by
  rw [ofStringBody] at h ⊢
  split at h
  · rfl
  · cases h

/-- Literals fall into four classes of the grammar, numbers by the way in which they are spelt. -/
theorem terminal_literal (kind : LiteralKind) (value : String) :
    (literal kind value).terminal = .hexNumber ∨ (literal kind value).terminal = .decimalNumber ∨
      (literal kind value).terminal = .stringLiteral ∨ (literal kind value).terminal = .boolLiteral := by
  cases kind with
  | number =>
    rw [terminal]
    split <;> simp
  | boolean => simp [terminal]
  | string => simp [terminal]

/-- The class of a symbol or of a reserved word has one token only. -/
theorem eq_of_terminal {token token' : Token} {t : Terminal} (h : t.token? = some token')
    (hterminal : token.terminal = t) : token = token' := by
  subst hterminal
  cases token with
  | literal kind value =>
    rcases terminal_literal kind value with hclass | hclass | hclass | hclass <;> rw [hclass] at h <;> cases h
  | identifier _ => cases h
  | badString _ => cases h
  | _ => exact Option.some.inj h

/-- A proper token of one of the four classes of literals is a literal. -/
theorem exists_literal {token : Token} (hproper : token.isProper)
    (hterminal : token.terminal = .hexNumber ∨ token.terminal = .decimalNumber ∨
      token.terminal = .stringLiteral ∨ token.terminal = .boolLiteral) :
    ∃ kind value, token = .literal kind value := by
  cases token with
  | literal kind value => exact ⟨kind, value, rfl⟩
  | badString _ => cases hproper
  | _ => simp [terminal] at hterminal

/-- Only names are in the class of identifiers. -/
theorem exists_identifier {token : Token} (hterminal : token.terminal = .identifier) :
    ∃ name, token = .identifier name := by
  cases token with
  | identifier name => exact ⟨name, rfl⟩
  | literal kind value =>
    rcases terminal_literal kind value with hclass | hclass | hclass | hclass <;>
      rw [hclass] at hterminal <;> cases hterminal
  | _ => cases hterminal

end Token

end YulBackend
