import YulBackend.Syntax
import YulBackend.Token

namespace YulBackend

def Identifier.isWellFormed (name : Identifier) : Bool := Word.isName name.name.toList

/-- Numbers and truth values are spelt as the grammar spells them; a string may hold anything. -/
def Literal.isWellFormed (value : Literal) : Bool :=
  match value.kind with
  | .number => Word.isNumber value.value.toList
  | .boolean => Word.isBoolean value.value.toList
  | .string => true

mutual

def Expr.isWellFormed : Expr → Bool
  | .call _ callee arguments => callee.isWellFormed && Expr.allWellFormed arguments
  | .identifier name => name.isWellFormed
  | .literal value => value.isWellFormed

def Expr.allWellFormed : List Expr → Bool
  | [] => true
  | e :: rest => e.isWellFormed && Expr.allWellFormed rest

end

def Expr.isCall : Expr → Bool
  | .call .. => true
  | _ => false

mutual

/-- Trees that the grammar has a text for: an expression that stands as a statement is a call, a
declaration and an assignment name something, and a `switch` has a clause. -/
def Stmt.isWellFormed : Stmt → Bool
  | .expression value => value.isCall && value.isWellFormed
  | .assignment _ targets value =>
    !targets.isEmpty && targets.all (·.isWellFormed) && value.isWellFormed
  | .declaration _ declared value =>
    !declared.isEmpty && declared.all (·.isWellFormed) && value.all (·.isWellFormed)
  | .function _ name parameters returns body =>
    Word.isName name.toList && parameters.all (·.isWellFormed) && returns.all (·.isWellFormed) &&
      body.isWellFormed
  | .conditional _ condition body => condition.isWellFormed && body.isWellFormed
  | .switch _ scrutinee cases =>
    scrutinee.isWellFormed && !cases.isEmpty && Case.allWellFormed cases
  | .loop _ pre condition post body =>
    pre.isWellFormed && condition.isWellFormed && post.isWellFormed && body.isWellFormed
  | .break _ | .continue _ | .leave _ => true
  | .block body => body.isWellFormed

def Block.isWellFormed : Block → Bool
  | ⟨_, statements⟩ => Stmt.allWellFormed statements

def Stmt.allWellFormed : List Stmt → Bool
  | [] => true
  | s :: rest => s.isWellFormed && Stmt.allWellFormed rest

/-- Only the last clause may be a default. -/
def Case.allWellFormed : List Case → Bool
  | [] => true
  | ⟨_, value, body⟩ :: rest =>
    value.all (·.isWellFormed) && (value.isSome || rest.isEmpty) && body.isWellFormed &&
      Case.allWellFormed rest

end

namespace Word

theorem isDigit_iff {c : Char} : c.isDigit ↔ '0' ≤ c ∧ c ≤ '9' :=
  Bool.and_eq_true_iff.trans (and_congr decide_eq_true_iff decide_eq_true_iff)

theorem isAlpha_iff {c : Char} : c.isAlpha ↔ ('A' ≤ c ∧ c ≤ 'Z') ∨ ('a' ≤ c ∧ c ≤ 'z') := by
  have hupper : c.isUpper ↔ 'A' ≤ c ∧ c ≤ 'Z' := decide_eq_true_iff
  have hlower : c.isLower ↔ 'a' ≤ c ∧ c ≤ 'z' :=
    Bool.and_eq_true_iff.trans (and_congr decide_eq_true_iff decide_eq_true_iff)
  exact Bool.or_eq_true_iff.trans (or_congr hupper hlower)

theorem isAlphanum_iff {c : Char} : c.isAlphanum ↔ c.isAlpha ∨ c.isDigit :=
  Bool.or_eq_true_iff

theorem isHexadecimal_digits {digits : List Char} (hne : digits ≠ [])
    (hdigits : ∀ c ∈ digits, isHexDigit c) : isHexadecimal ('0' :: 'x' :: digits) := by
  rw [isHexadecimal, Bool.and_eq_true, List.all_eq_true]
  exact ⟨by simpa using hne, hdigits⟩

theorem isNumber_hexadecimal {digits : List Char} (hne : digits ≠ [])
    (hdigits : ∀ c ∈ digits, isHexDigit c) : isNumber ('0' :: 'x' :: digits) := by
  rw [isNumber, isHexadecimal_digits hne hdigits, Bool.true_or]

theorem isNumber_decimal {digits : List Char} (hne : digits ≠ []) (hdigits : ∀ c ∈ digits, c.isDigit) :
    isNumber digits := by
  have hdecimal : isDecimal digits := by
    rw [isDecimal, Bool.and_eq_true, List.all_eq_true]
    exact ⟨by simpa using hne, hdigits⟩
  rw [isNumber, hdecimal, Bool.or_true]

end Word

namespace Token

theorem ofText?_eq_some {text : String} {k : Keyword} (h : Keyword.ofText? text = some k) : k.text = text := by
  simpa using List.find?_some h

theorem ofWord?_keyword (k : Keyword) : ofWord? k.text.toList = some (.keyword k) := by
  simp [ofWord?, Keyword.ofText?_text]

theorem head?_of_isNumber {word : List Char} (h : Word.isNumber word) : word.head?.any Char.isDigit := by
  unfold Word.isNumber Word.isHexadecimal Word.isDecimal at h
  split at h
  · rfl
  · cases word with
    | nil => simp at h
    | cons c rest =>
      simp only [Bool.false_or, Bool.and_eq_true, List.all_cons] at h
      exact h.2.1

/-- A word that starts like a name is no number. -/
theorem not_isNumber_of_head {word : List Char} (h : word.head?.any Word.isNameStart) :
    Word.isNumber word = false := by
  refine Bool.eq_false_iff.2 fun hnumber => ?_
  have hdigit := head?_of_isNumber hnumber
  cases word with
  | nil => cases h
  | cons c rest =>
    simp only [List.head?_cons, Option.any_some] at h hdigit
    obtain ⟨hlow, hhigh⟩ := Word.isDigit_iff.1 hdigit
    simp only [Word.isNameStart, Bool.or_eq_true, beq_iff_eq, Word.isAlpha_iff] at h
    rcases h with ((⟨h, -⟩ | ⟨h, -⟩) | rfl) | rfl
    · exact absurd (Char.le_trans h hhigh) (by decide)
    · exact absurd (Char.le_trans h hhigh) (by decide)
    · exact absurd hhigh (by decide)
    · exact absurd hlow (by decide)

theorem isNameStart_head_keyword (k : Keyword) : k.text.toList.head?.any Word.isNameStart := by
  cases k <;> decide

/-- A word that spells a number is read as a literal, since no reserved word and no truth value starts with a digit. -/
theorem ofWord?_number {word : List Char} (h : Word.isNumber word) :
    ofWord? word = some (.literal .number (String.ofList word)) := by
  have hkeyword : Keyword.ofText? (String.ofList word) = none := by
    cases hk : Keyword.ofText? (String.ofList word) with
    | none => rfl
    | some k =>
      have htext : k.text.toList = word := by rw [ofText?_eq_some hk, String.toList_ofList]
      have hnot := not_isNumber_of_head (isNameStart_head_keyword k)
      rw [htext, h] at hnot
      cases hnot
  have hboolean : Word.isBoolean word = false := by
    refine Bool.eq_false_iff.2 fun hb => ?_
    simp only [Word.isBoolean, Bool.or_eq_true, beq_iff_eq] at hb
    rcases hb with rfl | rfl <;> exact absurd h (by decide)
  simp [ofWord?, hkeyword, hboolean, h]

/-- The two truth values are read as literals, since neither is a reserved word. -/
theorem ofWord?_boolean {word : List Char} (h : Word.isBoolean word) :
    ofWord? word = some (.literal .boolean (String.ofList word)) := by
  have hkeyword : Keyword.ofText? (String.ofList word) = none := by
    simp only [Word.isBoolean, Bool.or_eq_true, beq_iff_eq] at h
    rcases h with rfl | rfl <;> decide
  simp [ofWord?, hkeyword, h]

/-- A name is read as a name, since it is neither reserved nor a number. -/
theorem ofWord?_name {word : List Char} (h : Word.isName word) :
    ofWord? word = some (.identifier (String.ofList word)) := by
  have hname := h
  simp only [Word.isName, Word.isReserved, Bool.and_eq_true, Bool.not_eq_true', Bool.or_eq_false_iff,
    Option.isSome_eq_false_iff, Option.isNone_iff_eq_none] at h
  obtain ⟨⟨hstart, -⟩, hkeyword, hboolean⟩ := h
  simp [ofWord?, hkeyword, hboolean, not_isNumber_of_head hstart, hname]

end Token

end YulBackend
