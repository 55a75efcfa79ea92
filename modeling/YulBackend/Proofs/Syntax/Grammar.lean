import YulBackend.Syntax.Keyword

namespace YulBackend.Grammar

/-- A class of tokens. -/
inductive Terminal
  | openBrace
  | closeBrace
  | openParen
  | closeParen
  | comma
  | assign
  | arrow
  | keyword (word : Keyword)
  | identifier
  | hexNumber
  | decimalNumber
  | stringLiteral
  | boolLiteral
deriving DecidableEq, Repr

inductive Rule
  | block
  | statement
  | functionDefinition
  | parameters
  | returnVariables
  | variableDeclaration
  | assignment
  | expressionStatement
  | ifStatement
  | switchStatement
  | caseClause
  | defaultClause
  | forLoop
  | breakStatement
  | continueStatement
  | leaveStatement
  | expression
  | functionCall
  | literal
deriving DecidableEq, Repr

/-- What may stand on the right of a rule. -/
inductive Form
  | terminal (t : Terminal)
  | rule (r : Rule)
  | sequence (first second : Form)
  | choice (first second : Form)
  | optional (body : Form)
  | many (body : Form)

namespace Form

instance : Append Form := ⟨sequence⟩

instance : OrElse Form := ⟨fun first second => choice first (second ())⟩

instance : Coe Terminal Form := ⟨terminal⟩

instance : Coe Rule Form := ⟨rule⟩

instance : Coe Keyword Form := ⟨fun k => terminal (.keyword k)⟩

/-- One or more of a form. -/
def oneOrMore (body : Form) : Form := body ++ many body

/-- One or more of a form with commas between them. -/
def commaSeparated (body : Form) : Form := body ++ many (Terminal.comma ++ body)

end Form

open Form Terminal in
/-- The right-hand side of each rule, with the alternatives in the order in which they are tried. -/
def Rule.body : Rule → Form
  | .block => openBrace ++ many statement ++ closeBrace
  | .statement =>
    block <|> functionDefinition <|> variableDeclaration <|> ifStatement <|> switchStatement <|> forLoop <|>
      breakStatement <|> continueStatement <|> leaveStatement <|> assignment <|> expressionStatement
  | .functionDefinition =>
    Keyword.function ++ identifier ++ openParen ++ parameters ++ closeParen ++ returnVariables ++ block
  | .parameters => optional (commaSeparated identifier)
  | .returnVariables => optional (arrow ++ commaSeparated identifier)
  | .variableDeclaration =>
    Keyword.let ++ commaSeparated identifier ++ optional (assign ++ expression)
  | .assignment => commaSeparated identifier ++ assign ++ expression
  | .expressionStatement => functionCall
  | .ifStatement => Keyword.if ++ expression ++ block
  | .switchStatement =>
    Keyword.switch ++ expression ++ (oneOrMore caseClause ++ optional defaultClause <|> defaultClause)
  | .caseClause => Keyword.case ++ literal ++ block
  | .defaultClause => Keyword.default ++ block
  | .forLoop => Keyword.for ++ block ++ expression ++ block ++ block
  | .breakStatement => Keyword.break
  | .continueStatement => Keyword.continue
  | .leaveStatement => Keyword.leave
  | .expression => functionCall <|> literal <|> identifier
  | .functionCall => identifier ++ openParen ++ optional (commaSeparated expression) ++ closeParen
  | .literal => hexNumber <|> decimalNumber <|> stringLiteral <|> boolLiteral

/-- The sequences of classes that a form derives, where a rule stands for its right-hand side. No order of choices and
no greediness is in it: a sequence is derived if there is any way to derive it. -/
inductive Derives : Form → List Terminal → Prop
  | terminal (t : Terminal) : Derives (.terminal t) [t]
  | rule {r : Rule} {word : List Terminal} : Derives r.body word → Derives (.rule r) word
  | sequence {first second : Form} {xs ys : List Terminal} :
    Derives first xs → Derives second ys → Derives (first ++ second) (xs ++ ys)
  | left {first second : Form} {word : List Terminal} : Derives first word → Derives (first <|> second) word
  | right {first second : Form} {word : List Terminal} : Derives second word → Derives (first <|> second) word
  | absent {body : Form} : Derives (.optional body) []
  | present {body : Form} {word : List Terminal} : Derives body word → Derives (.optional body) word
  | stop {body : Form} : Derives (.many body) []
  | more {body : Form} {xs ys : List Terminal} :
    Derives body xs → Derives (.many body) ys → Derives (.many body) (xs ++ ys)

section

variable {α : Type} (classOf : α → Terminal) (allowed : α → Prop) (meaning : Rule → List α → Prop)

/-- What a form stands for among the sequences of allowed tokens, once it is settled what each rule stands
for. -/
def Form.Holds : Form → List α → Prop
  | terminal t, word => ∃ a, classOf a = t ∧ allowed a ∧ word = [a]
  | rule r, word => meaning r word
  | sequence first second, word => ∃ xs ys, word = xs ++ ys ∧ first.Holds xs ∧ second.Holds ys
  | choice first second, word => first.Holds word ∨ second.Holds word
  | optional body, word => word = [] ∨ body.Holds word
  | many body, word => ∃ parts : List (List α), word = parts.flatten ∧ ∀ part ∈ parts, body.Holds part

variable {classOf allowed meaning}

/-- A sequence stands for words of which the front belongs to its first part and the rest to its second. -/
@[simp]
theorem Form.holds_append {first second : Form} {word : List α} :
    (first ++ second).Holds classOf allowed meaning word ↔ ∃ xs ys, word = xs ++ ys ∧
      first.Holds classOf allowed meaning xs ∧ second.Holds classOf allowed meaning ys :=
  Iff.rfl

@[simp]
theorem Form.holds_orElse {first second : Form} {word : List α} :
    (first <|> second).Holds classOf allowed meaning word ↔
      first.Holds classOf allowed meaning word ∨ second.Holds classOf allowed meaning word :=
  Iff.rfl

/-- What holds of no tokens and is kept by one more of the repeated form holds of every repetition. -/
theorem Form.Holds.many_induction {body : Form} {motive : List α → Prop} (nil : motive [])
    (cons : ∀ xs ys, body.Holds classOf allowed meaning xs → motive ys → motive (xs ++ ys)) {word : List α}
    (h : (many body).Holds classOf allowed meaning word) : motive word := by
  obtain ⟨parts, rfl, hparts⟩ := h
  induction parts with
  | nil => exact nil
  | cons part rest ih =>
    rw [List.forall_mem_cons] at hparts
    exact cons part rest.flatten hparts.1 (ih hparts.2)

/-- If whatever the right-hand side of a rule stands for belongs to the rule, then so does all that is derived
from it. -/
theorem Derives.holds (hclosed : ∀ r word, r.body.Holds classOf allowed meaning word → meaning r word)
    {f : Form} {classes : List Terminal} (h : Derives f classes) :
    ∀ {word : List α}, (∀ a ∈ word, allowed a) → word.map classOf = classes →
      f.Holds classOf allowed meaning word := by
  induction h with
  | terminal t =>
    intro word hallowed hword
    obtain ⟨a, rfl, ha⟩ := List.map_eq_singleton_iff.1 hword
    exact ⟨a, ha, hallowed a List.mem_cons_self, rfl⟩
  | rule _ ih =>
    intro word hallowed hword
    exact hclosed _ _ (ih hallowed hword)
  | sequence _ _ ihFirst ihSecond =>
    intro word hallowed hword
    obtain ⟨xs, ys, rfl, hxs, hys⟩ := List.map_eq_append_iff.1 hword
    rw [List.forall_mem_append] at hallowed
    exact ⟨xs, ys, rfl, ihFirst hallowed.1 hxs, ihSecond hallowed.2 hys⟩
  | left _ ih =>
    intro word hallowed hword
    exact .inl (ih hallowed hword)
  | right _ ih =>
    intro word hallowed hword
    exact .inr (ih hallowed hword)
  | absent =>
    intro word _ hword
    exact .inl (List.map_eq_nil_iff.1 hword)
  | present _ ih =>
    intro word hallowed hword
    exact .inr (ih hallowed hword)
  | stop =>
    intro word _ hword
    exact ⟨[], List.map_eq_nil_iff.1 hword, by simp⟩
  | more _ _ ihBody ihRest =>
    intro word hallowed hword
    obtain ⟨xs, ys, rfl, hxs, hys⟩ := List.map_eq_append_iff.1 hword
    rw [List.forall_mem_append] at hallowed
    obtain ⟨parts, rfl, hparts⟩ := ihRest hallowed.2 hys
    refine ⟨xs :: parts, rfl, ?_⟩
    rintro part (_ | ⟨_, hpart⟩)
    · exact ihBody hallowed.1 hxs
    · exact hparts part hpart

end

end YulBackend.Grammar
