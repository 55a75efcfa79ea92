import YulBackend.Printer
import YulBackend.Proofs.Syntax.WellFormed
import YulBackend.Proofs.Token.Reads

namespace YulBackend

def Literal.token (value : Literal) : Token := .literal value.kind value.value

def Identifier.listTokens : List Identifier → List Token
  | [] => []
  | [name] => [.identifier name.name]
  | name :: rest => .identifier name.name :: .comma :: Identifier.listTokens rest

/-- The arrow that announces return variables, and their names, if there are any. -/
def Identifier.returnTokens (names : List Identifier) : List Token :=
  if names.isEmpty then [] else .arrow :: Identifier.listTokens names

mutual

def Expr.tokens : Expr → List Token
  | .call _ callee arguments =>
    .identifier callee.name :: .openParen :: (Expr.listTokens arguments ++ [.closeParen])
  | .identifier name => [.identifier name.name]
  | .literal value => [value.token]

/-- The tokens of a list of arguments, of which each but the first has a comma in front. -/
def Expr.listTokens : List Expr → List Token
  | [] => []
  | e :: rest => e.tokens ++ Expr.moreTokens rest

def Expr.moreTokens : List Expr → List Token
  | [] => []
  | e :: rest => .comma :: (e.tokens ++ Expr.moreTokens rest)

end

mutual

def Stmt.tokens : Stmt → List Token
  | .expression value => value.tokens
  | .assignment _ targets value => Identifier.listTokens targets ++ .assign :: value.tokens
  | .declaration _ declared none => .keyword .let :: Identifier.listTokens declared
  | .declaration _ declared (some value) =>
    .keyword .let :: (Identifier.listTokens declared ++ .assign :: value.tokens)
  | .function _ name parameters returns body =>
    .keyword .function :: .identifier name :: .openParen ::
      (Identifier.listTokens parameters ++ .closeParen :: (Identifier.returnTokens returns ++ body.tokens))
  | .conditional _ condition body => .keyword .if :: (condition.tokens ++ body.tokens)
  | .switch _ scrutinee cases => .keyword .switch :: (scrutinee.tokens ++ Case.listTokens cases)
  | .loop _ pre condition post body =>
    .keyword .for :: (pre.tokens ++ (condition.tokens ++ (post.tokens ++ body.tokens)))
  | .break _ => [.keyword .break]
  | .continue _ => [.keyword .continue]
  | .leave _ => [.keyword .leave]
  | .block body => body.tokens

def Block.tokens : Block → List Token
  | ⟨_, statements⟩ => .openBrace :: (Stmt.listTokens statements ++ [.closeBrace])

def Stmt.listTokens : List Stmt → List Token
  | [] => []
  | s :: rest => s.tokens ++ Stmt.listTokens rest

def Case.listTokens : List Case → List Token
  | [] => []
  | ⟨_, some value, body⟩ :: rest =>
    .keyword .case :: value.token :: (body.tokens ++ Case.listTokens rest)
  | ⟨_, none, body⟩ :: rest => .keyword .default :: (body.tokens ++ Case.listTokens rest)

end

theorem Block.tokens_eq (b : Block) :
    b.tokens = .openBrace :: (Stmt.listTokens b.statements ++ [.closeBrace]) := by
  cases b
  rw [Block.tokens]

theorem Word.isNameChar_of_isHexDigit {c : Char} (h : isHexDigit c) : isNameChar c := by
  simp only [isHexDigit, isNameChar, Bool.or_eq_true, Bool.and_eq_true, decide_eq_true_eq, isAlphanum_iff,
    isAlpha_iff] at h ⊢
  rcases h with (hdigit | ⟨hlow, hhigh⟩) | ⟨hlow, hhigh⟩
  · exact .inl (.inl (.inl (.inr hdigit)))
  · exact .inl (.inl (.inl (.inl (.inr ⟨hlow, Char.le_trans hhigh (by decide)⟩))))
  · exact .inl (.inl (.inl (.inl (.inl ⟨hlow, Char.le_trans hhigh (by decide)⟩))))

/-- Numbers consist of name characters, the prefix `0x` included. -/
theorem Word.all_isNameChar_of_isNumber {word : List Char} (h : isNumber word) : word.all isNameChar := by
  unfold isNumber isHexadecimal isDecimal at h
  simp only [List.all_eq_true]
  split at h
  next digits =>
    intro c hc
    simp only [List.mem_cons] at hc
    rcases hc with rfl | rfl | hc
    · decide
    · decide
    · simp only [Bool.or_eq_true, Bool.and_eq_true, List.all_eq_true, List.mem_cons] at h
      rcases h with ⟨-, h⟩ | ⟨-, h⟩
      · exact isNameChar_of_isHexDigit (h c hc)
      · exact isNameChar_of_isHexDigit (by simp [isHexDigit, h c (.inr (.inr hc))])
  · intro c hc
    simp only [Bool.false_or, Bool.and_eq_true, List.all_eq_true] at h
    exact isNameChar_of_isHexDigit (by simp [isHexDigit, h.2 c hc])

theorem Word.all_isNameChar_of_isName {word : List Char} (h : isName word) : word.all isNameChar := by
  simp only [isName, Bool.and_eq_true] at h
  exact h.1.2

/-- A comma and a blank stand in front of every text of a list but the first. -/
theorem toList_intercalate_comma (text : String) (texts : List String) :
    (", ".intercalate (text :: texts)).toList =
      text.toList ++ texts.flatMap fun t => ',' :: ' ' :: t.toList := by
  induction texts generalizing text with
  | nil => simp
  | cons next rest ih =>
    rw [String.intercalate_cons_cons, String.toList_append, ih]
    simp

open Lexer

section

variable {cs : List Char} {tokens : List Token}

/-- A name is read as its token if the word ends there. -/
theorem reads_name {name : String} (hname : Word.isName name.toList) (h : Reads cs tokens)
    (hend : EndsWord cs) : Reads (name.toList ++ cs) (.identifier name :: tokens) := by
  have hword := Token.ofWord?_name hname
  rw [String.ofList_toList] at hword
  exact h.word hend (Word.all_isNameChar_of_isName hname) hword

theorem reads_keyword (k : Keyword) (h : Reads cs tokens) (hend : EndsWord cs) :
    Reads (k.text.toList ++ cs) (.keyword k :: tokens) :=
  h.word hend (by cases k <;> decide) (Token.ofWord?_keyword k)

/-- A printed list of names is read as names with commas between them. -/
theorem Identifier.reads_list : ∀ {names : List Identifier}, names.all (·.isWellFormed) →
    Reads cs tokens → EndsWord cs →
    Reads ((Identifier.listText names).toList ++ cs) (Identifier.listTokens names ++ tokens)
  | [], _, h, _ => by simpa [listText, listTokens] using h
  | [name], hwf, h, hend => by
    simp only [List.all_cons, List.all_nil, Bool.and_true] at hwf
    simpa [listText, listTokens] using reads_name hwf h hend
  | name :: next :: rest, hwf, h, hend => by
    rw [List.all_cons, Bool.and_eq_true] at hwf
    have hrest := (Identifier.reads_list hwf.2 h hend).space
    have hname := reads_name hwf.1 hrest.comma (endsWord_cons (by decide) _)
    simpa [listText, listTokens] using hname

/-- A well-formed literal is read as its token if the word ends there; a string is escaped and read back. -/
theorem Literal.reads {value : Literal} (hwf : value.isWellFormed) (h : Reads cs tokens)
    (hend : EndsWord cs) : Reads (value.text.toList ++ cs) (value.token :: tokens) := by
  obtain ⟨span, kind, text⟩ := value
  cases kind with
  | number =>
    have hword := Token.ofWord?_number hwf
    rw [String.ofList_toList] at hword
    exact h.word hend (Word.all_isNameChar_of_isNumber hwf) hword
  | boolean =>
    have hword := Token.ofWord?_boolean hwf
    rw [String.ofList_toList] at hword
    have hchars : text.toList.all Word.isNameChar := by
      simp only [isWellFormed, Word.isBoolean, Bool.or_eq_true, beq_iff_eq] at hwf
      rcases hwf with heq | heq <;> rw [heq] <;> decide
    exact h.word hend hchars hword
  | string =>
    have hstring := h.string text.toList
    rw [String.ofList_toList] at hstring
    simpa [Literal.text, token] using hstring

theorem endsWord_more (texts : List String) (hend : EndsWord cs) :
    EndsWord ((texts.flatMap fun t => ',' :: ' ' :: t.toList) ++ cs) := by
  cases texts with
  | nil => exact hend
  | cons text rest => exact endsWord_cons (by decide) _

end

mutual

/-- The text of an expression is made of its tokens, if what follows it does not go on with a word. -/
theorem Expr.reads {cs : List Char} {tokens : List Token} : ∀ {e : Expr}, e.isWellFormed →
    Reads cs tokens → EndsWord cs → Reads (e.text.toList ++ cs) (e.tokens ++ tokens)
  | .call _ callee [], hwf, h, _ => by
    rw [Expr.isWellFormed, Bool.and_eq_true] at hwf
    have hname := reads_name hwf.1 h.closeParen.openParen (endsWord_cons (by decide) _)
    simpa [Expr.text, Expr.texts, Expr.tokens, Expr.listTokens] using hname
  | .call _ callee (first :: rest), hwf, h, _ => by
    rw [Expr.isWellFormed, Expr.allWellFormed, Bool.and_eq_true, Bool.and_eq_true] at hwf
    obtain ⟨hcallee, hfirst, hrest⟩ := hwf
    have hclose : EndsWord (')' :: cs) := endsWord_cons (by decide) cs
    have hmore := Expr.reads_more hrest h.closeParen hclose
    have harguments := Expr.reads hfirst hmore (endsWord_more (Expr.texts rest) hclose)
    have hname := reads_name hcallee harguments.openParen (endsWord_cons (by decide) _)
    simpa [Expr.text, Expr.texts, Expr.tokens, Expr.listTokens, toList_intercalate_comma,
      -String.toList_intercalate] using hname
  | .identifier name, hwf, h, hend => by
    exact reads_name hwf h hend
  | .literal value, hwf, h, hend => by
    exact Literal.reads hwf h hend

/-- Arguments behind the first are read with a comma in front of each. -/
theorem Expr.reads_more {cs : List Char} {tokens : List Token} : ∀ {es : List Expr},
    Expr.allWellFormed es → Reads cs tokens → EndsWord cs →
    Reads (((Expr.texts es).flatMap fun t => ',' :: ' ' :: t.toList) ++ cs) (Expr.moreTokens es ++ tokens)
  | [], _, h, _ => by simpa [Expr.texts, Expr.moreTokens] using h
  | e :: rest, hwf, h, hend => by
    rw [Expr.allWellFormed, Bool.and_eq_true] at hwf
    have hmore := Expr.reads_more hwf.2 h hend
    have hfirst := Expr.reads hwf.1 hmore (endsWord_more (Expr.texts rest) hend)
    simpa [Expr.texts, Expr.moreTokens] using hfirst.space.comma

end

end YulBackend
