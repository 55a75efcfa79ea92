import Mathlib.Data.List.TakeWhile
import YulBackend.Proofs.Printer.Tokens
import YulBackend.Proofs.Text.Validity
import YulBackend.Proofs.Token.Classes

namespace YulBackend

open Grammar (Terminal)

/-- The text of a symbol. -/
def Grammar.Terminal.symbol? : Terminal → Option (List Char)
  | openBrace => some ['{']
  | closeBrace => some ['}']
  | openParen => some ['(']
  | closeParen => some [')']
  | comma => some [',']
  | assign => some [':', '=']
  | arrow => some ['-', '>']
  | _ => none

/-- The words of a class. -/
inductive IsWord : Terminal → List Char → Prop
  | keyword (k : Keyword) : IsWord (.keyword k) k.text.toList
  | isTrue : IsWord .boolLiteral "true".toList
  | isFalse : IsWord .boolLiteral "false".toList
  | hexNumber {digits : List Char} :
    digits ≠ [] → (∀ c ∈ digits, Word.isHexDigit c) → IsWord .hexNumber ('0' :: 'x' :: digits)
  | decimalNumber {digits : List Char} :
    digits ≠ [] → (∀ c ∈ digits, c.isDigit) → IsWord .decimalNumber digits
  | identifier {c : Char} {rest : List Char} : Word.isNameStart c → (∀ d ∈ rest, Word.isNameChar d) →
    (∀ k : Keyword, k.text.toList ≠ c :: rest) → c :: rest ≠ "true".toList → c :: rest ≠ "false".toList →
    IsWord .identifier (c :: rest)

/-- What may stand between the quotes of a string literal: a backslash takes any character with it, and apart
from that there is no quote and no line end. -/
inductive IsStringBody : List Char → Prop
  | nil : IsStringBody []
  | escape {raw : List Char} (c : Char) : IsStringBody raw → IsStringBody ('\\' :: c :: raw)
  | plain {c : Char} {raw : List Char} : Lexer.isPlain c → IsStringBody raw → IsStringBody (c :: raw)

/-- A token as it stands in a text: its class and its characters, without the quotes of a string literal. -/
structure SpeltToken where
  terminal : Terminal
  text : List Char
deriving DecidableEq, Repr

/-- The characters of a part in the text. -/
def SpeltToken.source (part : SpeltToken) : List Char :=
  if part.terminal = .stringLiteral then '"' :: (part.text ++ ['"']) else part.text

/-- The parts that may stand in front of a text: a word only if no name character follows it. -/
inductive Cuts (rest : List Char) : SpeltToken → Prop
  | symbol {t : Terminal} {text : List Char} : t.symbol? = some text → Cuts rest ⟨t, text⟩
  | word {t : Terminal} {text : List Char} : IsWord t text → Lexer.EndsWord rest → Cuts rest ⟨t, text⟩
  | string {raw : List Char} : IsStringBody raw → Cuts rest ⟨.stringLiteral, raw⟩

/-- The parts that a text is made of. Between them stand blanks, line comments, which the end of the line or of
the text ends, and block comments, which the first `*/` ends. -/
inductive Splits : List Char → List SpeltToken → Prop
  | nil : Splits [] []
  | blank {c : Char} {cs : List Char} {parts : List SpeltToken} :
    Lexer.isBlank c → Splits cs parts → Splits (c :: cs) parts
  | lineComment {text cs : List Char} {parts : List SpeltToken} : (∀ c ∈ text, ¬ Lexer.isLineEnd c) →
    (∀ c ∈ cs.head?, Lexer.isLineEnd c) → Splits cs parts → Splits ('/' :: '/' :: (text ++ cs)) parts
  | blockComment {text cs : List Char} {parts : List SpeltToken} : ¬ ['*', '/'] <:+: text →
    Splits cs parts → Splits ('/' :: '*' :: (text ++ '*' :: '/' :: cs)) parts
  | cons {part : SpeltToken} {cs : List Char} {parts : List SpeltToken} :
    Cuts cs part → Splits cs parts → Splits (part.source ++ cs) (part :: parts)

/-- The token that a part stands for. -/
def SpeltToken.token (part : SpeltToken) : Token :=
  match part.terminal with
  | .stringLiteral => .ofStringBody part.text
  | .boolLiteral => .literal .boolean (String.ofList part.text)
  | .hexNumber | .decimalNumber => .literal .number (String.ofList part.text)
  | .identifier => .identifier (String.ofList part.text)
  | .openBrace => .openBrace
  | .closeBrace => .closeBrace
  | .openParen => .openParen
  | .closeParen => .closeParen
  | .comma => .comma
  | .assign => .assign
  | .arrow => .arrow
  | .keyword k => .keyword k

/-- A word is not reserved if it is neither a keyword nor one of the two truth values. -/
theorem Word.isReserved_eq_false_iff {word : List Char} : isReserved word = false ↔
    (∀ k : Keyword, k.text.toList ≠ word) ∧ word ≠ "true".toList ∧ word ≠ "false".toList := by
  rw [isReserved, isBoolean, Bool.or_eq_false_iff, Bool.or_eq_false_iff, beq_eq_false_iff_ne, beq_eq_false_iff_ne]
  refine and_congr_left fun _ => ?_
  rw [Option.isSome_eq_false_iff, Option.isNone_iff_eq_none]
  constructor
  · rintro h k rfl
    rw [String.ofList_toList, Keyword.ofText?_text] at h
    cases h
  · intro h
    cases hk : Keyword.ofText? (String.ofList word) with
    | none => rfl
    | some k =>
      refine absurd ?_ (h k)
      rw [Token.ofText?_eq_some hk, String.toList_ofList]

theorem Word.isName_iff {word : List Char} : isName word ↔ word.head?.any isNameStart ∧
    (∀ c ∈ word, isNameChar c) ∧ isReserved word = false := by
  rw [isName, Bool.and_eq_true, Bool.and_eq_true, Bool.not_eq_true', List.all_eq_true, and_assoc]

theorem Word.isNameChar_of_isNameStart {c : Char} (h : isNameStart c) : isNameChar c := by
  simp only [isNameStart, isNameChar, Bool.or_eq_true, isAlphanum_iff] at h ⊢
  rcases h with (h | h) | h
  · exact .inl (.inl (.inl (.inl h)))
  · exact .inl (.inl (.inr h))
  · exact .inl (.inr h)

/-- A word of a class is read by `ofWord?` as the token of that class. -/
theorem IsWord.ofWord? {t : Terminal} {text : List Char} (h : IsWord t text) :
    Token.ofWord? text = some (SpeltToken.token ⟨t, text⟩) := by
  cases h with
  | keyword k => exact Token.ofWord?_keyword k
  | isTrue => exact Token.ofWord?_boolean (by decide)
  | isFalse => exact Token.ofWord?_boolean (by decide)
  | hexNumber hne hdigits => exact Token.ofWord?_number (Word.isNumber_hexadecimal hne hdigits)
  | decimalNumber hne hdigits => exact Token.ofWord?_number (Word.isNumber_decimal hne hdigits)
  | identifier hstart hchars hkeyword htrue hfalse =>
    refine Token.ofWord?_name (Word.isName_iff.2 ⟨by simpa using hstart, ?_, ?_⟩)
    · rw [List.forall_mem_cons]
      exact ⟨Word.isNameChar_of_isNameStart hstart, hchars⟩
    · exact Word.isReserved_eq_false_iff.2 ⟨hkeyword, htrue, hfalse⟩

/-- Whatever `ofWord?` makes a token of is a word of some class. -/
theorem exists_isWord {text : List Char} {token : Token} (h : Token.ofWord? text = some token) :
    ∃ t, IsWord t text ∧ SpeltToken.token ⟨t, text⟩ = token := by
  unfold Token.ofWord? at h
  dsimp only at h
  split at h
  next k hk =>
    cases h
    have htext : k.text.toList = text := by rw [Token.ofText?_eq_some hk, String.toList_ofList]
    exact ⟨.keyword k, htext ▸ .keyword k, rfl⟩
  split at h
  next hboolean =>
    cases h
    simp only [Word.isBoolean, Bool.or_eq_true, beq_iff_eq] at hboolean
    rcases hboolean with rfl | rfl
    · exact ⟨.boolLiteral, .isTrue, rfl⟩
    · exact ⟨.boolLiteral, .isFalse, rfl⟩
  split at h
  next hnumber =>
    cases h
    rw [Word.isNumber, Bool.or_eq_true] at hnumber
    rcases hnumber with hhex | hdecimal
    · unfold Word.isHexadecimal at hhex
      split at hhex
      next digits =>
        rw [Bool.and_eq_true, List.all_eq_true] at hhex
        exact ⟨.hexNumber, .hexNumber (by simpa using hhex.1) hhex.2, rfl⟩
      next => cases hhex
    · rw [Word.isDecimal, Bool.and_eq_true, List.all_eq_true] at hdecimal
      exact ⟨.decimalNumber, .decimalNumber (by simpa using hdecimal.1) hdecimal.2, rfl⟩
  split at h
  next hname =>
    cases h
    obtain ⟨hstart, hchars, hreserved⟩ := Word.isName_iff.1 hname
    obtain ⟨hkeyword, htrue, hfalse⟩ := Word.isReserved_eq_false_iff.1 hreserved
    cases text with
    | nil => cases hstart
    | cons c rest =>
      rw [List.forall_mem_cons] at hchars
      exact ⟨.identifier, .identifier hstart hchars.2 hkeyword htrue hfalse, rfl⟩
  · cases h

/-- Words of all classes consist of name characters, so that each is one maximal run of them. -/
theorem IsWord.all_isNameChar {t : Terminal} {text : List Char} (h : IsWord t text) :
    text.all Word.isNameChar := by
  cases h with
  | keyword k => cases k <;> decide
  | isTrue => decide
  | isFalse => decide
  | hexNumber hne hdigits => exact Word.all_isNameChar_of_isNumber (Word.isNumber_hexadecimal hne hdigits)
  | decimalNumber hne hdigits => exact Word.all_isNameChar_of_isNumber (Word.isNumber_decimal hne hdigits)
  | identifier hstart hchars _ _ _ =>
    rw [List.all_eq_true, List.forall_mem_cons]
    exact ⟨Word.isNameChar_of_isNameStart hstart, hchars⟩

theorem IsWord.source {t : Terminal} {text : List Char} (h : IsWord t text) :
    SpeltToken.source ⟨t, text⟩ = text := by
  cases h <;> rfl

namespace Lexer

/-- A body with a quote behind it is cut off right there, whatever follows. -/
theorem stringBody?_of_isStringBody {raw : List Char} (h : IsStringBody raw) (rest : List Char) :
    stringBody? (raw ++ '"' :: rest) = some (raw, rest) := by
  induction h with
  | nil => rw [List.nil_append, stringBody?]
  | escape c _ ih => simp [stringBody?, ih]
  | plain hc _ ih =>
    rw [List.cons_append, stringBody?_plain hc, ih]
    rfl

/-- What `stringBody?` cuts off is a body that `IsStringBody` knows. -/
theorem isStringBody_of_stringBody? {cs raw rest : List Char} (h : stringBody? cs = some (raw, rest)) :
    IsStringBody raw := by
  fun_induction stringBody? cs generalizing raw with
  | case1 =>
    cases h
    exact .nil
  | case2 c cs ih =>
    obtain ⟨⟨raw', rest'⟩, hraw, heq⟩ := Option.map_eq_some_iff.1 h
    cases heq
    exact .escape c (ih hraw)
  | case3 => cases h
  | case4 c cs hquote _ hplain ih =>
    obtain ⟨⟨raw', rest'⟩, hraw, heq⟩ := Option.map_eq_some_iff.1 h
    cases heq
    refine .plain ?_ (ih hraw)
    simpa [isPlain, and_assoc] using And.intro hquote hplain
  | case5 => cases h

/-- A block comment ends at the first `*/`. -/
theorem blockComment?_of_not_infix {text : List Char} (h : ¬ ['*', '/'] <:+: text) (rest : List Char) :
    blockComment? (text ++ '*' :: '/' :: rest) = some (text ++ ['*', '/'], rest) := by
  induction text with
  | nil => rw [List.nil_append, blockComment?, List.nil_append]
  | cons c text ih =>
    have htext : ¬ ['*', '/'] <:+: text := fun hinfix => h (List.infix_cons hinfix)
    rw [List.cons_append, blockComment?, ih htext]
    · rfl
    · rintro tail rfl heq
      cases text with
      | nil => cases heq
      | cons d text =>
        cases heq
        exact h ⟨[], text, rfl⟩

/-- What `blockComment?` cuts off holds `*/` at its end and nowhere before. -/
theorem exists_of_blockComment? {cs text rest : List Char} (h : blockComment? cs = some (text, rest)) :
    ∃ body, ¬ ['*', '/'] <:+: body ∧ text = body ++ ['*', '/'] := by
  fun_induction blockComment? cs generalizing text with
  | case1 =>
    cases h
    exact ⟨[], by simp, rfl⟩
  | case2 c cs hne ih =>
    obtain ⟨⟨text', rest'⟩, htext, heq⟩ := Option.map_eq_some_iff.1 h
    cases heq
    obtain ⟨body, hbody, rfl⟩ := ih htext
    refine ⟨c :: body, ?_, rfl⟩
    rw [List.infix_cons_iff]
    rintro (⟨tail, htail⟩ | hinfix)
    · obtain ⟨rfl, rfl⟩ := List.cons.inj htail
      exact hne (tail ++ ['*', '/'] ++ rest) rfl (blockComment?_eq_some htext)
    · exact hbody hinfix
  | case3 => cases h

theorem head?_dropWhile {p : Char → Bool} {cs : List Char} {c : Char} (h : c ∈ (cs.dropWhile p).head?) :
    p c = false := by
  rw [← List.find?_not_eq_head?_dropWhile] at h
  simpa using List.find?_some h

/-- A line comment belongs to the gap up to the end of its line, and the gap goes on there. -/
theorem splitGap_lineComment {text cs : List Char} (htext : ∀ c ∈ text, ¬ isLineEnd c)
    (hcs : ∀ c ∈ cs.head?, isLineEnd c) :
    splitGap ('/' :: '/' :: (text ++ cs)) = ('/' :: '/' :: (text ++ (splitGap cs).1), (splitGap cs).2) := by
  have hdrop : (text ++ cs).dropWhile (!isLineEnd ·) = cs := by
    rw [List.dropWhile_append_of_pos (by simpa using htext)]
    cases cs with
    | nil => rfl
    | cons c rest => simp [hcs c rfl]
  have htake : (text ++ cs).takeWhile (!isLineEnd ·) = text := by
    rw [List.takeWhile_append_of_pos (by simpa using htext)]
    cases cs with
    | nil => simp
    | cons c rest => simp [hcs c rfl]
  rw [splitGap, hdrop, htake]

/-- A block comment belongs to the gap up to the first `*/`, and the gap goes on behind it. -/
theorem splitGap_blockComment {text : List Char} (htext : ¬ ['*', '/'] <:+: text) (cs : List Char) :
    splitGap ('/' :: '*' :: (text ++ '*' :: '/' :: cs)) =
      ('/' :: '*' :: (text ++ ['*', '/'] ++ (splitGap cs).1), (splitGap cs).2) := by
  have hcomment := blockComment?_of_not_infix htext cs
  rw [splitGap]
  split
  next text' rest h =>
    rw [hcomment] at h
    cases h
    rfl
  next h =>
    rw [hcomment] at h
    cases h

/-- The bytes of two texts one behind the other add up. -/
theorem byteCount_append (cs ds : List Char) : byteCount (cs ++ ds) = byteCount cs + byteCount ds := by
  induction cs with
  | nil => simp [byteCount]
  | cons c cs ih => rw [List.cons_append, byteCount, byteCount, ih, Nat.add_assoc]

/-- What stands in front of a text and goes with its gap only moves its tokens. -/
theorem lexemes?_gap (gap : List Char) {cs cs' : List Char}
    (h : splitGap cs' = (gap ++ (splitGap cs).1, (splitGap cs).2)) (offset : Nat) :
    lexemes? offset cs' = lexemes? (offset + byteCount gap) cs := by
  rw [lexemes?_eq, lexemes?_eq, h]
  simp only [byteCount_append, Nat.add_assoc]

end Lexer

section

variable {cs rest : List Char} {part : SpeltToken} {parts : List SpeltToken}

open Lexer

/-- The lexer finds a part that may stand in front of the rest: there is no gap in front of it, and `next?` takes
exactly its source. -/
theorem Cuts.next? (h : Cuts rest part) :
    splitGap (part.source ++ rest) = ([], part.source ++ rest) ∧
      next? (part.source ++ rest) = some (part.token, part.source, rest) := by
  cases h with
  | @symbol t text htext =>
    cases t <;> cases htext
    all_goals exact ⟨splitGap_of_ne (by decide) (by decide) _, rfl⟩
  | @word t text hword hend =>
    rw [hword.source]
    exact next?_of_word hend hword.all_isNameChar hword.ofWord?
  | @string raw hraw =>
    have hsource : SpeltToken.source ⟨.stringLiteral, raw⟩ ++ rest = '"' :: (raw ++ '"' :: rest) := by
      simp [SpeltToken.source]
    rw [hsource]
    refine ⟨splitGap_of_ne (by decide) (by decide) _, ?_⟩
    rw [Lexer.next?, stringBody?_of_isStringBody hraw]
    rfl

/-- Whatever `next?` finds is a part that may stand in front of what it leaves. -/
theorem exists_cuts {text : List Char} {token : Token} (h : Lexer.next? cs = some (token, text, rest)) :
    ∃ part, Cuts rest part ∧ part.token = token ∧ part.source = text := by
  unfold Lexer.next? at h
  split at h
  case h_8 =>
    obtain ⟨⟨raw, rest'⟩, hraw, heq⟩ := Option.map_eq_some_iff.1 h
    cases heq
    exact ⟨⟨.stringLiteral, raw⟩, .string (isStringBody_of_stringBody? hraw), rfl, rfl⟩
  case h_9 =>
    obtain ⟨token', htoken, heq⟩ := Option.map_eq_some_iff.1 h
    cases heq
    obtain ⟨t, hword, hpart⟩ := exists_isWord htoken
    refine ⟨⟨t, cs.takeWhile Word.isNameChar⟩, .word hword ?_, hpart, hword.source⟩
    exact fun c hc => head?_dropWhile hc
  case h_1 => cases h; exact ⟨⟨.openBrace, ['{']⟩, .symbol rfl, rfl, rfl⟩
  case h_2 => cases h; exact ⟨⟨.closeBrace, ['}']⟩, .symbol rfl, rfl, rfl⟩
  case h_3 => cases h; exact ⟨⟨.openParen, ['(']⟩, .symbol rfl, rfl, rfl⟩
  case h_4 => cases h; exact ⟨⟨.closeParen, [')']⟩, .symbol rfl, rfl, rfl⟩
  case h_5 => cases h; exact ⟨⟨.comma, [',']⟩, .symbol rfl, rfl, rfl⟩
  case h_6 => cases h; exact ⟨⟨.assign, [':', '=']⟩, .symbol rfl, rfl, rfl⟩
  case h_7 => cases h; exact ⟨⟨.arrow, ['-', '>']⟩, .symbol rfl, rfl, rfl⟩

/-- A split of what is behind the gap is a split of the whole text. -/
theorem Splits.of_splitGap (h : Splits (splitGap cs).2 parts) : Splits cs parts := by
  fun_induction splitGap cs with
  | case1 rest gap rest' hgap ih =>
    rw [hgap] at ih
    rw [← List.takeWhile_append_dropWhile (p := (!isLineEnd ·)) (l := rest)]
    refine .lineComment ?_ ?_ (ih h)
    · intro c hc
      simpa using List.mem_takeWhile_imp hc
    · intro c hc
      simpa using head?_dropWhile hc
  | case2 rest text rest' hcomment gap rest'' hgap ih =>
    rw [hgap] at ih
    obtain ⟨body, hbody, rfl⟩ := exists_of_blockComment? hcomment
    rw [blockComment?_eq_some hcomment, List.append_assoc]
    exact .blockComment hbody (ih h)
  | case3 => exact h
  | case4 c rest _ _ hblank gap rest' hgap ih =>
    rw [hgap] at ih
    exact .blank hblank (ih h)
  | case5 => exact h
  | case6 => exact h

/-- A split passes the gap in front of a text. -/
theorem Splits.splitGap (h : Splits cs parts) : Splits (splitGap cs).2 parts := by
  induction h with
  | nil =>
    rw [Lexer.splitGap]
    exact .nil
  | blank hblank _ ih => rwa [splitGap_blank hblank]
  | lineComment htext hcs _ ih => rwa [splitGap_lineComment htext hcs]
  | blockComment htext _ ih => rwa [splitGap_blockComment htext]
  | cons hcut hrest _ =>
    rw [hcut.next?.1]
    exact .cons hcut hrest

/-- The lexer goes through a text if and only if the text splits, and its tokens are the ones of the split. -/
theorem exists_lexemes_iff (offset : Nat) {tokens : List Token} :
    (∃ lexemes, lexemes? offset cs = some lexemes ∧ lexemes.map (·.token) = tokens) ↔
      ∃ parts, Splits cs parts ∧ parts.map SpeltToken.token = tokens := by
  constructor
  · rintro ⟨lexemes, hlexemes, rfl⟩
    induction lexemes generalizing offset cs with
    | nil =>
      have hrest : (splitGap cs).2 = [] := by
        rw [lexemes?_eq] at hlexemes
        split at hlexemes
        · assumption
        · obtain ⟨⟨token, text, rest⟩, -, hlexemes⟩ := Option.bind_eq_some_iff.1 hlexemes
          obtain ⟨_, -, heq⟩ := Option.map_eq_some_iff.1 hlexemes
          cases heq
      exact ⟨[], .of_splitGap (hrest ▸ .nil), rfl⟩
    | cons lexeme lexemes ih =>
      rw [lexemes?_eq] at hlexemes
      split at hlexemes
      · cases hlexemes
      · obtain ⟨⟨token, text, rest⟩, hnext, hlexemes⟩ := Option.bind_eq_some_iff.1 hlexemes
        obtain ⟨lexemes', hrest, heq⟩ := Option.map_eq_some_iff.1 hlexemes
        cases heq
        obtain ⟨part, hcut, rfl, rfl⟩ := exists_cuts hnext
        obtain ⟨parts, hparts, htokens⟩ := ih _ hrest
        refine ⟨part :: parts, .of_splitGap ?_, by rw [List.map_cons, List.map_cons, htokens]⟩
        rw [next?_eq_some hnext]
        exact .cons hcut hparts
  · rintro ⟨parts, hparts, rfl⟩
    induction hparts generalizing offset with
    | nil => exact ⟨[], by rw [lexemes?_eq]; simp [Lexer.splitGap], rfl⟩
    | blank hblank _ ih =>
      rw [lexemes?_blank hblank]
      exact ih _
    | @lineComment text cs _ htext hcs _ ih =>
      rw [lexemes?_gap ('/' :: '/' :: text) (splitGap_lineComment htext hcs)]
      exact ih _
    | @blockComment text cs _ htext _ ih =>
      rw [lexemes?_gap ('/' :: '*' :: (text ++ ['*', '/'])) (splitGap_blockComment htext cs)]
      exact ih _
    | cons hcut hrest ih =>
      obtain ⟨hgap, hnext⟩ := hcut.next?
      obtain ⟨lexemes, hlexemes, htokens⟩ := ih (offset + Lexer.byteCount _)
      refine ⟨_ :: lexemes, by rw [lexemes?_token hgap hnext, hlexemes]; rfl, ?_⟩
      rw [List.map_cons, List.map_cons, htokens]

/-- Every part of a split may stand in front of some text. -/
theorem Splits.exists_cuts (h : Splits cs parts) : ∀ part ∈ parts, ∃ rest, Cuts rest part := by
  induction h with
  | nil => simp
  | blank _ _ ih => exact ih
  | lineComment _ _ _ ih => exact ih
  | blockComment _ _ ih => exact ih
  | cons hcut _ ih =>
    rw [List.forall_mem_cons]
    exact ⟨⟨_, hcut⟩, ih⟩

/-- The token of a word is of the class that the word belongs to. -/
theorem IsWord.terminal_token {t : Terminal} {text : List Char} (h : IsWord t text) :
    (SpeltToken.token ⟨t, text⟩).terminal = t := by
  cases h with
  | keyword _ => rfl
  | isTrue => rfl
  | isFalse => rfl
  | hexNumber hne hdigits =>
    simp [SpeltToken.token, Token.terminal, Word.isHexadecimal_digits hne hdigits]
  | decimalNumber hne hdigits =>
    have hhex : Word.isHexadecimal text = false := by
      unfold Word.isHexadecimal
      split
      · have hx := hdigits 'x' (by simp)
        exact absurd hx (by decide)
      · rfl
    simp [SpeltToken.token, Token.terminal, hhex]
  | identifier _ _ _ _ _ => rfl

theorem Token.terminal_ofStringBody (raw : List Char) : (Token.ofStringBody raw).terminal = .stringLiteral := by
  rw [Token.ofStringBody]
  split <;> rfl

/-- The token of a piece has the class of the piece. -/
theorem Cuts.terminal_token (h : Cuts rest part) : part.token.terminal = part.terminal := by
  cases h with
  | @symbol t text htext => cases t <;> cases htext <;> rfl
  | word hword _ => exact hword.terminal_token
  | string _ => exact Token.terminal_ofStringBody _

/-- A string literal is a proper token if and only if its escapes are valid. -/
theorem Token.isProper_ofStringBody_iff {raw : List Char} :
    (Token.ofStringBody raw).isProper ↔ Escape.Valid raw := by
  rw [← Escape.isOk_decode_iff, Token.ofStringBody]
  cases Escape.decode raw with
  | ok text => exact ⟨fun _ => rfl, fun _ => rfl⟩
  | error _ => exact iff_of_false Bool.false_ne_true Bool.false_ne_true

/-- A piece stands for a token without a fault unless it is a string literal with an invalid escape. -/
theorem Cuts.isProper_iff (h : Cuts rest part) :
    part.token.isProper ↔ (part.terminal = .stringLiteral → Escape.Valid part.text) := by
  cases h with
  | @symbol t text htext => cases t <;> cases htext <;> simp [SpeltToken.token, Token.isProper]
  | @word t text hword _ =>
    have ht : t ≠ .stringLiteral := by
      rintro rfl
      cases hword
    exact ⟨fun _ h => absurd h ht, fun _ => Token.isProper_of_ofWord? hword.ofWord?⟩
  | string _ => exact Token.isProper_ofStringBody_iff.trans ⟨fun h _ => h, fun h => h rfl⟩

/-- A part that is no fault is spelt as the grammar spells it. -/
theorem Cuts.isProper_of_fault? (h : Cuts rest part) (hfault : part.token.fault? = none) :
    part.token.isProper := by
  cases h with
  | @symbol t text htext => cases t <;> cases htext <;> rfl
  | word hword _ => exact Token.isProper_of_ofWord? hword.ofWord?
  | string _ => exact Token.isProper_ofStringBody hfault

/-- The classes of the tokens of a split are the classes of its parts. -/
theorem Splits.map_terminal_token (h : Splits cs parts) :
    (parts.map SpeltToken.token).map Token.terminal = parts.map (·.terminal) := by
  rw [List.map_map]
  refine List.map_congr_left fun part hpart => ?_
  obtain ⟨rest, hcut⟩ := h.exists_cuts part hpart
  exact hcut.terminal_token

/-- A text starts with one part, at most. -/
theorem Cuts.unique {rest' : List Char} {part' : SpeltToken} (h : Cuts rest part) (h' : Cuts rest' part')
    (heq : part.source ++ rest = part'.source ++ rest') : part = part' ∧ rest = rest' := by
  have hnext := h.next?.2
  rw [heq, h'.next?.2] at hnext
  simp only [Option.some.injEq, Prod.mk.injEq] at hnext
  obtain ⟨htoken, hsource, rfl⟩ := hnext
  have hterminal : part.terminal = part'.terminal := by rw [← h.terminal_token, ← htoken, h'.terminal_token]
  refine ⟨?_, rfl⟩
  obtain ⟨t, text⟩ := part
  obtain ⟨t', text'⟩ := part'
  dsimp only at hterminal
  subst hterminal
  by_cases ht : t = .stringLiteral
  · simpa [SpeltToken.source, ht, eq_comm] using hsource
  · simpa [SpeltToken.source, ht, eq_comm] using hsource

/-- A text without a gap in front is empty or starts with a piece. -/
theorem Splits.cases_of_splitGap (h : Splits cs parts) (hgap : (Lexer.splitGap cs).1 = []) :
    (cs = [] ∧ parts = []) ∨ ∃ part rest parts', parts = part :: parts' ∧ cs = part.source ++ rest ∧
      Cuts rest part ∧ Splits rest parts' := by
  cases h with
  | nil => exact .inl ⟨rfl, rfl⟩
  | blank hblank _ =>
    rw [splitGap_blank hblank] at hgap
    cases hgap
  | lineComment htext hcs _ =>
    rw [splitGap_lineComment htext hcs] at hgap
    cases hgap
  | blockComment htext _ =>
    rw [splitGap_blockComment htext] at hgap
    cases hgap
  | cons hcut hrest => exact .inr ⟨_, _, _, rfl, rfl, hcut, hrest⟩

/-- There is at most one way to split a text. -/
theorem Splits.unique {parts' : List SpeltToken} (h : Splits cs parts) (h' : Splits cs parts') :
    parts = parts' := by
  induction h generalizing parts' with
  | nil =>
    obtain ⟨-, rfl⟩ | ⟨part, rest, -, -, heq, hcut, -⟩ := h'.cases_of_splitGap (by rw [Lexer.splitGap])
    · rfl
    · have hlength := length_lt_of_next? hcut.next?.2
      rw [← heq] at hlength
      cases hlength
  | blank hblank _ ih =>
    refine ih (.of_splitGap ?_)
    have hrest := h'.splitGap
    rwa [splitGap_blank hblank] at hrest
  | lineComment htext hcs _ ih =>
    refine ih (.of_splitGap ?_)
    have hrest := h'.splitGap
    rwa [splitGap_lineComment htext hcs] at hrest
  | blockComment htext _ ih =>
    refine ih (.of_splitGap ?_)
    have hrest := h'.splitGap
    rwa [splitGap_blockComment htext] at hrest
  | cons hcut _ ih =>
    obtain ⟨hnil, -⟩ | ⟨part', rest', parts'', rfl, heq, hcut', hrest'⟩ :=
      h'.cases_of_splitGap (by rw [hcut.next?.1])
    · have hlength := length_lt_of_next? hcut.next?.2
      rw [hnil] at hlength
      cases hlength
    · obtain ⟨rfl, rfl⟩ := hcut.unique hcut' heq
      rw [ih hrest']

end

end YulBackend
