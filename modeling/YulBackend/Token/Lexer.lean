import YulBackend.Token

namespace YulBackend.Lexer

def isBlank (c : Char) : Bool := c == ' ' || c == '\t' || c == '\r' || c == '\n'

def isLineEnd (c : Char) : Bool := c == '\n' || c == '\r'

/-- The text up to and with the first `*/`, and the rest. -/
def blockComment? : List Char → Option (List Char × List Char)
  | '*' :: '/' :: rest => some (['*', '/'], rest)
  | c :: rest => (blockComment? rest).map fun (text, rest) => (c :: text, rest)
  | [] => none

/-- The text up to and with the closing quote, less that quote, and the rest. A backslash takes the
next character with it, and no line ends inside a string. -/
def stringBody? : List Char → Option (List Char × List Char)
  | '"' :: rest => some ([], rest)
  | '\\' :: c :: rest => (stringBody? rest).map fun (raw, rest) => ('\\' :: c :: raw, rest)
  | c :: rest =>
    if c = '\\' || isLineEnd c then none
    else (stringBody? rest).map fun (raw, rest) => (c :: raw, rest)
  | [] => none

/-- `blockComment?` cuts the text in two. -/
theorem blockComment?_eq_some {cs text rest : List Char} (h : blockComment? cs = some (text, rest)) :
    cs = text ++ rest := by
  fun_induction blockComment? cs generalizing text with
  | case1 =>
    simp only [Option.some.injEq, Prod.mk.injEq] at h
    obtain ⟨rfl, rfl⟩ := h
    rfl
  | case2 c r _ ih =>
    obtain ⟨⟨t, r'⟩, hr, heq⟩ := Option.map_eq_some_iff.1 h
    simp only [Prod.mk.injEq] at heq
    obtain ⟨rfl, rfl⟩ := heq
    simp [ih hr]
  | case3 => simp at h

/-- `stringBody?` cuts the text in two and drops the quote between. -/
theorem stringBody?_eq_some {cs raw rest : List Char} (h : stringBody? cs = some (raw, rest)) :
    cs = raw ++ '"' :: rest := by
  fun_induction stringBody? cs generalizing raw with
  | case1 => simp_all
  | case2 c r ih =>
    obtain ⟨⟨t, r'⟩, hr, heq⟩ := Option.map_eq_some_iff.1 h
    simp only [Prod.mk.injEq] at heq
    obtain ⟨rfl, rfl⟩ := heq
    simp [ih hr]
  | case3 => simp at h
  | case4 c r _ _ _ ih =>
    obtain ⟨⟨t, r'⟩, hr, heq⟩ := Option.map_eq_some_iff.1 h
    simp only [Prod.mk.injEq] at heq
    obtain ⟨rfl, rfl⟩ := heq
    simp [ih hr]
  | case5 => simp at h

/-- Splits off the longest run of blanks and comments. A block comment that is never closed is none. -/
def splitGap (cs : List Char) : List Char × List Char :=
  match cs with
  | '/' :: '/' :: rest =>
    let (gap, rest') := splitGap (rest.dropWhile (!isLineEnd ·))
    ('/' :: '/' :: (rest.takeWhile (!isLineEnd ·) ++ gap), rest')
  | '/' :: '*' :: rest =>
    match _h : blockComment? rest with
    | some (text, rest') =>
      let (gap, rest'') := splitGap rest'
      ('/' :: '*' :: (text ++ gap), rest'')
    | none => ([], cs)
  | c :: rest =>
    if isBlank c then
      let (gap, rest') := splitGap rest
      (c :: gap, rest')
    else ([], cs)
  | [] => ([], [])
termination_by cs.length
decreasing_by
  · have := (List.dropWhile_sublist (fun c => !isLineEnd c) (l := rest)).length_le
    simp only [List.length_cons]; omega
  · have := congrArg List.length (blockComment?_eq_some _h)
    simp only [List.length_append] at this
    simp only [List.length_cons]; omega
  · simp

/-- `splitGap` cuts the text in two, whatever it starts with. -/
theorem split_gap (cs : List Char) : (splitGap cs).1 ++ (splitGap cs).2 = cs := by
  fun_induction splitGap cs with
  | case1 rest gap rest' h ih =>
    simp_all
  | case2 rest text rest' h gap rest'' hs ih =>
    have := blockComment?_eq_some h
    simp_all
  | case3 => simp
  | case4 c rest _ _ _ gap rest' hs ih => simp_all
  | case5 => simp
  | case6 => simp

/-- The token that a text opens with, the characters it takes, and the rest. -/
def next? : List Char → Option (Token × List Char × List Char)
  | '{' :: rest => some (.openBrace, ['{'], rest)
  | '}' :: rest => some (.closeBrace, ['}'], rest)
  | '(' :: rest => some (.openParen, ['('], rest)
  | ')' :: rest => some (.closeParen, [')'], rest)
  | ',' :: rest => some (.comma, [','], rest)
  | ':' :: '=' :: rest => some (.assign, [':', '='], rest)
  | '-' :: '>' :: rest => some (.arrow, ['-', '>'], rest)
  | '"' :: rest =>
    (stringBody? rest).map fun (raw, rest) => (.ofStringBody raw, '"' :: (raw ++ ['"']), rest)
  | cs =>
    let word := cs.takeWhile Word.isNameChar
    (Token.ofWord? word).map (·, word, cs.dropWhile Word.isNameChar)

/-- `next?` takes its token off the front of the text, quotes of a string literal included. -/
theorem next?_eq_some {cs text rest : List Char} {token : Token}
    (h : next? cs = some (token, text, rest)) : cs = text ++ rest := by
  unfold next? at h
  split at h
  case h_8 =>
    obtain ⟨⟨raw, r⟩, hr, heq⟩ := Option.map_eq_some_iff.1 h
    simp only [Prod.mk.injEq] at heq
    obtain ⟨-, rfl, rfl⟩ := heq
    simp [stringBody?_eq_some hr]
  case h_9 =>
    obtain ⟨t, -, heq⟩ := Option.map_eq_some_iff.1 h
    simp only [Prod.mk.injEq] at heq
    obtain ⟨-, rfl, rfl⟩ := heq
    exact List.takeWhile_append_dropWhile.symm
  all_goals
    simp only [Option.some.injEq, Prod.mk.injEq] at h
    obtain ⟨-, rfl, rfl⟩ := h
    simp

theorem ofWord?_nil : Token.ofWord? [] = none := by decide

/-- Every token that `next?` finds takes at least one character, which is why `lexemes?` comes to an end. -/
theorem length_lt_of_next? {cs text rest : List Char} {token : Token}
    (h : next? cs = some (token, text, rest)) : rest.length < cs.length := by
  have hcs := next?_eq_some h
  have htext : text ≠ [] := by
    rintro rfl
    subst hcs
    unfold next? at h
    split at h
    case h_9 =>
      obtain ⟨t, hword, heq⟩ := Option.map_eq_some_iff.1 h
      simp only [Prod.mk.injEq] at heq
      rw [heq.2.1, ofWord?_nil] at hword
      simp at hword
    all_goals simp_all
  have := congrArg List.length hcs
  have := List.length_pos_iff.2 htext
  simp only [List.length_append] at *
  omega

/-- Bytes that a text takes in UTF-8. -/
def byteCount : List Char → Nat
  | [] => 0
  | c :: cs => c.utf8Size + byteCount cs

/-- The tokens of a text that starts at byte `offset`, if every piece of it is one. Between tokens stand blanks, line
comments and closed block comments. The pieces that are cut off make up the text again, in order: `split_gap` and
`next?_eq_some`. -/
def lexemes? (offset : Nat) (cs : List Char) : Option (List Lexeme) :=
  if (splitGap cs).2 = [] then some []
  else
    match _h : next? (splitGap cs).2 with
    | none => none
    | some (token, text, rest) => do
      let start := offset + byteCount (splitGap cs).1
      let stop := start + byteCount text
      return ⟨token, ⟨start, stop⟩⟩ :: (← lexemes? stop rest)
termination_by cs.length
decreasing_by
  have h₁ := length_lt_of_next? _h
  have h₂ := congrArg List.length (split_gap cs)
  simp only [List.length_append] at h₂
  omega

end YulBackend.Lexer
