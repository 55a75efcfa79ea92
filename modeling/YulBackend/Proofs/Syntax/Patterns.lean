import YulBackend.Proofs.Token.Splits

namespace YulBackend.Grammar

open Lexer (EndsWord blockComment? isBlank isLineEnd isPlain splitGap stringBody?)

/-- What is matched character by character, with no gaps skipped: a text, one character of a class, and what is put
together from such. An absent pattern takes nothing, and matches where the pattern does not. -/
inductive Pattern
  | text (cs : List Char)
  | one (p : Char → Bool)
  | sequence (first second : Pattern)
  | choice (first second : Pattern)
  | many (body : Pattern)
  | absent (body : Pattern)

namespace Pattern

instance : Append Pattern := ⟨sequence⟩

instance : OrElse Pattern := ⟨fun first second => choice first (second ())⟩

/-- All that `cut?` takes, time after time. A match that takes nothing would repeat forever, so it ends there. -/
def repeatedly (cut? : List Char → Option (List Char × List Char)) (cs : List Char) : List Char × List Char :=
  match cut? cs with
  | some (taken, rest) =>
    if rest.length < cs.length then (taken ++ (repeatedly cut? rest).1, (repeatedly cut? rest).2) else ([], cs)
  | none => ([], cs)
termination_by cs.length

/-- What a pattern takes off the front of a text, and the rest, if it matches. The first alternative that matches is
taken for good, and a repetition takes all that it can. -/
def cut? : Pattern → List Char → Option (List Char × List Char)
  | text t, cs => if t.isPrefixOf cs then some (t, cs.drop t.length) else none
  | one p, c :: cs => if p c then some ([c], cs) else none
  | one _, [] => none
  | sequence first second, cs =>
    (first.cut? cs).bind fun (xs, rest) => (second.cut? rest).map fun (ys, rest') => (xs ++ ys, rest')
  | choice first second, cs => (first.cut? cs).or (second.cut? cs)
  | many body, cs => some (repeatedly body.cut? cs)
  | absent body, cs => if (body.cut? cs).isNone then some ([], cs) else none

/-- Any character. -/
def any : Pattern := one fun _ => true

/-- The first of these texts that fits. -/
def oneOf : List (List Char) → Pattern
  | [] => one fun _ => false
  | t :: ts => text t <|> oneOf ts

def oneOrMore (body : Pattern) : Pattern := body ++ many body

def newline : Pattern := text ['\n'] <|> text ['\r', '\n'] <|> text ['\r']

def whitespace : Pattern := text [' '] <|> text ['\t'] <|> text ['\r'] <|> text ['\n']

def comment : Pattern :=
  text ['/', '/'] ++ many (absent newline ++ any) <|>
    text ['/', '*'] ++ many (absent (text ['*', '/']) ++ any) ++ text ['*', '/']

/-- What is skipped between the parts of a construct. -/
def gap : Pattern := many whitespace ++ many (comment ++ many whitespace)

def nameChar : Pattern := one Char.isAlphanum <|> text ['_'] <|> text ['$'] <|> text ['.']

def nameStart : Pattern := one Char.isAlpha <|> text ['_'] <|> text ['$']

/-- No word goes on here. -/
def wordEnd : Pattern := absent nameChar

/-- The texts that are no names, in the order in which they are tried. -/
def reservedTexts : List (List Char) :=
  ["function".toList, "let".toList, "if".toList, "switch".toList, "case".toList, "default".toList, "for".toList,
    "break".toList, "continue".toList, "leave".toList, "true".toList, "false".toList]

def reserved : Pattern := oneOf reservedTexts ++ wordEnd

/-- An escape of any character, or a character that needs none. -/
def stringChar : Pattern := text ['\\'] ++ any <|> absent (text ['"'] <|> text ['\\'] <|> newline) ++ any

/-- What stands between the quotes of a string literal. -/
def stringInner : Pattern := many stringChar

end Pattern

open Pattern in
/-- How the tokens of a class are spelt. -/
def Terminal.pattern : Terminal → Pattern
  | openBrace => text ['{']
  | closeBrace => text ['}']
  | openParen => text ['(']
  | closeParen => text [')']
  | comma => text [',']
  | assign => text [':', '=']
  | arrow => text ['-', '>']
  | keyword word => text word.text.toList ++ wordEnd
  | identifier => absent reserved ++ nameStart ++ many nameChar
  | hexNumber => text ['0', 'x'] ++ oneOrMore (one Word.isHexDigit) ++ wordEnd
  | decimalNumber => oneOrMore (one Char.isDigit) ++ wordEnd
  | stringLiteral => text ['"'] ++ stringInner ++ text ['"']
  | boolLiteral => (text "true".toList <|> text "false".toList) ++ wordEnd

namespace Pattern

variable {first second body : Pattern} {p q : Char → Bool} {t cs taken rest : List Char}

theorem repeatedly_some {f : List Char → Option (List Char × List Char)} (h : f cs = some (taken, rest))
    (hlength : rest.length < cs.length) :
    repeatedly f cs = (taken ++ (repeatedly f rest).1, (repeatedly f rest).2) := by
  rw [repeatedly, h]
  exact if_pos hlength

theorem repeatedly_none {f : List Char → Option (List Char × List Char)} (h : f cs = none) :
    repeatedly f cs = ([], cs) := by
  rw [repeatedly, h]

theorem cut?_append (cs : List Char) : (first ++ second).cut? cs =
    (first.cut? cs).bind fun (xs, rest) => (second.cut? rest).map fun (ys, rest') => (xs ++ ys, rest') := rfl

theorem cut?_orElse (cs : List Char) : (first <|> second).cut? cs = (first.cut? cs).or (second.cut? cs) := rfl

/-- How a sequence of three patterns is grouped does not matter. -/
theorem cut?_append_assoc {third : Pattern} (cs : List Char) :
    (first ++ second ++ third).cut? cs = (first ++ (second ++ third)).cut? cs := by
  simp only [cut?_append]
  cases first.cut? cs with
  | none => rfl
  | some found =>
    simp only [Option.bind_some]
    cases second.cut? found.2 with
    | none => rfl
    | some found' => simp [Function.comp_def]

/-- A sequence takes what its first pattern takes, and then what its second one takes off the rest. -/
theorem cut?_append_eq_some : (first ++ second).cut? cs = some (taken, rest) ↔
    ∃ xs ys left, first.cut? cs = some (xs, left) ∧ second.cut? left = some (ys, rest) ∧ taken = xs ++ ys := by
  rw [cut?_append]
  simp only [Option.bind_eq_some_iff, Option.map_eq_some_iff, Prod.exists, Prod.mk.injEq]
  constructor
  · rintro ⟨xs, left, hfirst, ys, rest, hsecond, rfl, rfl⟩
    exact ⟨xs, ys, left, hfirst, hsecond, rfl⟩
  · rintro ⟨xs, ys, left, hfirst, hsecond, rfl⟩
    exact ⟨xs, left, hfirst, ys, rest, hsecond, rfl, rfl⟩

theorem cut?_text_append (t rest : List Char) : (Pattern.text t).cut? (t ++ rest) = some (t, rest) := by
  simp [cut?]

/-- A text takes itself off the front, and nothing else. -/
theorem cut?_text_eq_some : (Pattern.text t).cut? cs = some (taken, rest) ↔ taken = t ∧ cs = t ++ rest := by
  constructor
  · intro h
    rw [cut?, Option.ite_none_right_eq_some] at h
    obtain ⟨⟨left, rfl⟩, heq⟩ := h.imp_left List.isPrefixOf_iff_prefix.1
    rw [List.drop_left] at heq
    cases heq
    exact ⟨rfl, rfl⟩
  · rintro ⟨rfl, rfl⟩
    exact cut?_text_append taken rest

/-- What `oneOf` takes is one of its texts. -/
theorem cut?_oneOf {ts : List (List Char)} (h : (oneOf ts).cut? cs = some (taken, rest)) :
    taken ∈ ts ∧ cs = taken ++ rest := by
  induction ts with
  | nil => cases cs <;> cases h
  | cons t ts ih =>
    rw [oneOf, cut?_orElse, Option.or_eq_some_iff] at h
    rcases h with h | ⟨-, h⟩
    · obtain ⟨rfl, rfl⟩ := cut?_text_eq_some.1 h
      exact ⟨List.mem_cons_self, rfl⟩
    · exact ⟨List.mem_cons_of_mem t (ih h).1, (ih h).2⟩

/-- No reserved text is the beginning of another, so the one that stands there is found. -/
theorem cut?_oneOf_reservedTexts (h : taken ∈ reservedTexts) (rest : List Char) :
    (oneOf reservedTexts).cut? (taken ++ rest) = some (taken, rest) := by
  simp only [reservedTexts, List.mem_cons, List.not_mem_nil, or_false] at h
  rcases h with rfl | rfl | rfl | rfl | rfl | rfl | rfl | rfl | rfl | rfl | rfl | rfl <;> rfl

/-- The pattern takes one character, which is of this class. -/
def IsOne (body : Pattern) (p : Char → Bool) : Prop := ∀ cs, body.cut? cs = (one p).cut? cs

/-- The pattern matches wherever a character of this class is next. -/
def Opens (body : Pattern) (p : Char → Bool) : Prop := ∀ cs, (body.cut? cs).isSome = cs.head?.any p

theorem isOne_one (p : Char → Bool) : (one p).IsOne p := fun _ => rfl

/-- A text of one character takes just this character. -/
theorem isOne_text (c : Char) : (text [c]).IsOne (· == c) := by
  intro cs
  cases cs with
  | nil => rfl
  | cons d rest =>
    rw [cut?, cut?, List.isPrefixOf_cons_cons, List.isPrefixOf_nil_left, Bool.and_true]
    by_cases h : d = c
    · simp [h]
    · simp [h, Ne.symm h]

namespace IsOne

theorem congr (h : body.IsOne p) (hpq : ∀ c, p c = q c) : body.IsOne q := by
  obtain rfl : p = q := funext hpq
  exact h

theorem orElse (hfirst : first.IsOne p) (hsecond : second.IsOne q) :
    (first <|> second).IsOne fun c => p c || q c := by
  intro cs
  rw [cut?_orElse, hfirst, hsecond]
  cases cs with
  | nil => rfl
  | cons c rest =>
    cases hp : p c <;> cases hq : q c <;> simp [cut?, hp, hq]

theorem opens (h : body.IsOne p) : body.Opens p := by
  intro cs
  rw [h]
  cases cs with
  | nil => rfl
  | cons c rest =>
    simp only [cut?, List.head?_cons, Option.any_some]
    cases p c <;> rfl

/-- Repeating a pattern for one character takes the longest run of such characters. -/
theorem cut?_many (h : body.IsOne p) (cs : List Char) :
    (many body).cut? cs = some (cs.takeWhile p, cs.dropWhile p) := by
  rw [cut?]
  refine congrArg some ?_
  induction cs with
  | nil => exact repeatedly_none (h [])
  | cons c rest ih =>
    cases hc : p c with
    | true =>
      have hcut : body.cut? (c :: rest) = some ([c], rest) := by rw [h, cut?, if_pos hc]
      rw [repeatedly_some hcut (Nat.lt_succ_self _), ih]
      simp [hc]
    | false =>
      have hcut : body.cut? (c :: rest) = none := by
        rw [h, cut?, hc]
        rfl
      rw [repeatedly_none hcut]
      simp [hc]

end IsOne

theorem Opens.orElse (hfirst : first.Opens p) (hsecond : second.Opens q) :
    (first <|> second).Opens fun c => p c || q c := by
  intro cs
  rw [cut?_orElse, Option.isSome_or, hfirst, hsecond]
  cases cs <;> simp

/-- Any character but those that the pattern opens with. -/
theorem Opens.isOne_absent (h : body.Opens p) : (absent body ++ any).IsOne fun c => !p c := by
  intro cs
  rw [cut?_append, cut?, ← Option.not_isSome, h]
  cases cs with
  | nil => rfl
  | cons c rest =>
    cases hp : p c <;> simp [any, cut?, hp]

/-- A line ends at a line feed or at a carriage return, whichever of the three spellings it has. -/
theorem opens_newline : newline.Opens isLineEnd := by
  intro cs
  cases cs with
  | nil => rfl
  | cons c rest =>
    by_cases hfeed : c = '\n'
    · subst hfeed
      rfl
    by_cases hreturn : c = '\r'
    · subst hreturn
      simp [newline, cut?_orElse, cut?, isLineEnd]
    · simp [newline, cut?_orElse, cut?, isLineEnd, hfeed, hreturn, Ne.symm hfeed, Ne.symm hreturn]

theorem isOne_whitespace : whitespace.IsOne isBlank := by
  refine ((isOne_text ' ').orElse ((isOne_text '\t').orElse ((isOne_text '\r').orElse (isOne_text '\n')))).congr ?_
  simp [isBlank, Bool.or_assoc]

theorem isOne_nameChar : nameChar.IsOne Word.isNameChar := by
  refine ((isOne_one _).orElse ((isOne_text '_').orElse ((isOne_text '$').orElse (isOne_text '.')))).congr ?_
  simp [Word.isNameChar, Bool.or_assoc]

theorem isOne_nameStart : nameStart.IsOne Word.isNameStart := by
  refine ((isOne_one _).orElse ((isOne_text '_').orElse (isOne_text '$'))).congr ?_
  simp [Word.isNameStart, Bool.or_assoc]

theorem isOne_plain : (absent (text ['"'] <|> text ['\\'] <|> newline) ++ any).IsOne isPlain := by
  refine ((isOne_text '"').opens.orElse ((isOne_text '\\').opens.orElse opens_newline)).isOne_absent.congr ?_
  simp [isPlain, Bool.and_assoc, bne]

theorem cut?_text_eq_none (h : ¬ t <+: cs) : (Pattern.text t).cut? cs = none := by
  rw [cut?, if_neg]
  rwa [List.isPrefixOf_iff_prefix]

/-- A block comment reaches up to the first end of one. -/
theorem cut?_blockComment (cs : List Char) :
    (many (absent (text ['*', '/']) ++ any) ++ text ['*', '/']).cut? cs = blockComment? cs := by
  rw [cut?_append, cut?, Option.bind_some]
  fun_induction blockComment? cs with
  | case1 rest =>
    rw [repeatedly_none (by simp [cut?_append, cut?])]
    simp [cut?]
  | case2 c rest hend ih =>
    have hcut : (absent (text ['*', '/']) ++ any).cut? (c :: rest) = some ([c], rest) := by
      rw [cut?_append, cut?, cut?_text_eq_none]
      · rfl
      · rintro ⟨tail, htail⟩
        exact hend tail (List.cons.inj htail).1.symm (List.cons.inj htail).2.symm
    rw [repeatedly_some hcut (Nat.lt_succ_self _), ← ih]
    simp [Function.comp_def]
  | case3 =>
    rw [repeatedly_none (by simp [cut?_append, cut?, any])]
    rfl

/-- A line comment takes everything up to the end of its line. -/
theorem cut?_comment_line (rest : List Char) : comment.cut? ('/' :: '/' :: rest) =
    some ('/' :: '/' :: rest.takeWhile (!isLineEnd ·), rest.dropWhile (!isLineEnd ·)) := by
  have hline := opens_newline.isOne_absent.cut?_many rest
  rw [comment, cut?_orElse, cut?_append, cut?, if_pos (by simp)]
  simp [hline]

/-- A block comment takes everything up to the first `*/`, or it is none. -/
theorem cut?_comment_block (rest : List Char) : comment.cut? ('/' :: '*' :: rest) =
    (blockComment? rest).map fun (comment, rest') => ('/' :: '*' :: comment, rest') := by
  rw [← cut?_blockComment, comment, cut?_orElse, cut?_append_assoc, cut?_append, cut?_append,
    cut?_text_eq_none (by simp)]
  simp [cut?]

/-- Nothing else is a comment. -/
theorem cut?_comment_eq_none (hline : ∀ rest, cs ≠ '/' :: '/' :: rest) (hblock : ∀ rest, cs ≠ '/' :: '*' :: rest) :
    comment.cut? cs = none := by
  rw [comment, cut?_orElse, cut?_append_assoc, cut?_append, cut?_append, cut?_text_eq_none, cut?_text_eq_none]
  · rfl
  · rintro ⟨rest, rfl⟩
    exact hblock rest rfl
  · rintro ⟨rest, rfl⟩
    exact hline rest rfl

theorem cut?_gap_eq (cs : List Char) : gap.cut? cs =
    some (cs.takeWhile isBlank ++ (repeatedly (comment ++ many whitespace).cut? (cs.dropWhile isBlank)).1,
      (repeatedly (comment ++ many whitespace).cut? (cs.dropWhile isBlank)).2) := by
  rw [gap, cut?_append, isOne_whitespace.cut?_many]
  rfl

/-- Behind a comment the gap goes on like one that starts there. -/
theorem cut?_gap_of_comment {text : List Char} (hcs : cs.head? = some '/')
    (hcomment : comment.cut? cs = some (text, rest)) (hlength : rest.length < cs.length) :
    gap.cut? cs = (gap.cut? rest).map fun (more, rest') => (text ++ more, rest') := by
  obtain ⟨tail, rfl⟩ := List.head?_eq_some_iff.1 hcs
  have hcut : (comment ++ many whitespace).cut? ('/' :: tail) =
      some (text ++ rest.takeWhile isBlank, rest.dropWhile isBlank) := by
    have hblanks := isOne_whitespace.cut?_many rest
    rw [cut?_append, hcomment]
    simp [hblanks]
  have hle := (List.dropWhile_sublist isBlank (l := rest)).length_le
  have hslash : isBlank '/' = false := by decide
  rw [cut?_gap_eq, cut?_gap_eq, List.dropWhile_cons_of_neg (by simp [hslash]),
    List.takeWhile_cons_of_neg (by simp [hslash]), repeatedly_some hcut (hle.trans_lt hlength)]
  simp

/-- In front of anything but a blank or a comment there is no gap. -/
theorem cut?_gap_of_no_comment (hcs : ∀ c ∈ cs.head?, isBlank c = false) (hcomment : comment.cut? cs = none) :
    gap.cut? cs = some ([], cs) := by
  have hnone : (comment ++ many whitespace).cut? cs = none := by
    rw [cut?_append, hcomment]
    rfl
  cases cs with
  | nil => rw [cut?_gap_eq, List.dropWhile_nil, List.takeWhile_nil, repeatedly_none hnone, List.nil_append]
  | cons c rest =>
    have hc := hcs c rfl
    rw [cut?_gap_eq, List.dropWhile_cons_of_neg (by simp [hc]), List.takeWhile_cons_of_neg (by simp [hc]),
      repeatedly_none hnone, List.nil_append]

/-- What `gap` takes is the gap that the lexer splits off. -/
theorem cut?_gap (cs : List Char) : gap.cut? cs = some (splitGap cs) := by
  fun_induction splitGap cs with
  | case1 rest gap' rest' hgap ih =>
    have hle := (List.dropWhile_sublist (!isLineEnd ·) (l := rest)).length_le
    rw [cut?_gap_of_comment rfl (cut?_comment_line rest) (by simp only [List.length_cons]; omega), ih, hgap]
    rfl
  | case2 rest text rest' hcomment gap' rest'' hgap ih =>
    have hlength := congrArg List.length (Lexer.blockComment?_eq_some hcomment)
    rw [List.length_append] at hlength
    have hcut : comment.cut? ('/' :: '*' :: rest) = some ('/' :: '*' :: text, rest') := by
      rw [cut?_comment_block, hcomment]
      rfl
    rw [cut?_gap_of_comment rfl hcut (by simp only [List.length_cons]; omega), ih, hgap]
    rfl
  | case3 rest hcomment =>
    refine cut?_gap_of_no_comment (by rintro c ⟨⟩; decide) ?_
    rw [cut?_comment_block, hcomment]
    rfl
  | case4 c rest hline hblock hblank gap' rest' hgap ih =>
    rw [cut?_gap_eq] at ih ⊢
    rw [List.dropWhile_cons_of_pos (by simp [hblank]), List.takeWhile_cons_of_pos (by simp [hblank]), List.cons_append]
    rw [hgap] at ih
    simp only [Option.some.injEq, Prod.mk.injEq] at ih
    rw [ih.1, ih.2]
  | case5 c rest hline hblock hblank =>
    refine cut?_gap_of_no_comment (by rintro d ⟨⟩; simpa using hblank) (cut?_comment_eq_none ?_ ?_)
    · rintro tail heq
      exact hline tail (List.cons.inj heq).1 (List.cons.inj heq).2
    · rintro tail heq
      exact hblock tail (List.cons.inj heq).1 (List.cons.inj heq).2
  | case6 => exact cut?_gap_of_no_comment (by simp) (cut?_comment_eq_none (by simp) (by simp))

/-- The end of a word takes nothing, and matches where no name character is next. -/
theorem cut?_wordEnd_eq_some : wordEnd.cut? cs = some (taken, rest) ↔ taken = [] ∧ rest = cs ∧ EndsWord cs := by
  have hend : (nameChar.cut? cs).isNone ↔ EndsWord cs := by
    rw [← Option.not_isSome, isOne_nameChar.opens]
    cases cs <;> simp [EndsWord]
  rw [wordEnd, cut?, Option.ite_none_right_eq_some, hend]
  simp only [Option.some.injEq, Prod.mk.injEq]
  exact ⟨fun h => ⟨h.2.1.symm, h.2.2.symm, h.1⟩, fun h => ⟨h.2.2, h.1.symm, h.2.1.symm⟩⟩

/-- A pattern in front of a word's end takes a whole word. -/
theorem cut?_append_wordEnd : (body ++ wordEnd).cut? cs = some (taken, rest) ↔
    body.cut? cs = some (taken, rest) ∧ EndsWord rest := by
  rw [cut?_append_eq_some]
  constructor
  · rintro ⟨xs, ys, left, hbody, hend, rfl⟩
    obtain ⟨rfl, rfl, hend⟩ := cut?_wordEnd_eq_some.1 hend
    rw [List.append_nil]
    exact ⟨hbody, hend⟩
  · rintro ⟨hbody, hend⟩
    exact ⟨taken, [], rest, hbody, cut?_wordEnd_eq_some.2 ⟨rfl, rfl, hend⟩, (List.append_nil _).symm⟩

/-- One or more characters of a class are the longest run of them, if there is any. -/
theorem cut?_oneOrMore_one : (oneOrMore (one p)).cut? cs = some (taken, rest) ↔
    taken ≠ [] ∧ (∀ c ∈ taken, p c) ∧ (∀ c ∈ rest.head?, p c = false) ∧ cs = taken ++ rest := by
  have hmany (cs : List Char) : (many (one p)).cut? cs = some (cs.takeWhile p, cs.dropWhile p) :=
    (isOne_one p).cut?_many cs
  constructor
  · intro h
    rw [oneOrMore, cut?_append_eq_some] at h
    obtain ⟨xs, ys, left, hfirst, hmore, rfl⟩ := h
    rw [hmany] at hmore
    cases hmore
    cases cs with
    | nil => cases hfirst
    | cons c cs =>
      rw [cut?, Option.ite_none_right_eq_some] at hfirst
      obtain ⟨hc, heq⟩ := hfirst
      cases heq
      refine ⟨by simp, ?_, fun d hd => Lexer.head?_dropWhile hd, by simp⟩
      rw [List.singleton_append, List.forall_mem_cons]
      exact ⟨hc, fun d hd => List.mem_takeWhile_imp hd⟩
  · rintro ⟨hne, htaken, hrest, rfl⟩
    cases taken with
    | nil => exact absurd rfl hne
    | cons c more =>
      rw [List.forall_mem_cons] at htaken
      have htail : (more ++ rest).takeWhile p = more ∧ (more ++ rest).dropWhile p = rest := by
        rw [List.takeWhile_append_of_pos htaken.2, List.dropWhile_append_of_pos htaken.2]
        cases rest with
        | nil => simp
        | cons d rest => simp [hrest d rfl]
      rw [oneOrMore, cut?_append_eq_some]
      refine ⟨[c], more, more ++ rest, ?_, ?_, rfl⟩
      · rw [List.cons_append, cut?, if_pos htaken.1]
      · rw [hmany, htail.1, htail.2]

theorem cut?_stringChar_plain {c : Char} (hc : c ≠ '\\') (rest : List Char) :
    stringChar.cut? (c :: rest) = if isPlain c then some ([c], rest) else none := by
  have hescape : (text ['\\'] ++ any).cut? (c :: rest) = none := by
    rw [cut?_append, cut?_text_eq_none (by simpa using Ne.symm hc)]
    rfl
  rw [stringChar, cut?_orElse, hescape, isOne_plain]
  rfl

/-- The inside of a string literal with a quote behind it is the body that the lexer cuts off: repeating takes escapes
as a whole, so it neither stops at an escaped quote nor passes a bare one. -/
theorem cut?_stringInner (cs : List Char) : (stringInner ++ text ['"']).cut? cs =
    (stringBody? cs).map fun (raw, rest) => (raw ++ ['"'], rest) := by
  rw [cut?_append, stringInner, cut?, Option.bind_some]
  fun_induction stringBody? cs with
  | case1 rest =>
    rw [repeatedly_none (by rw [cut?_stringChar_plain (by decide)]; rfl)]
    simp [cut?]
  | case2 c rest ih =>
    have hcut : stringChar.cut? ('\\' :: c :: rest) = some (['\\', c], rest) := rfl
    rw [repeatedly_some hcut (by simp only [List.length_cons]; omega), Option.map_map]
    have hmap := congrArg (Option.map fun (ys, rest') => ('\\' :: c :: ys, rest')) ih
    rw [Option.map_map, Option.map_map] at hmap
    exact hmap
  | case3 c rest hquote hescape hend =>
    have hclose : (text ['"']).cut? (c :: rest) = none := cut?_text_eq_none (by simpa using Ne.symm hquote)
    have hcut : stringChar.cut? (c :: rest) = none := by
      by_cases hc : c = '\\'
      · subst hc
        cases rest with
        | nil => rfl
        | cons d rest => exact absurd rfl (hescape d rest rfl)
      · have hne : c ≠ '"' := hquote
        rw [cut?_stringChar_plain hc, if_neg]
        simpa [isPlain, hc, hne] using hend
    rw [repeatedly_none hcut]
    simp [hclose]
  | case4 c rest hquote hescape hplain ih =>
    have hc : c ≠ '\\' := by
      rintro rfl
      simp at hplain
    have hne : c ≠ '"' := hquote
    have hcut : stringChar.cut? (c :: rest) = some ([c], rest) := by
      rw [cut?_stringChar_plain hc, if_pos]
      simpa [isPlain, hc, hne] using hplain
    rw [repeatedly_some hcut (Nat.lt_succ_self _), Option.map_map]
    have hmap := congrArg (Option.map fun (ys, rest') => (c :: ys, rest')) ih
    rw [Option.map_map, Option.map_map] at hmap
    exact hmap
  | case5 =>
    rw [repeatedly_none rfl]
    rfl

end Pattern

end YulBackend.Grammar
