import YulBackend.Proofs.Syntax.Patterns

namespace YulBackend.Grammar

open Lexer (EndsWord)
open Pattern

variable {t : Terminal} {cs text rest : List Char}

/-- The texts that are no names are those of the reserved words and the two truth values. -/
theorem mem_reservedTexts : text ∈ reservedTexts ↔
    (∃ k : Keyword, k.text.toList = text) ∨ text = "true".toList ∨ text = "false".toList := by
  constructor
  · intro h
    simp only [reservedTexts, List.mem_cons, List.not_mem_nil, or_false] at h
    rcases h with rfl | rfl | rfl | rfl | rfl | rfl | rfl | rfl | rfl | rfl | rfl | rfl
    · exact .inl ⟨.function, rfl⟩
    · exact .inl ⟨.let, rfl⟩
    · exact .inl ⟨.if, rfl⟩
    · exact .inl ⟨.switch, rfl⟩
    · exact .inl ⟨.case, rfl⟩
    · exact .inl ⟨.default, rfl⟩
    · exact .inl ⟨.for, rfl⟩
    · exact .inl ⟨.break, rfl⟩
    · exact .inl ⟨.continue, rfl⟩
    · exact .inl ⟨.leave, rfl⟩
    · exact .inr (.inl rfl)
    · exact .inr (.inr rfl)
  · rintro (⟨k, rfl⟩ | rfl | rfl)
    · cases k <;> simp [reservedTexts, Keyword.text]
    · simp [reservedTexts]
    · simp [reservedTexts]

/-- A word is a name if it starts like one, goes on with name characters, and is none of the reserved texts. -/
theorem isWord_identifier_iff : IsWord .identifier text ↔
    text.head?.any Word.isNameStart ∧ (∀ c ∈ text, Word.isNameChar c) ∧ text ∉ reservedTexts := by
  rw [mem_reservedTexts, not_or, not_or, not_exists]
  constructor
  · rintro ⟨⟩
    next c rest hstart hchars hkeyword htrue hfalse =>
      refine ⟨by simpa using hstart, ?_, hkeyword, htrue, hfalse⟩
      rw [List.forall_mem_cons]
      exact ⟨Word.isNameChar_of_isNameStart hstart, hchars⟩
  · rintro ⟨hstart, hchars, hkeyword, htrue, hfalse⟩
    cases text with
    | nil => cases hstart
    | cons c rest =>
      rw [List.forall_mem_cons] at hchars
      exact .identifier (by simpa using hstart) hchars.2 hkeyword htrue hfalse

/-- The first word of a text ends where no name character follows. -/
theorem takeWhile_append_of_endsWord (htext : ∀ c ∈ text, Word.isNameChar c) (hend : EndsWord rest) :
    (text ++ rest).takeWhile Word.isNameChar = text ∧ (text ++ rest).dropWhile Word.isNameChar = rest := by
  rw [List.takeWhile_append_of_pos htext, List.dropWhile_append_of_pos htext]
  cases rest with
  | nil => simp
  | cons c rest => simp [hend c rfl]

/-- A reserved text stands in front of a text if it is all of the text's first word. -/
theorem cut?_reserved_eq_some : reserved.cut? cs = some (text, rest) ↔
    text ∈ reservedTexts ∧ cs = text ++ rest ∧ EndsWord rest := by
  rw [reserved, cut?_append_wordEnd]
  constructor
  · rintro ⟨h, hend⟩
    exact ⟨(cut?_oneOf h).1, (cut?_oneOf h).2, hend⟩
  · rintro ⟨htaken, rfl, hend⟩
    exact ⟨cut?_oneOf_reservedTexts htaken rest, hend⟩

theorem isNameChar_of_mem_reservedTexts (h : text ∈ reservedTexts) : ∀ c ∈ text, Word.isNameChar c := by
  have hall : ∀ text ∈ reservedTexts, text.all Word.isNameChar := by decide
  exact List.all_eq_true.1 (hall text h)

/-- The start of a name and any name characters behind it take the whole first word. -/
theorem cut?_nameStart_append : (nameStart ++ many nameChar).cut? cs = some (text, rest) ↔
    text.head?.any Word.isNameStart ∧ (∀ c ∈ text, Word.isNameChar c) ∧ EndsWord rest ∧ cs = text ++ rest := by
  rw [cut?_append, isOne_nameStart]
  constructor
  · cases cs with
    | nil => exact fun h => nomatch h
    | cons c tail =>
      intro h
      obtain ⟨⟨xs, left⟩, hfirst, h⟩ := Option.bind_eq_some_iff.1 h
      obtain ⟨⟨ys, left'⟩, hmore, heq⟩ := Option.map_eq_some_iff.1 h
      rw [isOne_nameChar.cut?_many] at hmore
      rw [cut?, Option.ite_none_right_eq_some] at hfirst
      obtain ⟨hc, hfirst⟩ := hfirst
      cases hfirst
      cases hmore
      cases heq
      refine ⟨by simpa using hc, ?_, fun d hd => Lexer.head?_dropWhile hd, by simp⟩
      rw [List.singleton_append, List.forall_mem_cons]
      exact ⟨Word.isNameChar_of_isNameStart hc, fun d hd => List.mem_takeWhile_imp hd⟩
  · rintro ⟨hstart, hchars, hend, rfl⟩
    cases text with
    | nil => cases hstart
    | cons c more =>
      rw [List.forall_mem_cons] at hchars
      obtain ⟨htake, hdrop⟩ := takeWhile_append_of_endsWord hchars.2 hend
      have hc : Word.isNameStart c := by simpa using hstart
      have hmany := isOne_nameChar.cut?_many (more ++ rest)
      rw [htake, hdrop] at hmany
      rw [List.cons_append, cut?, if_pos hc, Option.bind_some]
      exact congrArg (Option.map _) hmany

/-- The pattern of identifiers takes just the names. A reserved text is refused as a whole word only, so a name may
start with one. -/
theorem cut?_identifier : Terminal.identifier.pattern.cut? cs = some (text, rest) ↔
    IsWord .identifier text ∧ EndsWord rest ∧ cs = text ++ rest := by
  have hpattern : Terminal.identifier.pattern.cut? cs = some (text, rest) ↔
      reserved.cut? cs = none ∧ (nameStart ++ many nameChar).cut? cs = some (text, rest) := by
    rw [Terminal.pattern, cut?_append_assoc, cut?_append, cut?]
    cases reserved.cut? cs <;> simp
  rw [hpattern, cut?_nameStart_append, isWord_identifier_iff]
  constructor
  · rintro ⟨hreserved, hstart, hchars, hend, rfl⟩
    refine ⟨⟨hstart, hchars, fun hmem => ?_⟩, hend, rfl⟩
    rw [cut?_reserved_eq_some.2 ⟨hmem, rfl, hend⟩] at hreserved
    cases hreserved
  · rintro ⟨⟨hstart, hchars, hmem⟩, hend, rfl⟩
    refine ⟨?_, hstart, hchars, hend, rfl⟩
    rw [Option.eq_none_iff_forall_not_mem]
    rintro ⟨word, rest'⟩ hword
    obtain ⟨hword, heq, hend'⟩ := cut?_reserved_eq_some.1 hword
    -- The reserved text would be the whole first word, which is this one.
    have htake := (takeWhile_append_of_endsWord hchars hend).1
    rw [heq, (takeWhile_append_of_endsWord (isNameChar_of_mem_reservedTexts hword) hend').1] at htake
    exact hmem (htake ▸ hword)

theorem head?_eq_false_of_endsWord {p : Char → Bool} (hend : EndsWord rest)
    (hp : ∀ c, p c → Word.isNameChar c) : ∀ c ∈ rest.head?, p c = false := by
  intro c hc
  have hname := hend c hc
  cases h : p c with
  | false => rfl
  | true => rw [hp c h] at hname; cases hname

/-- The words of a class are what its pattern takes where no word goes on. -/
theorem cut?_word (ht : t.symbol? = none) (hstring : t ≠ .stringLiteral) :
    t.pattern.cut? cs = some (text, rest) ↔ IsWord t text ∧ EndsWord rest ∧ cs = text ++ rest := by
  cases t with
  | identifier => exact cut?_identifier
  | keyword k =>
    rw [Terminal.pattern, cut?_append_wordEnd, cut?_text_eq_some]
    constructor
    · rintro ⟨⟨rfl, rfl⟩, hend⟩
      exact ⟨.keyword k, hend, rfl⟩
    · rintro ⟨⟨⟩, hend, rfl⟩
      exact ⟨⟨rfl, rfl⟩, hend⟩
  | boolLiteral =>
    rw [Terminal.pattern, cut?_append_wordEnd, cut?_orElse, Option.or_eq_some_iff, cut?_text_eq_some, cut?_text_eq_some]
    constructor
    · rintro ⟨⟨rfl, rfl⟩ | ⟨-, rfl, rfl⟩, hend⟩
      · exact ⟨.isTrue, hend, rfl⟩
      · exact ⟨.isFalse, hend, rfl⟩
    · rintro ⟨⟨⟩, hend, rfl⟩
      · exact ⟨.inl ⟨rfl, rfl⟩, hend⟩
      · exact ⟨.inr ⟨rfl, rfl, rfl⟩, hend⟩
  | decimalNumber =>
    have hchar (c : Char) (hc : c.isDigit) : Word.isNameChar c :=
      Word.isNameChar_of_isHexDigit (by simp [Word.isHexDigit, hc])
    rw [Terminal.pattern, cut?_append_wordEnd, cut?_oneOrMore_one]
    constructor
    · rintro ⟨⟨hne, hdigits, -, rfl⟩, hend⟩
      exact ⟨.decimalNumber hne hdigits, hend, rfl⟩
    · rintro ⟨⟨⟩, hend, rfl⟩
      next hne hdigits => exact ⟨⟨hne, hdigits, head?_eq_false_of_endsWord hend hchar, rfl⟩, hend⟩
  | hexNumber =>
    rw [Terminal.pattern, cut?_append_wordEnd, cut?_append_eq_some]
    constructor
    · rintro ⟨⟨xs, digits, left, hprefix, htail, rfl⟩, hend⟩
      obtain ⟨rfl, rfl⟩ := cut?_text_eq_some.1 hprefix
      obtain ⟨hne, hdigits, -, rfl⟩ := cut?_oneOrMore_one.1 htail
      exact ⟨.hexNumber hne hdigits, hend, rfl⟩
    · rintro ⟨⟨⟩, hend, rfl⟩
      next digits hne hdigits =>
        refine ⟨⟨['0', 'x'], digits, digits ++ rest, cut?_text_append _ _, ?_, rfl⟩, hend⟩
        exact cut?_oneOrMore_one.2
          ⟨hne, hdigits, head?_eq_false_of_endsWord hend fun _ => Word.isNameChar_of_isHexDigit, rfl⟩
  | stringLiteral => exact absurd rfl hstring
  | _ => cases ht

theorem pattern_of_symbol? (h : t.symbol? = some text) : t.pattern = .text text := by
  cases t <;> cases h <;> rfl

/-- A pattern takes exactly the parts of its class that may stand in front of the rest. -/
theorem cut?_pattern : t.pattern.cut? cs = some (text, rest) ↔
    ∃ raw, Cuts rest ⟨t, raw⟩ ∧ SpeltToken.source ⟨t, raw⟩ = text ∧ cs = text ++ rest := by
  by_cases hstring : t = .stringLiteral
  · subst hstring
    rw [Terminal.pattern, cut?_append_assoc, cut?_append_eq_some]
    simp only [cut?_stringInner, Option.map_eq_some_iff, Prod.exists, Prod.mk.injEq]
    constructor
    · rintro ⟨xs, _, left, hquote, ⟨raw, _, hraw, rfl, rfl⟩, rfl⟩
      obtain ⟨rfl, rfl⟩ := cut?_text_eq_some.1 hquote
      refine ⟨raw, .string (Lexer.isStringBody_of_stringBody? hraw), rfl, ?_⟩
      simp [Lexer.stringBody?_eq_some hraw]
    · rintro ⟨raw, hcut, rfl, rfl⟩
      have hraw : IsStringBody raw := by
        cases hcut with
        | symbol h => cases h
        | word hword _ => cases hword
        | string hraw => exact hraw
      refine ⟨['"'], raw ++ ['"'], raw ++ '"' :: rest, ?_, ⟨raw, rest, ?_, rfl, rfl⟩, rfl⟩
      · simp [SpeltToken.source, cut?]
      · exact Lexer.stringBody?_of_isStringBody hraw rest
  -- Only a string is spelt with more than its text. All other kinds are symbols of fixed spelling, or words.
  have hsource (raw : List Char) : SpeltToken.source ⟨t, raw⟩ = raw := if_neg hstring
  simp only [hsource]
  cases hsymbol : t.symbol? with
  | some symbol =>
    rw [pattern_of_symbol? hsymbol, cut?_text_eq_some]
    constructor
    · rintro ⟨rfl, rfl⟩
      exact ⟨text, .symbol hsymbol, rfl, rfl⟩
    · rintro ⟨raw, hcut, rfl, rfl⟩
      cases hcut with
      | symbol h =>
        rw [hsymbol] at h
        cases h
        exact ⟨rfl, rfl⟩
      | word hword _ => cases hword <;> cases hsymbol
      | string _ => exact absurd rfl hstring
  | none =>
    rw [cut?_word hsymbol hstring]
    constructor
    · rintro ⟨hword, hend, rfl⟩
      exact ⟨text, .word hword hend, rfl, rfl⟩
    · rintro ⟨raw, hcut, rfl, rfl⟩
      cases hcut with
      | symbol h =>
        rw [hsymbol] at h
        cases h
      | word hword hend => exact ⟨hword, hend, rfl⟩
      | string _ => exact absurd rfl hstring

end YulBackend.Grammar
