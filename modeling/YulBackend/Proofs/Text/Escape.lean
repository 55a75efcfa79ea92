import YulBackend.Token.Lexer

namespace YulBackend.Escape

theorem hexValue?_hexDigit : ∀ n < 16, hexValue? (hexDigit n) = some n := by
  decide

theorem hexDigit_ne_plus : ∀ n < 16, hexDigit n ≠ '+' := by
  decide

theorem toNat_lt_of_isControl {c : Char} (h : isControl c) : c.toNat < 128 := by
  simp only [isControl, Bool.or_eq_true, decide_eq_true_eq, beq_iff_eq] at h
  omega

/-- The two digits that writing gives a control character are read back as that character. -/
theorem hexEscape_hexDigits {c : Char} (hc : isControl c) :
    hexEscape [hexDigit (c.toNat / 16), hexDigit (c.toNat % 16)] = .ok c := by
  have hbound := toNat_lt_of_isControl hc
  have hhigh := hexValue?_hexDigit (c.toNat / 16) (by omega)
  have hlow := hexValue?_hexDigit (c.toNat % 16) (by omega)
  have hplus := hexDigit_ne_plus (c.toNat / 16) (by omega)
  have hsum : 16 * (c.toNat / 16) + c.toNat % 16 = c.toNat := Nat.div_add_mod c.toNat 16
  have hbyte : byte? [hexDigit (c.toNat / 16), hexDigit (c.toNat % 16)] = some c.toNat := by
    simp [byte?, hplus, hhigh, hlow, hsum]
  simp [hexEscape, hbyte]

/-- Reading goes on behind an escape of one letter, with the character that the letter stands for. -/
theorem decode_letter {c d : Char} (h : letter? c = some d) (rest : List Char) :
    decode ('\\' :: c :: rest) = (decode rest).map (d :: ·) := by
  have hx : c ≠ 'x' := by
    rintro rfl
    cases h
  rw [decode, h]
  · cases decode rest <;> rfl
  · intro a b tail heq
    exact absurd heq hx
  · intro heq
    exact absurd heq hx

/-- Reading goes on behind an `\x` escape of two digits, with the character that the digits stand for. -/
theorem decode_hexEscape {a b c : Char} (h : hexEscape [a, b] = .ok c) (rest : List Char) :
    decode ('\\' :: 'x' :: a :: b :: rest) = (decode rest).map (c :: ·) := by
  rw [decode, h]
  cases decode rest <;> rfl

/-- Any character but a backslash is read as itself. -/
theorem decode_plain {c : Char} (h : c ≠ '\\') (rest : List Char) :
    decode (c :: rest) = (decode rest).map (c :: ·) := by
  rw [decode]
  · cases decode rest <;> rfl
  all_goals
    intros
    contradiction

/-- Reading undoes writing one character at a time, whatever follows. -/
theorem decode_encodeChar (c : Char) (rest : List Char) :
    decode (encodeChar c ++ rest) = (decode rest).map (c :: ·) := by
  unfold encodeChar
  split
  next h => subst h; exact decode_letter rfl rest
  split
  next h => subst h; exact decode_letter rfl rest
  split
  next h => subst h; exact decode_letter rfl rest
  split
  next h => subst h; exact decode_letter rfl rest
  split
  next h => subst h; exact decode_letter rfl rest
  split
  next hcontrol => exact decode_hexEscape (hexEscape_hexDigits hcontrol) rest
  next hslash _ _ _ _ => exact decode_plain hslash rest

/-- Any text at all can be written between quotes and read back. -/
theorem decode_encode (text : List Char) : decode (encode text) = .ok text := by
  induction text with
  | nil => rfl
  | cons c rest ih =>
    have hcons : encode (c :: rest) = encodeChar c ++ encode rest := rfl
    rw [hcons, decode_encodeChar, ih]
    rfl

theorem isControl_hexDigit : ∀ n < 16, isControl (hexDigit n) = false := by
  decide

/-- A written text holds no control character. -/
theorem notMem_encode {c : Char} (hc : isControl c) (text : List Char) : c ∉ encode text := by
  have hne {d : Char} (hd : isControl d = false) : c ≠ d := by
    rintro rfl
    rw [hc] at hd
    cases hd
  rw [encode, List.mem_flatMap]
  rintro ⟨d, -, hmem⟩
  unfold encodeChar at hmem
  split at hmem
  · simp [hne (d := '\\') rfl, hne (d := '"') rfl] at hmem
  split at hmem
  · simp [hne (d := '\\') rfl] at hmem
  split at hmem
  · simp [hne (d := '\\') rfl, hne (d := 'n') rfl] at hmem
  split at hmem
  · simp [hne (d := '\\') rfl, hne (d := 'r') rfl] at hmem
  split at hmem
  · simp [hne (d := '\\') rfl, hne (d := 't') rfl] at hmem
  split at hmem
  next hcontrol =>
    have hbound := toNat_lt_of_isControl hcontrol
    have hhigh := isControl_hexDigit (d.toNat / 16) (by omega)
    have hlow := isControl_hexDigit (d.toNat % 16) (by omega)
    simp [hne (d := '\\') rfl, hne (d := 'x') rfl, hne hhigh, hne hlow] at hmem
  next hcontrol => exact hne (eq_false_of_ne_true hcontrol) (List.mem_singleton.1 hmem)

end YulBackend.Escape

namespace YulBackend.Lexer

/-- Characters that stand for themselves between quotes. -/
def isPlain (c : Char) : Bool := c != '"' && c != '\\' && !isLineEnd c

/-- A character that may stand in a string literal as it is does not end it. -/
theorem stringBody?_plain {c : Char} (h : isPlain c) (rest : List Char) :
    stringBody? (c :: rest) = (stringBody? rest).map fun p => (c :: p.1, p.2) := by
  simp only [isPlain, Bool.and_eq_true, bne_iff_ne, ne_eq, Bool.not_eq_true'] at h
  obtain ⟨⟨hquote, hslash⟩, hend⟩ := h
  rw [stringBody?]
  · simp [hslash, hend]
  · exact hquote
  · intro d tail heq
    exact absurd heq hslash

theorem isPlain_hexDigit : ∀ n < 16, isPlain (Escape.hexDigit n) := by
  decide

/-- What `encodeChar` writes for a character stays inside the string literal: no quote ends it, and no backslash takes
the closing quote with it. -/
theorem stringBody?_encodeChar (c : Char) (rest : List Char) :
    stringBody? (Escape.encodeChar c ++ rest) =
      (stringBody? rest).map fun p => (Escape.encodeChar c ++ p.1, p.2) := by
  unfold Escape.encodeChar
  split
  · simp [stringBody?]
  split
  · simp [stringBody?]
  split
  · simp [stringBody?]
  split
  · simp [stringBody?]
  split
  · simp [stringBody?]
  split
  next hcontrol =>
    have hbound := Escape.toNat_lt_of_isControl hcontrol
    have hhigh := isPlain_hexDigit (c.toNat / 16) (by omega)
    have hlow := isPlain_hexDigit (c.toNat % 16) (by omega)
    simp [stringBody?, stringBody?_plain hhigh, stringBody?_plain hlow, Function.comp_def]
  next hquote hslash hnewline hreturn _ _ =>
    have hplain : isPlain c := by simp [isPlain, isLineEnd, hquote, hslash, hnewline, hreturn]
    exact stringBody?_plain hplain rest

/-- A written text never holds the quote that closes it, nor a line end. -/
theorem stringBody?_encode (text rest : List Char) :
    stringBody? (Escape.encode text ++ '"' :: rest) = some (Escape.encode text, rest) := by
  induction text with
  | nil => simp [Escape.encode, stringBody?]
  | cons c tail ih =>
    have hcons : Escape.encode (c :: tail) = Escape.encodeChar c ++ Escape.encode tail := rfl
    rw [hcons, List.append_assoc, stringBody?_encodeChar, ih]
    rfl

end YulBackend.Lexer
