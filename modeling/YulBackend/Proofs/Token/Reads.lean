import YulBackend.Proofs.Text.Escape

namespace YulBackend.Lexer

/-- Wherever it stands, a text is made of these tokens, and none of them holds an invalid escape. -/
def Reads (cs : List Char) (tokens : List Token) : Prop :=
  ∀ offset, ∃ lexemes, lexemes? offset cs = some lexemes ∧
    lexemes.map (·.token) = tokens ∧ lexemes.findSome? (·.token.fault?) = none

/-- A word in front of such a text ends where it should. -/
def EndsWord (cs : List Char) : Prop := ∀ c ∈ cs.head?, Word.isNameChar c = false

/-- The defining equation of `lexemes?`, without the evidence that its recursion ends by. -/
theorem lexemes?_eq (offset : Nat) (cs : List Char) :
    lexemes? offset cs =
      if (splitGap cs).2 = [] then some []
      else (next? (splitGap cs).2).bind fun (token, text, rest) =>
        let start := offset + byteCount (splitGap cs).1
        let stop := start + byteCount text
        (lexemes? stop rest).map (⟨token, ⟨start, stop⟩⟩ :: ·) := by
  rw [lexemes?]
  split
  · rfl
  · split
    next hnext => simp [hnext]
    next hnext =>
      simp only [hnext, Option.bind_some]
      exact Option.map_eq_bind.symm

theorem reads_nil : Reads [] [] := by
  intro offset
  refine ⟨[], ?_, rfl, rfl⟩
  rw [lexemes?_eq]
  simp [splitGap]

/-- A blank belongs to the gap, along with the gap behind it. -/
theorem splitGap_blank {c : Char} (hc : isBlank c) (cs : List Char) :
    splitGap (c :: cs) = (c :: (splitGap cs).1, (splitGap cs).2) := by
  have hslash : c ≠ '/' := by
    rintro rfl
    exact absurd hc (by decide)
  rw [splitGap]
  · simp [hc]
  · intro rest heq
    exact absurd heq hslash
  · intro rest heq
    exact absurd heq hslash

theorem lexemes?_blank {c : Char} (hc : isBlank c) (offset : Nat) (cs : List Char) :
    lexemes? offset (c :: cs) = lexemes? (offset + c.utf8Size) cs := by
  rw [lexemes?_eq, lexemes?_eq, splitGap_blank hc]
  simp only [byteCount, Nat.add_assoc]

/-- A blank in front of a text adds no token. -/
theorem Reads.blank {c : Char} {cs : List Char} {tokens : List Token} (h : Reads cs tokens)
    (hc : isBlank c) : Reads (c :: cs) tokens := by
  intro offset
  rw [lexemes?_blank hc]
  exact h _

theorem Reads.space {cs : List Char} {tokens : List Token} (h : Reads cs tokens) :
    Reads (' ' :: cs) tokens :=
  h.blank (by decide)

/-- However many blanks there are in front of a text, they add no token. -/
theorem Reads.blanks {gap cs : List Char} {tokens : List Token} (h : Reads cs tokens)
    (hgap : ∀ c ∈ gap, isBlank c) : Reads (gap ++ cs) tokens := by
  induction gap with
  | nil => exact h
  | cons c rest ih =>
    exact (ih fun d hd => hgap d (List.mem_cons_of_mem c hd)).blank (hgap c List.mem_cons_self)

/-- A token that is cut off the front without a gap stands before the tokens of the rest. -/
theorem lexemes?_token {cs text rest : List Char} {token : Token} (hgap : splitGap cs = ([], cs))
    (hnext : next? cs = some (token, text, rest)) (offset : Nat) :
    lexemes? offset cs =
      (lexemes? (offset + byteCount text) rest).map (⟨token, ⟨offset, offset + byteCount text⟩⟩ :: ·) := by
  have hcs : cs ≠ [] := by
    rintro rfl
    have := length_lt_of_next? hnext
    simp at this
  rw [lexemes?_eq, hgap]
  simp [hcs, hnext, byteCount]

/-- What `next?` finds in front of a text becomes its first token, unless a comment or a blank is in front. -/
theorem Reads.token {cs text rest : List Char} {token : Token} {tokens : List Token}
    (h : Reads rest tokens) (hgap : splitGap cs = ([], cs)) (hnext : next? cs = some (token, text, rest))
    (hfault : token.fault? = none) : Reads cs (token :: tokens) := by
  intro offset
  obtain ⟨lexemes, hrest, htokens, hfaults⟩ := h (offset + byteCount text)
  refine ⟨⟨token, ⟨offset, offset + byteCount text⟩⟩ :: lexemes, ?_, ?_, ?_⟩
  · rw [lexemes?_token hgap hnext, hrest]
    rfl
  · simp [htokens]
  · simp [hfault, hfaults]

/-- There is no gap in front of a character that is no blank and starts no comment. -/
theorem splitGap_of_ne {c : Char} (hblank : isBlank c = false) (hslash : c ≠ '/') (cs : List Char) :
    splitGap (c :: cs) = ([], c :: cs) := by
  rw [splitGap]
  · simp [hblank]
  · intro rest heq
    exact absurd heq hslash
  · intro rest heq
    exact absurd heq hslash

theorem Reads.openBrace {cs : List Char} {tokens : List Token} (h : Reads cs tokens) :
    Reads ('{' :: cs) (.openBrace :: tokens) :=
  h.token (splitGap_of_ne (by decide) (by decide) cs) rfl rfl

theorem Reads.closeBrace {cs : List Char} {tokens : List Token} (h : Reads cs tokens) :
    Reads ('}' :: cs) (.closeBrace :: tokens) :=
  h.token (splitGap_of_ne (by decide) (by decide) cs) rfl rfl

theorem Reads.openParen {cs : List Char} {tokens : List Token} (h : Reads cs tokens) :
    Reads ('(' :: cs) (.openParen :: tokens) :=
  h.token (splitGap_of_ne (by decide) (by decide) cs) rfl rfl

theorem Reads.closeParen {cs : List Char} {tokens : List Token} (h : Reads cs tokens) :
    Reads (')' :: cs) (.closeParen :: tokens) :=
  h.token (splitGap_of_ne (by decide) (by decide) cs) rfl rfl

theorem Reads.comma {cs : List Char} {tokens : List Token} (h : Reads cs tokens) :
    Reads (',' :: cs) (.comma :: tokens) :=
  h.token (splitGap_of_ne (by decide) (by decide) cs) rfl rfl

theorem Reads.assign {cs : List Char} {tokens : List Token} (h : Reads cs tokens) :
    Reads (':' :: '=' :: cs) (.assign :: tokens) :=
  h.token (splitGap_of_ne (by decide) (by decide) ('=' :: cs)) rfl rfl

theorem Reads.arrow {cs : List Char} {tokens : List Token} (h : Reads cs tokens) :
    Reads ('-' :: '>' :: cs) (.arrow :: tokens) :=
  h.token (splitGap_of_ne (by decide) (by decide) ('>' :: cs)) rfl rfl

/-- A written string literal, whatever its characters are. -/
theorem Reads.string {cs : List Char} {tokens : List Token} (h : Reads cs tokens) (text : List Char) :
    Reads ('"' :: (Escape.encode text ++ '"' :: cs))
      (.literal .string (String.ofList text) :: tokens) := by
  have htoken : Token.ofStringBody (Escape.encode text) = .literal .string (String.ofList text) := by
    simp [Token.ofStringBody, Escape.decode_encode]
  have hnext : next? ('"' :: (Escape.encode text ++ '"' :: cs)) =
      some (.literal .string (String.ofList text), '"' :: (Escape.encode text ++ ['"']), cs) := by
    simp [next?, stringBody?_encode, htoken]
  exact h.token (splitGap_of_ne (by decide) (by decide) _) hnext rfl

/-- A word ends in front of any character that cannot be part of one. -/
theorem endsWord_cons {c : Char} (h : Word.isNameChar c = false) (cs : List Char) : EndsWord (c :: cs) := by
  intro d hd
  simp only [List.head?_cons, Option.mem_def, Option.some.injEq] at hd
  exact hd ▸ h

theorem endsWord_space (cs : List Char) : EndsWord (' ' :: cs) :=
  endsWord_cons (by decide) cs

/-- A text that opens with a name character opens with a word. -/
theorem next?_word {c : Char} (hc : Word.isNameChar c) (cs : List Char) :
    next? (c :: cs) =
      (Token.ofWord? ((c :: cs).takeWhile Word.isNameChar)).map
        (·, (c :: cs).takeWhile Word.isNameChar, (c :: cs).dropWhile Word.isNameChar) := by
  have hne (d : Char) (hd : Word.isNameChar d = false) (rest : List Char) : c :: cs ≠ d :: rest := by
    intro heq
    rw [(List.cons.inj heq).1, hd] at hc
    cases hc
  rw [next?]
  · exact hne '{' (by decide)
  · exact hne '}' (by decide)
  · exact hne '(' (by decide)
  · exact hne ')' (by decide)
  · exact hne ',' (by decide)
  · exact fun rest => hne ':' (by decide) ('=' :: rest)
  · exact fun rest => hne '-' (by decide) ('>' :: rest)
  · exact hne '"' (by decide)

/-- Words hold no escapes, so none of them is a fault. -/
theorem fault?_of_ofWord? {word : List Char} {token : Token} (h : Token.ofWord? word = some token) :
    token.fault? = none := by
  unfold Token.ofWord? at h
  dsimp only at h
  split at h
  · cases h; rfl
  split at h
  · cases h; rfl
  split at h
  · cases h; rfl
  split at h
  · cases h; rfl
  · cases h

/-- A word that the text behind it does not go on with is cut off as a whole. -/
theorem next?_of_word {cs word : List Char} {token : Token} (hend : EndsWord cs)
    (hchars : word.all Word.isNameChar) (hword : Token.ofWord? word = some token) :
    splitGap (word ++ cs) = ([], word ++ cs) ∧ next? (word ++ cs) = some (token, word, cs) := by
  have htake : (word ++ cs).takeWhile Word.isNameChar = word := by
    rw [List.takeWhile_append_of_pos (by simpa using hchars)]
    cases cs with
    | nil => simp
    | cons d rest => simp [hend d rfl]
  have hdrop : (word ++ cs).dropWhile Word.isNameChar = cs := by
    rw [List.dropWhile_append_of_pos (by simpa using hchars)]
    cases cs with
    | nil => rfl
    | cons d rest => simp [hend d rfl]
  cases word with
  | nil =>
    rw [ofWord?_nil] at hword
    cases hword
  | cons c rest =>
    have hc : Word.isNameChar c := by
      rw [List.all_cons, Bool.and_eq_true] at hchars
      exact hchars.1
    have hblank : isBlank c = false := by
      refine Bool.eq_false_iff.2 fun hb => ?_
      simp only [isBlank, Bool.or_eq_true, beq_iff_eq] at hb
      rcases hb with ((rfl | rfl) | rfl) | rfl <;> exact absurd hc (by decide)
    have hslash : c ≠ '/' := by
      rintro rfl
      exact absurd hc (by decide)
    have hnext := next?_word hc (rest ++ cs)
    rw [← List.cons_append, htake, hdrop, hword] at hnext
    exact ⟨splitGap_of_ne hblank hslash _, hnext⟩

theorem Reads.word {cs word : List Char} {token : Token} {tokens : List Token} (h : Reads cs tokens)
    (hend : EndsWord cs) (hchars : word.all Word.isNameChar) (hword : Token.ofWord? word = some token) :
    Reads (word ++ cs) (token :: tokens) := by
  obtain ⟨hgap, hnext⟩ := next?_of_word hend hchars hword
  exact h.token hgap hnext (fault?_of_ofWord? hword)

end YulBackend.Lexer
