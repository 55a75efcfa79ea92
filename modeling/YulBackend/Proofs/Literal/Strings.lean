import YulBackend.Proofs.Literal.Words
import YulBackend.Proofs.Parser.Places
import YulBackend.Proofs.Text.Marks

namespace YulBackend

open Escape

variable {value : Literal} {raw : List Char} {marks : List Mark}

theorem Literal.value_eq_text (hdecode : decode raw = .ok value.value.toList) (hmarks : Spells raw marks) :
    value.value = Mark.text marks := by
  rw [hmarks.decode] at hdecode
  rw [Mark.text, Except.ok.inj hdecode, String.ofList_toList]

/-- The word is made of the bytes of the text that is read, if they are not too many. -/
theorem Literal.word_eq_of_spells (hkind : value.kind = .string) (hvalue : value.value = Mark.text marks) :
    value.word = if (Mark.allDenoted marks).length + marks.countP Mark.isHigh ≤ wordBytes then
      .ok (leftAligned (utf8Bytes (Mark.text marks))) else .error (.longString (Mark.text marks)) := by
  rw [Literal.word, hkind, hvalue, ← (Mark.length_utf8Bytes_text marks).1]

/-- The bytes that are denoted make up the word just if none of them lies outside of ASCII or they are too many. -/
theorem Literal.word_eq_ok_iff_denoted (hkind : value.kind = .string) (hvalue : value.value = Mark.text marks) :
    (∀ w, value.word = .ok w ↔
        (Mark.allDenoted marks).length ≤ wordBytes ∧ w = leftAligned (Mark.allDenoted marks)) ↔
      (∀ mark ∈ marks, mark.isHigh = false) ∨ wordBytes < (Mark.allDenoted marks).length := by
  have hword := Literal.word_eq_of_spells hkind hvalue
  obtain ⟨hlength, hcount⟩ := Mark.length_utf8Bytes_text marks
  constructor
  · intro h
    by_contra! hnot
    obtain ⟨⟨mark, hmark, hhigh⟩, hfits⟩ := hnot
    have hpos : 0 < marks.countP Mark.isHigh := List.countP_pos_iff.2 ⟨mark, hmark, by simpa using hhigh⟩
    have hdenoted := (h (leftAligned (Mark.allDenoted marks))).2 ⟨hfits, rfl⟩
    rw [hword] at hdenoted
    split at hdenoted
    next hle =>
      -- The two words would have the same bytes but for zeros, and reading adds one that is none.
      have hcount' := countP_ne_zero_of_leftAligned_eq (hlength ▸ hle) hfits (Except.ok.inj hdenoted)
      omega
    next => cases hdenoted
  · rintro (hlow | hlong) w
    · have hnone : marks.countP Mark.isHigh = 0 := List.countP_eq_zero.2 fun mark hmark => by simp [hlow mark hmark]
      rw [hword, hnone, Mark.utf8Bytes_text hlow, Nat.add_zero]
      split
      next hle => exact ⟨fun h => ⟨hle, (Except.ok.inj h).symm⟩, fun h => congrArg _ h.2.symm⟩
      next hle => exact ⟨fun h => (nomatch h), fun h => absurd h.1 hle⟩
    · rw [hword, if_neg (by omega)]
      exact ⟨fun h => (nomatch h), fun h => absurd h.1 (by omega)⟩

/-- The literal in a program that is a call with nothing else in its parentheses. -/
def Block.onlyLiteral? : Block → Option Literal
  | ⟨_, [.expression (.call _ _ [.literal value])]⟩ => some value
  | _ => none

/-- The only literal of a text is a node of the program that `parse` reads. -/
theorem exists_program_of_onlyLiteral? {source : String}
    (h : (parse source).toOption.bind Block.onlyLiteral? = some value) :
    ∃ program, parse source = .ok program ∧ (Node.block program).Contains (.literal value) := by
  obtain ⟨program, hparse, honly⟩ := Option.bind_eq_some_iff.1 h
  refine ⟨program, ?_, ?_⟩
  · cases hresult : parse source with
    | error e => rw [hresult] at hparse; cases hparse
    | ok b => rw [hresult] at hparse; cases hparse; rfl
  · unfold Block.onlyLiteral? at honly
    split at honly
    next span call callee literal =>
      cases honly
      have hliteral : (Node.expr (.literal value)).Contains (.literal value) := .child List.mem_cons_self (.self _)
      have hcall : (Node.expr (.call call callee [.literal value])).Contains (.literal value) :=
        .child (List.mem_cons_of_mem _ List.mem_cons_self) hliteral
      exact .child List.mem_cons_self (.child List.mem_cons_self hcall)
    next => cases honly

/-- `Literal.word` of a string literal in a program that `parse` read gives the bytes of the text that reading makes of
it, from the high end of a word on, if they are no more than the word has room for. These are the bytes that it
denotes, and one more for each `\x` that denotes no ASCII character. So it stands for the bytes that it denotes, if
they are no more than there is room for, exactly if there is no such `\x` or they are too many anyway. -/
theorem Literal.word_of_parse {source : String} {program : Block} (h : parse source = .ok program)
    (hmem : (Node.block program).Contains (.literal value)) (hkind : value.kind = .string) :
    ∃ raw, value.span.Slices source (String.ofList ('"' :: (raw ++ ['"']))) ∧
      (HexPairs raw → ∃ marks, Spells raw marks) ∧
      ∀ marks, Spells raw marks →
        (value.word = if (Mark.allDenoted marks).length + marks.countP Mark.isHigh ≤ wordBytes then
          .ok (leftAligned (utf8Bytes (Mark.text marks))) else .error (.longString (Mark.text marks))) ∧
        ((∀ w, value.word = .ok w ↔
            (Mark.allDenoted marks).length ≤ wordBytes ∧ w = leftAligned (Mark.allDenoted marks)) ↔
          (∀ mark ∈ marks, mark.isHigh = false) ∨ wordBytes < (Mark.allDenoted marks).length) := by
  have hshows : value.Shows source := (stands_of_parse h _ hmem).2
  rw [Literal.Shows, hkind] at hshows
  obtain ⟨raw, -, hdecode, hslices⟩ := hshows
  have hvalid : Valid raw := isOk_decode_iff.1 (by rw [hdecode]; rfl)
  refine ⟨raw, hslices, fun hpairs => exists_spells hpairs hvalid, fun marks hmarks => ?_⟩
  have hvalue := Literal.value_eq_text hdecode hmarks
  exact ⟨Literal.word_eq_of_spells hkind hvalue, Literal.word_eq_ok_iff_denoted hkind hvalue⟩

/-- Behind a letter, a `\x` that denotes no ASCII character. -/
theorem Literal.word_of_parse_hexEscape :
    ∃ program value, parse "\x7b f(\"a\\xff\") \x7d" = .ok program ∧
      (Node.block program).Contains (.literal value) ∧ value.kind = .string ∧
      ∃ raw, value.span.Slices "\x7b f(\"a\\xff\") \x7d" (String.ofList ('"' :: (raw ++ ['"']))) ∧
        (HexPairs raw → ∃ marks, Spells raw marks) ∧
        ∀ marks, Spells raw marks →
          (value.word = if (Mark.allDenoted marks).length + marks.countP Mark.isHigh ≤ wordBytes then
            .ok (leftAligned (utf8Bytes (Mark.text marks))) else .error (.longString (Mark.text marks))) ∧
          ((∀ w, value.word = .ok w ↔
              (Mark.allDenoted marks).length ≤ wordBytes ∧ w = leftAligned (Mark.allDenoted marks)) ↔
            (∀ mark ∈ marks, mark.isHigh = false) ∨ wordBytes < (Mark.allDenoted marks).length) := by
  have honly : (parse "\x7b f(\"a\\xff\") \x7d").toOption.bind Block.onlyLiteral? =
      some ⟨⟨4, 11⟩, .string, "aÿ"⟩ := by decide +kernel
  obtain ⟨program, hparse, hmem⟩ := exists_program_of_onlyLiteral? honly
  exact ⟨program, _, hparse, hmem, rfl, Literal.word_of_parse hparse hmem rfl⟩

/-- The one byte that `\xff` denotes fits into a word, but it is not what the literal stands for. -/
theorem Literal.word_ne_denoted_hexEscape :
    let source := "\x7b f(\"\\xff\") \x7d"
    let raw := "\\xff".toList
    HexPairs raw ∧ Spells raw [.byte 0xff] ∧ (Mark.allDenoted [.byte 0xff]).length ≤ wordBytes ∧
      leftAligned (Mark.allDenoted [.byte 0xff]) = 0xff <<< 248 ∧
      ∃ program value, parse source = .ok program ∧ (Node.block program).Contains (.literal value) ∧
        value.span.Slices source (String.ofList ('"' :: (raw ++ ['"']))) ∧ value.kind = .string ∧
        value.word = .ok (0xc3bf <<< 240) ∧ value.word ≠ .ok (leftAligned (Mark.allDenoted [.byte 0xff])) := by
  intro source raw
  have honly : (parse source).toOption.bind Block.onlyLiteral? = some ⟨⟨4, 10⟩, .string, "ÿ"⟩ := by decide +kernel
  obtain ⟨program, hparse, hmem⟩ := exists_program_of_onlyLiteral? honly
  have hpairs : HexPairs raw := ⟨by decide, by decide, trivial⟩
  have hspells : Spells raw [.byte 0xff] := .hex (m := 15) (n := 15) (by decide) (by decide) .nil
  have hslices : (⟨4, 10⟩ : Span).Slices source (String.ofList ('"' :: (raw ++ ['"']))) :=
    ⟨"\x7b f(", ") \x7d", by decide, by decide, by decide⟩
  exact ⟨hpairs, hspells, by decide, by decide, program, _, hparse, hmem, hslices, rfl, by decide, by decide⟩

end YulBackend
