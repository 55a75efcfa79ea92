import Mathlib.Tactic.Ring
import YulBackend.Codegen.Cleanup
import YulBackend.Literal
import YulBackend.Proofs.Syntax.WellFormed

namespace YulBackend

namespace Numeral

theorem digit?_digitChar : ∀ d < 16, digit? d.digitChar = some d := by
  decide

theorem digitChar_ne : ∀ d < 16, d.digitChar ≠ '_' ∧ d.digitChar ≠ '+' := by
  decide

/-- One more digit multiplies the value by the base and adds the digit. -/
theorem push?_digitChar {base d : Nat} (hbase : base ≤ 16) (hd : d < base) (value : Nat) :
    push? base value d.digitChar = some (base * value + d) := by
  have hdigit := digit?_digitChar d (by omega)
  have hne := digitChar_ne d (by omega)
  simp [push?, hdigit, hne, hd]

/-- Reading the digits of a number one by one gives the number, in any base up to sixteen. -/
theorem foldlM_toDigits {base : Nat} (hone : 1 < base) (hbase : base ≤ 16) (n : Nat) :
    (Nat.toDigits base n).foldlM (push? base) 0 = some n := by
  induction n using Nat.base_induction base hone with
  | single d hd =>
    rw [Nat.toDigits_of_lt_base hd, List.foldlM_cons, push?_digitChar hbase hd]
    simp
  | digit n d hd hn ih =>
    rw [← Nat.toDigits_append_toDigits hone hn hd, List.foldlM_append, ih, Nat.toDigits_of_lt_base hd]
    simp [push?_digitChar hbase hd]

/-- Digits are read one by one, unless the first character is a plus sign or no digit. -/
theorem read?_cons {c : Char} (hunderscore : c ≠ '_') (hplus : c ≠ '+') (base : Nat) (rest : List Char) :
    read? base (c :: rest) = (c :: rest).foldlM (push? base) 0 := by
  have hdrop : dropPlus (c :: rest) = c :: rest := by
    rw [dropPlus]
    · intro _ heq
      exact absurd (List.cons.inj heq).1 hplus
    · intro _ heq
      exact absurd (List.cons.inj heq).1 hplus
  rw [read?, hdrop]
  split
  next heq => cases heq
  next heq => exact absurd (List.cons.inj heq).1 hunderscore
  next => rfl

theorem exists_toDigits_eq_cons {base : Nat} (hone : 1 < base) (n : Nat) :
    ∃ d < base, ∃ rest, Nat.toDigits base n = d.digitChar :: rest := by
  induction n using Nat.base_induction base hone with
  | single d hd => exact ⟨d, hd, [], Nat.toDigits_of_lt_base hd⟩
  | digit n d hd hn ih =>
    obtain ⟨first, hfirst, rest, hrest⟩ := ih
    exact ⟨first, hfirst, rest ++ Nat.toDigits base d, by
      rw [← Nat.toDigits_append_toDigits hone hn hd, hrest, List.cons_append]⟩

/-- The digits of a number are read as the number, in any base up to sixteen. -/
theorem read?_toDigits {base : Nat} (hone : 1 < base) (hbase : base ≤ 16) (n : Nat) :
    read? base (Nat.toDigits base n) = some n := by
  obtain ⟨d, hd, rest, heq⟩ := exists_toDigits_eq_cons hone n
  obtain ⟨hunderscore, hplus⟩ := digitChar_ne d (by omega)
  rw [heq, read?_cons hunderscore hplus, ← heq, foldlM_toDigits hone hbase]

/-- Zeros at the end multiply the value by a power of sixteen. -/
theorem foldlM_replicate_zero (count value : Nat) :
    (List.replicate count '0').foldlM (push? 16) value = some (16 ^ count * value) := by
  induction count generalizing value with
  | zero => simp
  | succ count ih =>
    have hpush : push? 16 value '0' = some (16 * value) := push?_digitChar (d := 0) (by decide) (by decide) value
    rw [List.replicate_succ, List.foldlM_cons, hpush]
    exact (ih (16 * value)).trans (congrArg some (by ring))

/-- Digits `f` at the end fill the low bits of the value. -/
theorem foldlM_replicate_f (count value : Nat) :
    (List.replicate count 'f').foldlM (push? 16) value = some (16 ^ count * (value + 1) - 1) := by
  induction count generalizing value with
  | zero => simp
  | succ count ih =>
    have hpush : push? 16 value 'f' = some (16 * value + 15) := push?_digitChar (d := 15) (by decide) (by decide) value
    rw [List.replicate_succ, List.foldlM_cons, hpush]
    exact (ih (16 * value + 15)).trans (congrArg some (by ring_nf))

end Numeral

section

variable {n : Nat}

theorem Literal.word_number_of_numberValue? {text : String} (h : numberValue? text.toList = some n)
    (hn : n < 2 ^ wordBits) : (Literal.number text).word = .ok n := by
  have hlt : n < 1 <<< wordBits := by rwa [Nat.one_shiftLeft]
  simp only [number, word, h, if_pos hlt]

/-- A number that is written in decimal is read as itself. -/
theorem numberValue?_toString (n : Nat) : numberValue? (toString n).toList = some n := by
  have hx : ∀ digits, Nat.toDigits 10 n ≠ '0' :: 'x' :: digits := by
    intro digits heq
    have hdigit := Nat.isDigit_of_mem_toDigits (b := 10) (n := n) (c := 'x') (by decide) (by decide)
      (by rw [heq]; simp)
    exact absurd hdigit (by decide)
  rw [Nat.toString_eq_repr, Nat.toList_repr, numberValue?]
  · exact Numeral.read?_toDigits (by decide) (by decide) n
  · exact hx []
  · exact hx

theorem numberValue?_prefixed {digits : List Char} (hne : digits ≠ []) :
    numberValue? ('0' :: 'x' :: digits) = Numeral.read? 16 digits := by
  rw [numberValue?]
  exact hne

/-- A decimal number in code stands for itself. -/
theorem Literal.word_decimal (hn : n < 2 ^ wordBits) : (Literal.number (toString n)).word = .ok n :=
  word_number_of_numberValue? (numberValue?_toString n) hn

/-- A hexadecimal number in code stands for itself. -/
theorem Literal.word_hexadecimal (hn : n < 2 ^ wordBits) : (Literal.number (Hex.literal n)).word = .ok n := by
  refine word_number_of_numberValue? ?_ hn
  have htext : (Hex.literal n).toList = '0' :: 'x' :: Nat.toDigits 16 n := by simp [Hex.literal, Hex.ofNat]
  rw [htext, numberValue?_prefixed Nat.toDigits_ne_nil]
  exact Numeral.read?_toDigits (by decide) (by decide) n

/-- A byte is written with two digits, of which the first counts sixteens. -/
theorem Hex.toList_padded_two (h : n < 256) :
    (padded 2 n).toList = [(n / 16).digitChar, (n % 16).digitChar] := by
  rw [padded]
  by_cases hn : n < 16
  · rw [Nat.toDigits_of_lt_base hn, Nat.div_eq_of_lt hn, Nat.mod_eq_of_lt hn, String.toList_ofList]
    rfl
  · have hdiv : n / 16 < 16 := by omega
    have hdigits : Nat.toDigits 16 n = [(n / 16).digitChar, (n % 16).digitChar] := by
      have hlow : n % 16 < 16 := Nat.mod_lt n (by decide)
      have hsplit := Nat.toDigits_append_toDigits (by decide) (by omega : 0 < n / 16) hlow
      rw [Nat.div_add_mod, Nat.toDigits_of_lt_base hdiv, Nat.toDigits_of_lt_base hlow] at hsplit
      exact hsplit.symm
    rw [hdigits, String.toList_ofList]
    rfl

theorem Hex.toList_ofBytes_cons (b : UInt8) (bytes : List UInt8) :
    (ofBytes (b :: bytes)).toList =
      (b.toNat / 16).digitChar :: (b.toNat % 16).digitChar :: (ofBytes bytes).toList := by
  simp [ofBytes, toList_padded_two b.toNat_lt]

theorem Hex.ofBytes_append (bytes bytes' : List UInt8) :
    ofBytes (bytes ++ bytes') = ofBytes bytes ++ ofBytes bytes' := by
  simp [ofBytes, String.join_append]

/-- Reading the digits of bytes gives the number whose bytes they are, from the high end. -/
theorem Numeral.foldlM_ofBytes (bytes : List UInt8) (value : Nat) :
    (Hex.ofBytes bytes).toList.foldlM (push? 16) value =
      some (bytes.foldl (fun n b => 256 * n + b.toNat) value) := by
  induction bytes generalizing value with
  | nil => rfl
  | cons b bytes ih =>
    have hhigh : b.toNat / 16 < 16 := Nat.div_lt_of_lt_mul b.toNat_lt
    have hlow : b.toNat % 16 < 16 := Nat.mod_lt _ (by decide)
    have hbyte : 16 * (16 * value + b.toNat / 16) + b.toNat % 16 = 256 * value + b.toNat := by omega
    rw [Hex.toList_ofBytes_cons, List.foldlM_cons, push?_digitChar le_rfl hhigh, Option.bind_eq_bind, Option.bind_some,
      List.foldlM_cons, push?_digitChar le_rfl hlow, Option.bind_eq_bind, Option.bind_some, hbyte, ih, List.foldl_cons]

/-- The digits of bytes behind `0x` are read as the number whose bytes they are. -/
theorem numberValue?_ofBytes {bytes : List UInt8} (hne : bytes ≠ []) :
    numberValue? ("0x" ++ Hex.ofBytes bytes).toList = some (bigEndian bytes) := by
  obtain ⟨b, bytes, rfl⟩ := List.exists_cons_of_ne_nil hne
  have htext : ("0x" ++ Hex.ofBytes (b :: bytes)).toList = '0' :: 'x' :: (Hex.ofBytes (b :: bytes)).toList := by simp
  have hfold := Numeral.foldlM_ofBytes (b :: bytes) 0
  rw [Hex.toList_ofBytes_cons] at htext hfold
  obtain ⟨hunderscore, hplus⟩ := Numeral.digitChar_ne (b.toNat / 16) (Nat.div_lt_of_lt_mul b.toNat_lt)
  rw [htext, numberValue?_prefixed (List.cons_ne_nil _ _), Numeral.read?_cons hunderscore hplus, hfold, bigEndian]

/-- The digits of a mask, read one by one. -/
theorem foldlM_leadingByteMask (count : Nat) :
    (List.replicate (2 * count) 'f' ++ List.replicate (64 - 2 * count) '0').foldlM (Numeral.push? 16) 0 =
      some (2 ^ (8 * (wordBytes - count)) * (2 ^ (8 * count) - 1)) := by
  have hbase : 16 = 2 ^ 4 := rfl
  have hlow : 16 ^ (64 - 2 * count) = 2 ^ (8 * (wordBytes - count)) := by
    have hbits : 4 * (64 - 2 * count) = 8 * (32 - count) := by omega
    rw [hbase, ← pow_mul, hbits]
    rfl
  have hhigh : 16 ^ (2 * count) = 2 ^ (8 * count) := by
    have hbits : 4 * (2 * count) = 8 * count := by omega
    rw [hbase, ← pow_mul, hbits]
  rw [List.foldlM_append, Numeral.foldlM_replicate_f]
  refine (Numeral.foldlM_replicate_zero _ _).trans ?_
  rw [hlow, hhigh, Nat.zero_add, Nat.mul_one]

/-- A mask for leading bytes is read as the number with just these bytes set. -/
theorem numberValue?_leadingByteMask (count : Nat) :
    numberValue? (leadingByteMask count).toList =
      some (2 ^ (8 * (wordBytes - count)) * (2 ^ (8 * count) - 1)) := by
  let digits := List.replicate (2 * count) 'f' ++ List.replicate (64 - 2 * count) '0'
  have htext : (leadingByteMask count).toList = '0' :: 'x' :: digits := by simp [leadingByteMask, digits]
  have hfold : digits.foldlM (Numeral.push? 16) 0 = _ := foldlM_leadingByteMask count
  have hlength : digits.length = 2 * count + (64 - 2 * count) := by simp [digits]
  have hchars : ∀ c ∈ digits, c = 'f' ∨ c = '0' := by
    intro c hc
    simp only [digits, List.mem_append, List.mem_replicate] at hc
    exact hc.imp And.right And.right
  obtain ⟨c, rest, hcons⟩ := List.exists_cons_of_length_pos (show 0 < digits.length by omega)
  have hc : c ≠ '_' ∧ c ≠ '+' := by
    rcases hchars c (by rw [hcons]; exact List.mem_cons_self) with rfl | rfl <;> decide
  rw [htext, hcons, numberValue?_prefixed (List.cons_ne_nil _ _), Numeral.read?_cons hc.1 hc.2, ← hcons, hfold]

/-- A mask for at most thirty-two leading bytes is a word. -/
theorem Literal.word_leadingByteMask {count : Nat} (hcount : count ≤ wordBytes) :
    (Literal.number (leadingByteMask count)).word =
      .ok (2 ^ (8 * (wordBytes - count)) * (2 ^ (8 * count) - 1)) := by
  refine word_number_of_numberValue? (numberValue?_leadingByteMask count) ?_
  have hword : 2 ^ wordBits = 2 ^ (8 * (wordBytes - count)) * 2 ^ (8 * count) := by
    rw [← pow_add, ← Nat.mul_add, Nat.sub_add_cancel hcount]
    rfl
  rw [hword]
  exact Nat.mul_lt_mul_of_pos_left (Nat.sub_lt (Nat.two_pow_pos _) Nat.one_pos) (Nat.two_pow_pos _)

end

theorem Word.isNumber_toString (n : Nat) : isNumber (toString n).toList := by
  rw [Nat.toString_eq_repr, Nat.toList_repr]
  exact isNumber_decimal Nat.toDigits_ne_nil fun c hc => Nat.isDigit_of_mem_toDigits (by decide) (by decide) hc

end YulBackend
