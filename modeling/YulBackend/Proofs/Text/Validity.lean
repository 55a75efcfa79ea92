import Mathlib.Data.Nat.Digits.Defs
import YulBackend.Proofs.Syntax.WellFormed
import YulBackend.Proofs.Text.Escape

namespace YulBackend.Escape

/-- What reads as a byte in base sixteen: hexadecimal digits of a number below 256, at least one of them, behind
a plus sign or not. -/
def IsByte (text : List Char) : Prop :=
  ∃ (digits : List Char) (values : List Nat), (text = digits ∨ text = '+' :: digits) ∧ digits ≠ [] ∧
    digits.map hexValue? = values.map some ∧ Nat.ofDigits 16 values.reverse < 256

/-- Raw texts in which every backslash opens an escape. To `\x` belong the two characters behind it, or as many
as there are. -/
inductive Valid : List Char → Prop
  | nil : Valid []
  | plain {c : Char} {rest : List Char} : c ≠ '\\' → Valid rest → Valid (c :: rest)
  | letter {c : Char} {rest : List Char} :
    c ∈ ['n', 'r', 't', '\\', '"', '\''] → Valid rest → Valid ('\\' :: c :: rest)
  | hex {following : List Char} :
    IsByte (following.take 2) → Valid (following.drop 2) → Valid ('\\' :: 'x' :: following)

/-- A hexadecimal digit is less than sixteen, in either case of its letter. -/
theorem hexValue?_lt {c : Char} {n : Nat} (h : hexValue? c = some n) : n < 16 := by
  unfold hexValue? at h
  split at h
  next hdigit =>
    cases h
    have hhigh : c.toNat ≤ 57 := (Word.isDigit_iff.1 hdigit).2
    have hzero : '0'.toNat = 48 := rfl
    omega
  split at h
  next hletter =>
    cases h
    have hhigh : c.toNat ≤ 102 := hletter.2
    have ha : 'a'.toNat = 97 := rfl
    omega
  split at h
  next hletter =>
    cases h
    have hhigh : c.toNat ≤ 70 := hletter.2
    have ha : 'A'.toNat = 65 := rfl
    omega
  cases h

theorem hexValue?_plus : hexValue? '+' = none := by
  decide

theorem not_isByte_nil : ¬ IsByte [] := by
  rintro ⟨digits, values, rfl | htext, hne, -⟩
  · exact hne rfl
  · cases htext

/-- One character behind `\x` is valid by `IsByte` if and only if `byte?` reads it. -/
theorem isByte_one_iff {c : Char} : IsByte [c] ↔ (byte? [c]).isSome := by
  constructor
  · rintro ⟨digits, values, rfl | htext, hne, hvalues, -⟩
    · obtain ⟨n, -, hn⟩ := List.map_eq_singleton_iff.1 hvalues.symm
      exact Option.isSome_iff_exists.2 ⟨n, hn.symm⟩
    · exact absurd (List.cons.inj htext).2.symm hne
  · intro h
    obtain ⟨n, hn⟩ := Option.isSome_iff_exists.1 h
    have hvalue : hexValue? c = some n := hn
    have hlt := hexValue?_lt hvalue
    exact ⟨[c], [n], .inl rfl, by simp, by simp [hvalue], by simp; omega⟩

/-- Two characters behind `\x` are valid by `IsByte` if and only if `byte?` reads them, a plus sign in front of one
digit included. -/
theorem isByte_two_iff {a b : Char} : IsByte [a, b] ↔ (byte? [a, b]).isSome := by
  by_cases hplus : a = '+'
  · subst hplus
    constructor
    · rintro ⟨digits, values, rfl | htext, hne, hvalues, -⟩
      · obtain ⟨n, -, -, hn, -⟩ := List.map_eq_cons_iff.1 hvalues.symm
        rw [hexValue?_plus] at hn
        cases hn
      · obtain ⟨-, rfl⟩ := List.cons.inj htext
        obtain ⟨n, -, hn⟩ := List.map_eq_singleton_iff.1 hvalues.symm
        exact Option.isSome_iff_exists.2 ⟨n, by simp [byte?, hn]⟩
    · intro h
      obtain ⟨n, hn⟩ := Option.isSome_iff_exists.1 h
      have hvalue : hexValue? b = some n := by simpa [byte?] using hn
      have hlt := hexValue?_lt hvalue
      exact ⟨[b], [n], .inr rfl, by simp, by simp [hvalue], by simp; omega⟩
  · constructor
    · rintro ⟨digits, values, rfl | htext, hne, hvalues, -⟩
      · obtain ⟨m, ms, rfl, hm, hms⟩ := List.map_eq_cons_iff.1 hvalues.symm
        obtain ⟨n, rfl, hn⟩ := List.map_eq_singleton_iff.1 hms
        simp [byte?, hplus, ← hm, ← hn]
      · exact absurd (List.cons.inj htext).1 hplus
    · intro h
      obtain ⟨value, hvalue⟩ := Option.isSome_iff_exists.1 h
      simp only [byte?, if_neg hplus, Option.bind_eq_bind, Option.bind_eq_some_iff] at hvalue
      obtain ⟨m, hm, n, hn, -⟩ := hvalue
      have hmlt := hexValue?_lt hm
      have hnlt := hexValue?_lt hn
      exact ⟨[a, b], [m, n], .inl rfl, by simp, by simp [hm, hn], by simp [Nat.ofDigits_cons]; omega⟩

theorem isOk_hexEscape_iff {digits : List Char} : (hexEscape digits).isOk ↔ (byte? digits).isSome := by
  unfold hexEscape
  split <;> simp [*, Except.isOk, Except.toBool]

theorem isOk_return_cons (c : Except String Char) (rest : Except String (List Char)) :
    (return (← c) :: (← rest) : Except String (List Char)).isOk ↔ c.isOk ∧ rest.isOk := by
  cases c <;> cases rest <;> simp [Except.isOk, Except.toBool, bind, Except.bind, pure, Except.pure]

theorem mem_letters_iff {c : Char} : c ∈ ['n', 'r', 't', '\\', '"', '\''] ↔ (letter? c).isSome := by
  unfold letter?
  split <;> simp_all

/-- A raw text whose `\x` has fewer than two characters behind it ends there. -/
theorem valid_hex_short_iff {digits : List Char} (hshort : digits.length < 2) :
    Valid ('\\' :: 'x' :: digits) ↔ (byte? digits).isSome := by
  have htake : digits.take 2 = digits := List.take_of_length_le (by omega)
  have hdrop : digits.drop 2 = [] := List.drop_of_length_le (by omega)
  have hbyte : IsByte digits ↔ (byte? digits).isSome := by
    match digits, hshort with
    | [], _ => exact ⟨fun h => absurd h not_isByte_nil, fun h => by cases h⟩
    | [c], _ => exact isByte_one_iff
  rw [← hbyte]
  constructor
  · rintro (_ | ⟨hplain, -⟩ | ⟨hletter, -⟩ | ⟨hbyte, -⟩)
    · exact absurd rfl hplain
    · exact absurd hletter (by decide)
    · rwa [htake] at hbyte
  · intro h
    rw [← htake] at h
    exact .hex h (hdrop ▸ .nil)

/-- Reading a raw text succeeds exactly if all its escapes are valid. -/
theorem isOk_decode_iff {raw : List Char} : (decode raw).isOk ↔ Valid raw := by
  fun_induction decode raw with
  | case1 => exact ⟨fun _ => .nil, fun _ => rfl⟩
  | case2 a b rest ih =>
    rw [isOk_return_cons, isOk_hexEscape_iff, ← isByte_two_iff, ih]
    constructor
    · rintro ⟨hbyte, hrest⟩
      exact .hex hbyte hrest
    · rintro (_ | ⟨hplain, -⟩ | ⟨hletter, -⟩ | ⟨hbyte, hrest⟩)
      · exact absurd rfl hplain
      · exact absurd hletter (by decide)
      · exact ⟨hbyte, hrest⟩
  | case3 digits hlong =>
    have hshort : digits.length < 2 := by
      match digits, hlong with
      | [], _ => simp
      | [_], _ => simp
      | a :: b :: rest, hlong => exact absurd rfl (hlong a b rest)
    rw [valid_hex_short_iff hshort, ← isOk_hexEscape_iff]
    cases hexEscape digits <;> rfl
  | case4 c rest _ hx d hletter ih =>
    have hmem := mem_letters_iff.2 (Option.isSome_of_eq_some hletter)
    refine (isOk_return_cons (.ok d) (decode rest)).trans ((and_congr_right' ih).trans ?_)
    constructor
    · rintro ⟨-, hrest⟩
      exact .letter hmem hrest
    · rintro (_ | ⟨hplain, -⟩ | ⟨-, hrest⟩ | _)
      · exact absurd rfl hplain
      · exact ⟨rfl, hrest⟩
      · exact absurd rfl hx
  | case5 c rest _ hx hletter =>
    refine ⟨fun h => (nomatch h), ?_⟩
    rintro (_ | ⟨hplain, -⟩ | ⟨hmem, -⟩ | _)
    · exact absurd rfl hplain
    · rw [mem_letters_iff, hletter] at hmem
      cases hmem
    · exact absurd rfl hx
  | case6 =>
    refine ⟨fun h => (nomatch h), ?_⟩
    rintro (_ | ⟨hplain, -⟩)
    exact absurd rfl hplain
  | case7 c rest _ _ hpair hlast ih =>
    have hc : c ≠ '\\' := by
      rintro rfl
      cases rest with
      | nil => exact hlast rfl rfl
      | cons d tail => exact hpair d tail rfl rfl
    refine (isOk_return_cons (.ok c) (decode rest)).trans ((and_congr_right' ih).trans ?_)
    constructor
    · rintro ⟨-, hrest⟩
      exact .plain hc hrest
    · rintro (_ | ⟨-, hrest⟩ | _ | _)
      · exact ⟨rfl, hrest⟩
      · exact absurd rfl hc
      · exact absurd rfl hc

end YulBackend.Escape
