import Mathlib.Data.List.Basic
import Mathlib.Data.List.Induction
import Mathlib.Tactic.Ring
import YulBackend.Literal

namespace YulBackend

theorem bigEndian_concat (bytes : List UInt8) (b : UInt8) :
    bigEndian (bytes ++ [b]) = 256 * bigEndian bytes + b.toNat := by
  rw [bigEndian, List.foldl_append]
  rfl

/-- Bytes make up a number with as many digits in base 256. -/
theorem bigEndian_lt (bytes : List UInt8) : bigEndian bytes < 256 ^ bytes.length := by
  induction bytes using List.reverseRecOn with
  | nil => exact Nat.one_pos
  | append_singleton bytes b ih =>
    have hb : b.toNat < 256 := b.toNat_lt
    rw [bigEndian_concat, List.length_append, List.length_singleton, pow_succ]
    omega

/-- As many bytes make up the same number only if they are the same. -/
theorem bigEndian_inj {bytes bytes' : List UInt8} (hlength : bytes.length = bytes'.length)
    (h : bigEndian bytes = bigEndian bytes') : bytes = bytes' := by
  induction bytes using List.reverseRecOn generalizing bytes' with
  | nil => exact (List.eq_nil_of_length_eq_zero hlength.symm).symm
  | append_singleton bytes b ih =>
    rw [List.length_append, List.length_singleton] at hlength
    obtain rfl | ⟨bytes', b', rfl⟩ := bytes'.eq_nil_or_concat'
    · cases hlength
    · rw [bigEndian_concat, bigEndian_concat] at h
      rw [List.length_append, List.length_singleton] at hlength
      have hb : b.toNat < 256 := b.toNat_lt
      have hb' : b'.toNat < 256 := b'.toNat_lt
      have hbytes : bytes = bytes' := ih (by omega) (by omega)
      have hlast : b = b' := UInt8.toNat_inj.1 (by omega)
      rw [hbytes, hlast]

/-- Each zero byte at the end multiplies the number by 256. -/
theorem bigEndian_append_replicate (bytes : List UInt8) (count : Nat) :
    bigEndian (bytes ++ List.replicate count 0) = bigEndian bytes * 256 ^ count := by
  induction count with
  | zero => simp
  | succ count ih =>
    rw [List.replicate_succ', ← List.append_assoc, bigEndian_concat, ih, pow_succ', UInt8.toNat_zero]
    ring

/-- The bytes of a word are the given ones and zeros behind them. -/
theorem leftAligned_eq (bytes : List UInt8) :
    leftAligned bytes = bigEndian (bytes ++ List.replicate (wordBytes - bytes.length) 0) := by
  rw [bigEndian_append_replicate, leftAligned, Nat.shiftLeft_eq, pow_mul]
  rfl

/-- Texts of the same word have as many bytes that are not zero. -/
theorem countP_ne_zero_of_leftAligned_eq {bytes bytes' : List UInt8} (hlength : bytes.length ≤ wordBytes)
    (hlength' : bytes'.length ≤ wordBytes) (h : leftAligned bytes = leftAligned bytes') :
    bytes.countP (· ≠ 0) = bytes'.countP (· ≠ 0) := by
  rw [leftAligned_eq, leftAligned_eq] at h
  have hbytes := congrArg (List.countP (· ≠ 0)) (bigEndian_inj (by simp; omega) h)
  simpa [List.countP_append, List.countP_replicate] using hbytes

/-- At most thirty-two bytes, put at the high end, make up a word. -/
theorem leftAligned_lt {bytes : List UInt8} (h : bytes.length ≤ wordBytes) :
    leftAligned bytes < 2 ^ wordBits := by
  have hpow : 2 ^ wordBits = 256 ^ bytes.length * 2 ^ (8 * (wordBytes - bytes.length)) := by
    have hbase : (256 : Nat) = 2 ^ 8 := rfl
    rw [hbase, ← pow_mul, ← pow_add, ← Nat.mul_add, Nat.add_sub_cancel' h]
    rfl
  rw [leftAligned, Nat.shiftLeft_eq, hpow]
  exact Nat.mul_lt_mul_of_pos_right (bigEndian_lt bytes) (Nat.two_pow_pos _)

/-- Whatever `word` gives for a literal fits into a word: a number that does not is refused, and so is a string of more
than thirty-two bytes. -/
theorem Literal.word_lt {l : Literal} {n : Nat} (h : l.word = .ok n) : n < 2 ^ wordBits := by
  have hone : 1 < 2 ^ wordBits := by decide
  rw [Literal.word] at h
  cases hkind : l.kind with
  | number =>
    simp only [hkind] at h
    cases hvalue : numberValue? l.value.toList with
    | none => simp [hvalue] at h
    | some m =>
      simp only [hvalue] at h
      split at h
      next hlt =>
        cases h
        rwa [Nat.one_shiftLeft] at hlt
      next => cases h
  | boolean =>
    simp only [hkind] at h
    split at h
    · cases h
      exact hone
    · split at h <;> cases h
      exact Nat.zero_lt_of_lt hone
  | string =>
    simp only [hkind] at h
    split at h
    next hlength =>
      cases h
      exact leftAligned_lt hlength
    next => cases h

end YulBackend
