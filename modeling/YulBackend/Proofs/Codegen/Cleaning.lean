import YulBackend.Proofs.Codegen.Requests
import YulBackend.Proofs.Semantics.Evm

namespace YulBackend

namespace SourceType

/-- Widths that the source language has. -/
def hasProperWidth : SourceType → Bool
  | uint bits | int bits => bits % 8 == 0 && 8 ≤ bits && bits ≤ wordBits
  | fixedBytes count => 1 ≤ count && count ≤ wordBytes
  | _ => true

/-- The word of the value whose bits a word holds. -/
def clean : SourceType → Word → Word
  | bool, word => if word = 0 then 0 else 1
  | uint bits, word => (word.setWidth bits).setWidth wordBits
  | int bits, word => (word.setWidth bits).signExtend wordBits
  | address, word | contract _, word => (word.setWidth 160).setWidth wordBits
  | fixedBytes count, word => (word >>> (8 * (wordBytes - count))) <<< (8 * (wordBytes - count))
  | enum _, word => (word.setWidth 8).setWidth wordBits
  | _, word => word

/-- Cutting a word to its low bits twice is cutting it once. -/
theorem setWidth_setWidth_idem (bits : Nat) (word : Word) :
    (((word.setWidth bits).setWidth wordBits).setWidth bits).setWidth wordBits =
      (word.setWidth bits).setWidth wordBits := by
  ext i hi
  simp only [BitVec.getElem_setWidth, BitVec.getLsbD_setWidth]
  grind

/-- The low bits of a sign extension are the value that was extended. -/
theorem setWidth_signExtend {bits : Nat} (h : bits ≤ wordBits) (value : BitVec bits) :
    (value.signExtend wordBits).setWidth bits = value := by
  ext i hi
  have hi' : i < wordBits := by omega
  rw [BitVec.getElem_setWidth, BitVec.getLsbD_signExtend, decide_eq_true hi', if_pos hi, Bool.true_and,
    BitVec.getLsbD_eq_getElem]

/-- Extending the sign of the low bits twice is extending it once. -/
theorem signExtend_setWidth_idem (bits : Nat) (word : Word) :
    (((word.setWidth bits).signExtend wordBits).setWidth bits).signExtend wordBits =
      (word.setWidth bits).signExtend wordBits := by
  rcases Nat.le_total bits wordBits with h | h
  · rw [setWidth_signExtend h]
  · have hall : ∀ word : Word, (word.setWidth bits).signExtend wordBits = word := by
      intro word
      rw [BitVec.signExtend_eq_setWidth_of_le _ h, BitVec.setWidth_setWidth_of_le _ h, BitVec.setWidth_eq]
    rw [hall, hall]

/-- Clearing the low bits by shifting twice is clearing them once. -/
theorem shift_shift_idem (count : Nat) (word : Word) :
    (((word >>> count) <<< count) >>> count) <<< count = (word >>> count) <<< count := by
  ext i hi
  simp only [BitVec.getElem_shiftLeft, BitVec.getLsbD_shiftLeft, BitVec.getElem_ushiftRight,
    BitVec.getLsbD_ushiftRight]
  grind

/-- Cleaning a clean word changes nothing. -/
theorem clean_clean (t : SourceType) (word : Word) : t.clean (t.clean word) = t.clean word := by
  cases t with
  | bool =>
    rw [clean, clean]
    split <;> rfl
  | uint bits => exact setWidth_setWidth_idem bits word
  | int bits => exact signExtend_setWidth_idem bits word
  | address | contract => exact setWidth_setWidth_idem 160 word
  | fixedBytes count => exact shift_shift_idem _ word
  | enum => exact setWidth_setWidth_idem 8 word
  | _ => rfl

end SourceType

section

open Evm Execution

/-- A mask of low ones keeps just the low bits. -/
theorem Word.and_low (word : Word) {bits : Nat} (h : bits ≤ wordBits) :
    word &&& BitVec.ofNat wordBits (2 ^ bits - 1) = (word.setWidth bits).setWidth wordBits := by
  have hmask : 2 ^ bits - 1 < 2 ^ wordBits :=
    Nat.lt_of_lt_of_le (Nat.sub_one_lt (Nat.two_pow_pos bits).ne') (Nat.pow_le_pow_right (by decide) h)
  have hlow : word.toNat % 2 ^ bits < 2 ^ wordBits := Nat.lt_of_le_of_lt (Nat.mod_le _ _) word.isLt
  refine BitVec.eq_of_toNat_eq ?_
  rw [BitVec.toNat_and, BitVec.toNat_ofNat, Nat.mod_eq_of_lt hmask, Nat.and_two_pow_sub_one_eq_mod,
    BitVec.toNat_setWidth, BitVec.toNat_setWidth, Nat.mod_eq_of_lt hlow]

/-- A mask of leading bytes of ones keeps just the leading bytes. -/
theorem Word.and_leading (word : Word) {count : Nat} (h : count ≤ wordBytes) :
    word &&& BitVec.ofNat wordBits (2 ^ (8 * (wordBytes - count)) * (2 ^ (8 * count) - 1)) =
      (word >>> (8 * (wordBytes - count))) <<< (8 * (wordBytes - count)) := by
  have hsplit : 8 * (wordBytes - count) + 8 * count = wordBits := by
    rw [← Nat.mul_add, Nat.sub_add_cancel h]
    rfl
  refine BitVec.eq_of_getLsbD_eq fun i hi => ?_
  rw [BitVec.getLsbD_and, BitVec.getLsbD_ofNat, Nat.testBit_two_pow_mul, Nat.testBit_two_pow_sub_one,
    BitVec.getLsbD_shiftLeft, BitVec.getLsbD_ushiftRight]
  by_cases hlow : i < 8 * (wordBytes - count)
  · simp [hlow]
  · have hhigh : i - 8 * (wordBytes - count) < 8 * count := by omega
    have hsum : 8 * (wordBytes - count) + (i - 8 * (wordBytes - count)) = i := by omega
    simp [hi, hlow, hhigh, hsum, Nat.not_lt.1 hlow]

variable {other : String → List Nat → World → Option (List Nat) × World} {unvalued : Literal → Nat}
  {call : String → List Nat → Exec World (List Nat)} {V : Locals} {m m' : Machine World} {e : Expr} {word : Word}

section

variable (he : eval (interpretation other unvalued) call V e m = (.ok [word.toNat], m'))

include he

/-- The expression that masks low bits evaluates to the low bits, also at full width, where it is left out. -/
theorem eval_low {bits : Nat} (h : bits ≤ wordBits) :
    eval (interpretation other unvalued) call V
        (if bits < 256 then .apply "and" [e, .hexadecimal ((1 <<< bits) - 1)] else e) m =
      (.ok [((word.setWidth bits).setWidth wordBits).toNat], m') := by
  split
  next hbits =>
    have hmask : 2 ^ bits - 1 < 2 ^ wordBits :=
      Nat.lt_of_lt_of_le (Nat.sub_one_lt (Nat.two_pow_pos bits).ne') (Nat.pow_le_pow_right (by decide) h)
    rw [Nat.one_shiftLeft, ← Word.and_low word h]
    exact eval_compute_two (i := .and) (evaluates_hexadecimal hmask) he rfl
  next hbits =>
    obtain rfl : bits = wordBits := by
      have hword : wordBits = 256 := rfl
      omega
    rwa [BitVec.setWidth_eq, BitVec.setWidth_eq]

/-- The expression that extends the sign evaluates to the extension of the low bits, for the widths a signed type may
have. -/
theorem eval_signExtend {bits : Nat} (h : (SourceType.int bits).hasProperWidth) :
    eval (interpretation other unvalued) call V
        (if bits < 256 then .apply "signextend" [.decimal (bits / 8 - 1), e] else e) m =
      (.ok [((word.setWidth bits).signExtend wordBits).toNat], m') := by
  have hword : wordBits = 256 := rfl
  simp only [SourceType.hasProperWidth, Bool.and_eq_true, beq_iff_eq, decide_eq_true_eq] at h
  split
  next hbits =>
    obtain ⟨count, rfl⟩ : ∃ count, bits = 8 * (count + 1) := ⟨bits / 8 - 1, by omega⟩
    have hcount : 8 * (count + 1) / 8 - 1 = count := by omega
    have hfits : count < 2 ^ wordBits := Nat.lt_of_lt_of_le (show count < 2 ^ 8 by omega) (by decide)
    have htoNat : (BitVec.ofNat wordBits count).toNat = count := by
      rw [BitVec.toNat_ofNat, Nat.mod_eq_of_lt hfits]
    rw [hcount]
    refine eval_compute_two (i := .signExtend) he (evaluates_decimal hfits) ?_
    have hbyte : count < wordBytes - 1 := show count < 31 by omega
    rw [compute?, htoNat, if_pos hbyte]
  next hbits =>
    obtain rfl : bits = wordBits := by omega
    rwa [BitVec.setWidth_eq, BitVec.signExtend_eq]

/-- The expression that masks leading bytes evaluates to those bytes, also for 32 of them, where it is left out. -/
theorem eval_leading {count : Nat} (h : count ≤ wordBytes) :
    eval (interpretation other unvalued) call V
        (if count < 32 then .apply "and" [e, .number (leadingByteMask count)] else e) m =
      (.ok [((word >>> (8 * (wordBytes - count))) <<< (8 * (wordBytes - count))).toNat], m') := by
  split
  next hcount =>
    have hmask : 2 ^ (8 * (wordBytes - count)) * (2 ^ (8 * count) - 1) < 2 ^ wordBits := by
      have hsplit : 2 ^ wordBits = 2 ^ (8 * (wordBytes - count)) * 2 ^ (8 * count) := by
        rw [← pow_add, ← Nat.mul_add, Nat.sub_add_cancel h]
        rfl
      rw [hsplit]
      exact Nat.mul_lt_mul_of_pos_left (Nat.sub_lt (Nat.two_pow_pos _) Nat.one_pos) (Nat.two_pow_pos _)
    rw [← Word.and_leading word h]
    exact eval_compute_two (i := .and) (evaluates_number (Literal.word_leadingByteMask h) hmask) he rfl
  next hcount =>
    obtain rfl : count = wordBytes := by
      have hword : wordBytes = 32 := rfl
      omega
    rwa [Nat.sub_self, Nat.mul_zero, BitVec.ushiftRight_zero, BitVec.shiftLeft_zero]

/-- The double negation evaluates to 1 for every word but zero. -/
theorem eval_truth :
    eval (interpretation other unvalued) call V (.apply "iszero" [.apply "iszero" [e]]) m =
      (.ok [(SourceType.bool.clean word).toNat], m') := by
  refine eval_compute_one (i := .isZero) (eval_compute_one (i := .isZero) he rfl) ?_
  rw [SourceType.clean, compute?]
  split <;> rfl

end

namespace SourceType

/-- An expression of a type of one slot can be cleaned. The result has the effects of the expression, and gives its
word cleaned. -/
theorem exists_cleanup_eq_ok {t : SourceType} (h : t.isSingleSlot) (hwidth : t.hasProperWidth) (e : Expr) :
    ∃ cleaned, t.cleanup e = .ok cleaned ∧
      ∀ {other unvalued call V m m'} {word : Word},
        eval (interpretation other unvalued) call V e m = (.ok [word.toNat], m') →
        eval (interpretation other unvalued) call V cleaned m = (.ok [(t.clean word).toNat], m') := by
  induction t, h using isSingleSlot_cases with
  | bool => exact ⟨_, rfl, eval_truth⟩
  | uint bits =>
    simp only [hasProperWidth, Bool.and_eq_true, decide_eq_true_eq] at hwidth
    refine ⟨if bits < 256 then .apply "and" [e, .hexadecimal ((1 <<< bits) - 1)] else e, ?_,
      fun he => eval_low he hwidth.2⟩
    simp only [cleanup, isValueType, valueBits?, if_true]
    split <;> rfl
  | int bits =>
    refine ⟨if bits < 256 then .apply "signextend" [.decimal (bits / 8 - 1), e] else e, ?_,
      fun he => eval_signExtend he hwidth⟩
    rw [cleanup]
    split <;> rfl
  | address => exact ⟨_, rfl, fun he => eval_low he (show 160 ≤ wordBits by decide)⟩
  | fixedBytes count =>
    simp only [hasProperWidth, Bool.and_eq_true, decide_eq_true_eq] at hwidth
    refine ⟨if count < 32 then .apply "and" [e, .number (leadingByteMask count)] else e, ?_,
      fun he => eval_leading he hwidth.2⟩
    rw [cleanup]
    split <;> rfl
  | enum _ => exact ⟨_, rfl, fun he => eval_low he (show 8 ≤ wordBits by decide)⟩
  | contract _ => exact ⟨_, rfl, fun he => eval_low he (show 160 ≤ wordBits by decide)⟩
  | function _ _ => exact ⟨_, rfl, id⟩

/-- The expression that a cleanup function computes cleans its parameter. -/
theorem evaluates_cleaned {t : SourceType} (h : t.isSingleSlot) (hwidth : t.hasProperWidth)
    (hvalue : V "value" = some word.toNat) :
    Evaluates (interpretation other unvalued) call V m t.cleaned (t.clean word) := by
  obtain ⟨cleaned, hcleaned, heval⟩ := exists_cleanup_eq_ok h hwidth (.var "value")
  obtain rfl : cleaned = t.cleaned := by
    rw [SourceType.cleaned, hcleaned]
    rfl
  exact heval (evaluates_var hvalue)

end SourceType

/-- A cleanup function gives its argument cleaned, and does nothing else. -/
theorem SourceType.callFunction_cleanup {t : SourceType} (h : t.isSingleSlot) (hwidth : t.hasProperWidth)
    {fuel : Nat} {F F' : Functions} (hfind : F.find? t.cleanupDefinition.name = some (t.cleanupDefinition, F')) :
    callFunction (interpretation other unvalued) (fuel + 1) F t.cleanupDefinition.name [word.toNat] m =
      (.ok [(t.clean word).toNat], m) := by
  let V : Locals := t.cleanupDefinition.locals [word.toNat]
  have hvalue : V "value" = some word.toNat := rfl
  have hcleaned : (V "cleaned").isSome := rfl
  have hbody : execAll (interpretation other unvalued) (callFunction (interpretation other unvalued) fuel) fuel
      ([] :: F') V [.assign ["cleaned"] t.cleaned] m =
        (.ok (.normal, V.set "cleaned" (t.clean word).toNat), m) :=
    execAll_cons (exec_assign (evaluates_cleaned h hwidth hvalue) hcleaned)
  rw [callFunction_of_ok hfind rfl rfl hbody]
  rfl

namespace SourceType

/-- Cleaning a word of this type gives this result: the remainder for a type without a sign, the congruent number
nearest to zero for one with a sign, the first bytes for a type of bytes, and one for any truth but zero. -/
def Cleans : SourceType → Word → Word → Prop
  | bool, word, result => result.toNat = if word = 0 then 0 else 1
  | uint bits, word, result => result.toNat = word.toNat % 2 ^ bits
  | int bits, word, result => result.toInt = (word.toNat : Int).bmod (2 ^ bits)
  | address, word, result | contract _, word, result => result.toNat = word.toNat % 2 ^ 160
  | fixedBytes count, word, result => bytesOf wordBytes result.toNat =
      (bytesOf wordBytes word.toNat).take count ++ List.replicate (wordBytes - count) 0
  | enum _, word, result => result.toNat = word.toNat % 2 ^ 8
  | _, word, result => result = word

theorem toNat_setWidth_setWidth (word : Word) (bits : Nat) :
    ((word.setWidth bits).setWidth wordBits).toNat = word.toNat % 2 ^ bits := by
  have hlow : word.toNat % 2 ^ bits < 2 ^ wordBits := Nat.lt_of_le_of_lt (Nat.mod_le _ _) word.isLt
  rw [BitVec.toNat_setWidth, BitVec.toNat_setWidth, Nat.mod_eq_of_lt hlow]

theorem toInt_signExtend_setWidth {bits : Nat} (word : Word) (h : bits ≤ wordBits) :
    ((word.setWidth bits).signExtend wordBits).toInt = (word.toNat : Int).bmod (2 ^ bits) := by
  rw [BitVec.toInt_signExtend, BitVec.toInt_setWidth, Nat.min_eq_right h, Int.bmod_bmod]

/-- The leading bytes of a word are the word with the bytes behind set to zero. -/
theorem toNat_shift_shift (word : Word) (low : Nat) :
    ((word >>> (8 * low)) <<< (8 * low)).toNat = word.toNat / 256 ^ low * 256 ^ low := by
  have hpow : (2 : Nat) ^ (8 * low) = 256 ^ low := by rw [pow_mul]; rfl
  have hle : word.toNat / 256 ^ low * 256 ^ low < 2 ^ wordBits :=
    Nat.lt_of_le_of_lt (Nat.div_mul_le_self _ _) word.isLt
  rw [BitVec.toNat_shiftLeft, BitVec.toNat_ushiftRight, Nat.shiftRight_eq_div_pow, Nat.shiftLeft_eq, hpow,
    Nat.mod_eq_of_lt hle]

/-- What the cleanup of a type computes is the canonical word of that type. -/
theorem cleans_clean {t : SourceType} (h : t.isSingleSlot) (hwidth : t.hasProperWidth) (word : Word) :
    t.Cleans word (t.clean word) := by
  induction t, h using isSingleSlot_cases with
  | bool =>
    rw [Cleans, clean]
    split <;> rfl
  | uint bits => exact toNat_setWidth_setWidth word bits
  | int bits =>
    simp only [hasProperWidth, Bool.and_eq_true, decide_eq_true_eq] at hwidth
    exact toInt_signExtend_setWidth word hwidth.2
  | address | contract _ => exact toNat_setWidth_setWidth word 160
  | fixedBytes count =>
    simp only [hasProperWidth, Bool.and_eq_true, decide_eq_true_eq] at hwidth
    have hbytes := bytesOf_clear count (wordBytes - count) word.toNat
    rwa [Nat.add_sub_cancel' hwidth.2, ← toNat_shift_shift] at hbytes
  | enum _ => exact toNat_setWidth_setWidth word 8
  | function _ _ => rfl

/-- A type that fills a word leaves all words as they are. -/
theorem clean_of_valueBits? {t : SourceType} (h : t.valueBits? = some wordBits) (word : Word) :
    t.clean word = word := by
  cases t with
  | uint bits =>
    cases h
    rw [clean, BitVec.setWidth_eq, BitVec.setWidth_eq]
  | int bits =>
    cases h
    rw [clean, BitVec.setWidth_eq, BitVec.signExtend_eq]
  | fixedBytes count =>
    obtain rfl : count = wordBytes := Nat.eq_of_mul_eq_mul_right (by decide) (Option.some.inj h)
    rw [clean, Nat.sub_self, Nat.mul_zero, BitVec.ushiftRight_zero, BitVec.shiftLeft_zero]
  | function _ _ _ => cases h
  | _ => cases h

/-- What `SourceType.cleanup` makes of an expression, for a type of one slot, gives the word of the type that the
expression's word stands for, and cleaning that expression once more gives the same. -/
theorem eval_cleanup_cleanup {t : SourceType} (h : t.isSingleSlot) (hwidth : t.hasProperWidth) (value : Expr) :
    ∃ once twice, t.cleanup value = .ok once ∧ t.cleanup once = .ok twice ∧
      ∀ other unvalued call V m m' (word : Word),
        eval (interpretation other unvalued) call V value m = (.ok [word.toNat], m') →
        ∃ result : Word, eval (interpretation other unvalued) call V once m = (.ok [result.toNat], m') ∧
          eval (interpretation other unvalued) call V twice m = (.ok [result.toNat], m') ∧
          t.Cleans word result ∧ (t.valueBits? = some wordBits → result = word) := by
  obtain ⟨once, honce, hclean⟩ := exists_cleanup_eq_ok h hwidth value
  obtain ⟨twice, htwice, hcleanAgain⟩ := exists_cleanup_eq_ok h hwidth once
  refine ⟨once, twice, honce, htwice, fun other unvalued call V m m' word heval => ?_⟩
  have hagain := hcleanAgain (hclean heval)
  rw [clean_clean] at hagain
  exact ⟨t.clean word, hclean heval, hagain, cleans_clean h hwidth word, fun hfull => clean_of_valueBits? hfull word⟩

/-- The two low bytes of a word with bits above them, taken with a sign. -/
theorem eval_cleanup_cleanup_int16 :
    (int 16).isSingleSlot ∧ (int 16).hasProperWidth ∧ ∃ once, (int 16).cleanup (.hexadecimal 0x1fffe) = .ok once ∧
      ∀ call V m, ∃ result : Word,
        eval (interpretation (fun _ _ s => (none, s)) fun _ => 0) call V once m = (.ok [result.toNat], m) ∧
          result.toInt = -2 := by
  refine ⟨rfl, rfl, ?_⟩
  obtain ⟨once, _, honce, -, hrun⟩ :=
    eval_cleanup_cleanup (show (int 16).isSingleSlot from rfl) rfl (.hexadecimal 0x1fffe)
  refine ⟨once, honce, fun call V m => ?_⟩
  obtain ⟨result, hresult, -, hcleans, -⟩ := hrun (fun _ _ s => (none, s)) (fun _ => 0) call V m m 0x1fffe
    (evaluates_hexadecimal (by decide))
  have hnumber : result.toInt = ((0x1fffe : Word).toNat : Int).bmod (2 ^ 16) := hcleans
  exact ⟨result, hresult, hnumber.trans (by decide)⟩

end SourceType

end

end YulBackend
