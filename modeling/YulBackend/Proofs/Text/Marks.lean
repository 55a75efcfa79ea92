import YulBackend.Literal
import YulBackend.Proofs.Text.Validity

namespace YulBackend.Escape

/-- Behind every `\x` stand two hexadecimal digits. -/
def HexPairs : List Char → Prop
  | '\\' :: 'x' :: a :: b :: rest => (hexValue? a).isSome ∧ (hexValue? b).isSome ∧ HexPairs rest
  | '\\' :: 'x' :: _ => False
  | '\\' :: _ :: rest => HexPairs rest
  | _ :: rest => HexPairs rest
  | [] => True

/-- A character, which stands for itself or behind a backslash, or a byte, which stands behind `\x`. -/
inductive Mark
  | character (c : Char)
  | byte (b : UInt8)
deriving DecidableEq, Repr

/-- These marks follow each other in a raw text. -/
inductive Spells : List Char → List Mark → Prop
  | nil : Spells [] []
  | plain {c : Char} {raw : List Char} {marks : List Mark} :
    c ≠ '\\' → Spells raw marks → Spells (c :: raw) (.character c :: marks)
  | letter {c d : Char} {raw : List Char} {marks : List Mark} :
    letter? c = some d → Spells raw marks → Spells ('\\' :: c :: raw) (.character d :: marks)
  | hex {a b : Char} {m n : Nat} {raw : List Char} {marks : List Mark} :
    hexValue? a = some m → hexValue? b = some n → Spells raw marks →
    Spells ('\\' :: 'x' :: a :: b :: raw) (.byte (UInt8.ofNat (16 * m + n)) :: marks)

namespace Mark

/-- The bytes that a mark denotes. -/
def denoted : Mark → List UInt8
  | character c => String.utf8EncodeChar c
  | byte b => [b]

/-- The character that reading makes of a mark. -/
def char : Mark → Char
  | character c => c
  | byte b => Char.ofNat b.toNat

/-- A byte that is no ASCII character. -/
def isHigh : Mark → Bool
  | character _ => false
  | byte b => 128 ≤ b.toNat

theorem utf8EncodeChar_low : ∀ n < 128, String.utf8EncodeChar (Char.ofNat n) = [UInt8.ofNat n] := by
  decide

/-- The character of a byte from 0x80 on is encoded as two bytes, neither of which is zero. -/
theorem utf8EncodeChar_high : ∀ n < 256, 128 ≤ n → (String.utf8EncodeChar (Char.ofNat n)).length = 2 ∧
    (String.utf8EncodeChar (Char.ofNat n)).countP (· ≠ 0) = 2 := by
  decide +kernel

/-- A mark that is not high becomes exactly the byte that it denotes. -/
theorem utf8EncodeChar_char {mark : Mark} (h : mark.isHigh = false) :
    String.utf8EncodeChar mark.char = mark.denoted := by
  cases mark with
  | character c => rfl
  | byte b =>
    rw [char, utf8EncodeChar_low b.toNat (by simpa [isHigh] using h), UInt8.ofNat_toNat, denoted]

/-- A byte that is no ASCII character takes a byte more than it denotes, and neither of the two is zero. -/
theorem length_utf8EncodeChar_char {mark : Mark} (h : mark.isHigh) :
    (String.utf8EncodeChar mark.char).length = mark.denoted.length + 1 ∧
      (String.utf8EncodeChar mark.char).countP (· ≠ 0) = mark.denoted.countP (· ≠ 0) + 1 := by
  cases mark with
  | character c => cases h
  | byte b =>
    have hhigh : 128 ≤ b.toNat := by simpa [isHigh] using h
    have hne : b ≠ 0 := by
      rintro rfl
      exact absurd hhigh (by decide)
    obtain ⟨hlength, hcount⟩ := utf8EncodeChar_high b.toNat b.toNat_lt hhigh
    exact ⟨hlength, by rw [char, hcount, denoted]; simp [hne]⟩

/-- The bytes that marks denote, one after the other. -/
def allDenoted (marks : List Mark) : List UInt8 := marks.flatMap denoted

/-- The text that reading makes of marks. -/
def text (marks : List Mark) : String := String.ofList (marks.map char)

theorem utf8Bytes_text_cons (mark : Mark) (marks : List Mark) :
    utf8Bytes (text (mark :: marks)) = String.utf8EncodeChar mark.char ++ utf8Bytes (text marks) := by
  simp [utf8Bytes, text]

/-- A text has one more byte, and one more that is not zero, for each byte that is no ASCII character. -/
theorem length_utf8Bytes_text (marks : List Mark) :
    (utf8Bytes (text marks)).length = (allDenoted marks).length + marks.countP isHigh ∧
      (utf8Bytes (text marks)).countP (· ≠ 0) = (allDenoted marks).countP (· ≠ 0) + marks.countP isHigh := by
  induction marks with
  | nil => exact ⟨rfl, rfl⟩
  | cons mark marks ih =>
    obtain ⟨hlength, hcount⟩ := ih
    rw [utf8Bytes_text_cons, allDenoted, List.flatMap_cons, ← allDenoted, List.length_append, List.length_append,
      List.countP_append, List.countP_append, hlength, hcount, List.countP_cons]
    cases h : mark.isHigh with
    | false =>
      rw [utf8EncodeChar_char h]
      exact ⟨by simp [Nat.add_assoc], by simp [Nat.add_assoc]⟩
    | true =>
      obtain ⟨hmark, hmarkCount⟩ := length_utf8EncodeChar_char h
      rw [hmark, hmarkCount]
      exact ⟨by simp; omega, by simp; omega⟩

/-- Without high marks, the bytes of the text that is read are the bytes that the marks denote. -/
theorem utf8Bytes_text {marks : List Mark} (h : ∀ mark ∈ marks, mark.isHigh = false) :
    utf8Bytes (text marks) = allDenoted marks := by
  rw [utf8Bytes, text, String.toList_ofList, List.flatMap_map, allDenoted, List.flatMap_def, List.flatMap_def]
  exact congrArg List.flatten (List.map_congr_left fun mark hmark => utf8EncodeChar_char (h mark hmark))

end Mark

/-- Reading a raw text gives the text of its marks. -/
theorem Spells.decode {raw : List Char} {marks : List Mark} (h : Spells raw marks) :
    decode raw = .ok (marks.map Mark.char) := by
  induction h with
  | nil => rfl
  | plain hc _ ih => rw [decode_plain hc, ih]; rfl
  | letter hd _ ih => rw [decode_letter hd, ih]; rfl
  | @hex a b m n raw marks hm hn _ ih =>
    have hmlt := hexValue?_lt hm
    have hnlt := hexValue?_lt hn
    have hplus : a ≠ '+' := by
      rintro rfl
      rw [hexValue?_plus] at hm
      cases hm
    have hbyte : byte? [a, b] = some (16 * m + n) := by simp [byte?, hplus, hm, hn]
    have htoNat : (UInt8.ofNat (16 * m + n)).toNat = 16 * m + n := by
      rw [UInt8.toNat_ofNat', Nat.mod_eq_of_lt (by omega)]
    rw [decode_hexEscape (by rw [hexEscape, hbyte]), ih, List.map_cons, Mark.char, htoNat]
    rfl

/-- A valid raw text with two digits behind every `\x` is made of marks. -/
theorem exists_spells {raw : List Char} (hpairs : HexPairs raw) (h : Valid raw) : ∃ marks, Spells raw marks := by
  induction h with
  | nil => exact ⟨[], .nil⟩
  | plain hc _ ih =>
    rw [HexPairs] at hpairs
    · obtain ⟨marks, hmarks⟩ := ih hpairs
      exact ⟨_, .plain hc hmarks⟩
    all_goals
      intros
      contradiction
  | letter hc _ ih =>
    obtain ⟨d, hd⟩ := Option.isSome_iff_exists.1 (mem_letters_iff.1 hc)
    -- `\x` is no escape of one letter.
    rw [HexPairs] at hpairs
    · obtain ⟨marks, hmarks⟩ := ih hpairs
      exact ⟨_, .letter hd hmarks⟩
    all_goals
      intros
      subst_vars
      cases hd
  | @hex following _ _ ih =>
    match following, hpairs with
    | a :: b :: rest, hpairs =>
      obtain ⟨ha, hb, hrest⟩ := hpairs
      obtain ⟨m, hm⟩ := Option.isSome_iff_exists.1 ha
      obtain ⟨n, hn⟩ := Option.isSome_iff_exists.1 hb
      obtain ⟨marks, hmarks⟩ := ih hrest
      exact ⟨_, .hex hm hn hmarks⟩

end YulBackend.Escape
