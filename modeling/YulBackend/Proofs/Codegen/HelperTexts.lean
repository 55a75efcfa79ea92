import YulBackend.Proofs.Codegen.HelperCode
import YulBackend.Proofs.Codegen.Reverting

namespace YulBackend

namespace Helper

def roundUpDefinition : Definition :=
  ⟨"round_up_to_mul_of_32", ["value"], ["result"],
    .ofList [.assign ["result"] (.apply "and"
      [.apply "add" [.var "value", .decimal 31], .apply "not" [.decimal 31]])]⟩

def panicDefinition (code : PanicCode) : Definition :=
  ⟨"panic_error_0x" ++ Hex.padded 2 code.code, [], [],
    .ofList [.perform "mstore" [.decimal 0, .number (selectorWord "Panic(uint256)")],
      .perform "mstore" [.decimal 4, .hexadecimal code.code],
      .perform "revert" [.decimal 0, .hexadecimal 0x24]]⟩

theorem roundUp_apply (c : Collector) : roundUp c = (.ok roundUpDefinition.name, c.add roundUpDefinition) :=
  create_pure roundUpDefinition c

theorem panic_apply (code : PanicCode) (c : Collector) :
    panic code c = (.ok (panicDefinition code).name, c.add (panicDefinition code)) :=
  create_pure (panicDefinition code) c

end Helper

/-- The forms of the cleaned parameter of a cleanup function. -/
inductive SourceType.CleanedForm : Expr → Prop
  | kept : CleanedForm (.var "value")
  | truth : CleanedForm (.apply "iszero" [.apply "iszero" [.var "value"]])
  | extended (byte : Nat) : CleanedForm (.apply "signextend" [.decimal byte, .var "value"])
  | masked {mask : String} (h : Word.isNumber mask.toList) :
    CleanedForm (.apply "and" [.var "value", .number mask])

theorem Word.isNumber_prefixed {digits : String} (hne : digits.toList ≠ [])
    (hdigits : ∀ c ∈ digits.toList, isHexDigit c) : isNumber ("0x" ++ digits).toList := by
  rw [String.toList_append]
  exact isNumber_hexadecimal hne hdigits

/-- A number written in base 16 has hexadecimal digits. -/
theorem Word.isHexDigit_of_mem_toDigits (n : Nat) : ∀ c ∈ Nat.toDigits 16 n, isHexDigit c := by
  have hdigit : ∀ d < 16, isHexDigit d.digitChar := by decide
  induction n using Nat.base_induction 16 (by decide) with
  | single d hd => simp [Nat.toDigits_of_lt_base hd, hdigit d hd]
  | digit n d hd hn ih =>
    rw [← Nat.toDigits_append_toDigits (by decide) hn hd, Nat.toDigits_of_lt_base hd, List.forall_mem_append]
    exact ⟨ih, List.forall_mem_singleton.2 (hdigit d hd)⟩

/-- Bytes are written with hexadecimal digits. -/
theorem Word.isHexDigit_of_mem_ofBytes (bytes : List UInt8) : ∀ c ∈ (Hex.ofBytes bytes).toList, isHexDigit c := by
  intro c hc
  rw [Hex.ofBytes, String.toList_join, List.mem_flatMap] at hc
  obtain ⟨text, htext, hc⟩ := hc
  obtain ⟨b, -, rfl⟩ := List.mem_map.1 htext
  rw [Hex.padded, String.toList_ofList, List.mem_append] at hc
  obtain hc | hc := hc
  · rw [List.eq_of_mem_replicate hc]
    rfl
  · exact isHexDigit_of_mem_toDigits _ c hc

theorem Word.isNumber_literal (n : Nat) : isNumber (Hex.literal n).toList := by
  refine isNumber_prefixed ?_ ?_
  · simp [Hex.ofNat]
  · simpa [Hex.ofNat] using isHexDigit_of_mem_toDigits n

/-- The mask of leading bytes is a number. -/
theorem Word.isNumber_leadingByteMask (count : Nat) : isNumber (leadingByteMask count).toList := by
  refine isNumber_prefixed ?_ ?_
  · simp
    omega
  · simp only [String.toList_ofList, List.mem_append, List.mem_replicate]
    rintro c (⟨-, rfl⟩ | ⟨-, rfl⟩) <;> rfl

/-- A value masked to its low bits has the form of a cleaned one, also at full width. -/
theorem SourceType.cleanedForm_mask (bits : Nat) : CleanedForm (if bits < 256 then
    .apply "and" [.var "value", .hexadecimal ((1 <<< bits) - 1)] else .var "value") := by
  split
  · exact .masked (Word.isNumber_literal _)
  · exact .kept

/-- What cleans a value keeps it, makes a truth value of it, extends a sign or masks it. -/
theorem SourceType.cleanedForm : ∀ {t : SourceType}, t.isSingleSlot → CleanedForm t.cleaned
  | .bool, _ => .truth
  | .address, _ | .contract _, _ => cleanedForm_mask 160
  | .enum _, _ => cleanedForm_mask 8
  | .function .internal _ _, _ => .kept
  | .uint bits, _ => by
    have hcleaned : (uint bits).cleaned = if bits < 256 then
        .apply "and" [.var "value", .hexadecimal ((1 <<< bits) - 1)] else .var "value" := by
      simp only [cleaned, cleanup, isValueType, valueBits?, if_true]
      split <;> rfl
    rw [hcleaned]
    exact cleanedForm_mask bits
  | .int bits, _ => by
    rw [cleaned, cleanup]
    split
    · exact .extended _
    · exact .kept
  | .fixedBytes count, _ => by
    rw [cleaned, cleanup]
    split
    · exact .masked (Word.isNumber_leadingByteMask count)
    · exact .kept

section

variable {e e' : Expr} {callee : String}

theorem Expr.isWellFormed_number {text : String} (h : Word.isNumber text.toList) : (number text).isWellFormed := h

theorem Expr.isWellFormed_decimal (n : Nat) : (decimal n).isWellFormed := Word.isNumber_toString n

theorem Expr.isWellFormed_hexadecimal (n : Nat) : (hexadecimal n).isWellFormed := Word.isNumber_literal n

theorem Expr.isWellFormed_binary (hcallee : Word.isName callee.toList) (he : e.isWellFormed)
    (he' : e'.isWellFormed) : (apply callee [e, e']).isWellFormed := by
  simp only [apply, isWellFormed, allWellFormed, Identifier.isWellFormed, hcallee, he, he', Bool.and_self]

/-- The word of a selector is a number. -/
theorem Word.isNumber_selectorWord (signature : String) : isNumber (selectorWord signature).toList := by
  rw [selectorWord, String.append_assoc]
  refine isNumber_prefixed (by simp) ?_
  rw [String.toList_append, String.toList_ofList, List.forall_mem_append]
  refine ⟨isHexDigit_of_mem_ofBytes _, fun c hc => ?_⟩
  rw [List.eq_of_mem_replicate hc]
  rfl

/-- The word of a piece of text is a number. -/
theorem Word.isNumber_wordText (word : List UInt8) : isNumber (wordText word).toList := by
  refine isNumber_prefixed ?_ (isHexDigit_of_mem_ofBytes _)
  have hlength : (word ++ List.replicate (wordBytes - word.length) 0).length ≠ 0 := by
    rw [List.length_append, List.length_replicate, wordBytes]
    omega
  cases hbytes : word ++ List.replicate (wordBytes - word.length) 0 with
  | nil => exact absurd (congrArg List.length hbytes) hlength
  | cons b rest => simp [Hex.ofBytes, Hex.padded]

theorem Word.all_isNameChar_padded (width n : Nat) : (Hex.padded width n).toList.all isNameChar := by
  have hzero : isNameChar '0' := by decide
  simp [Hex.padded, hzero, List.all_append, -List.all_eq_true, all_isNameChar_toDigits]

/-- A definition with names and a well-formed body is a well-formed function. -/
theorem Definition.isWellFormed_function {d : Definition} (hname : Word.isName d.name.toList)
    (hvariables : (d.parameters ++ d.returns).all (Word.isName ·.toList))
    (hbody : Stmt.allWellFormed d.body.statements) : d.function.isWellFormed := by
  obtain ⟨name, parameters, returns, _, statements⟩ := d
  rw [List.all_append, Bool.and_eq_true] at hvariables
  have hidentifiers : ∀ names : List String, names.all (Word.isName ·.toList) →
      (names.map ({ name := · : Identifier })).all (·.isWellFormed) := by
    intro names h
    rwa [List.all_map]
  simp only [function, Stmt.isWellFormed, Block.isWellFormed, hname, hidentifiers _ hvariables.1,
    hidentifiers _ hvariables.2, Bool.true_and]
  exact hbody

theorem Stmt.isWellFormed_perform {arguments : List Expr} (h : (Expr.apply callee arguments).isWellFormed) :
    (Stmt.perform callee arguments).isWellFormed := by
  rwa [perform, isWellFormed]

/-- Declaring a name with a well-formed value is well formed. -/
theorem Stmt.isWellFormed_let {name : String} (hname : Word.isName name.toList) (h : e.isWellFormed) :
    (Stmt.let name e).isWellFormed := by
  simp only [«let», isWellFormed, List.isEmpty_cons, List.all_cons, List.all_nil, Identifier.isWellFormed, hname,
    Option.all_some, h]
  rfl

theorem Stmt.allWellFormed_cons {s : Stmt} {rest : List Stmt} (h : s.isWellFormed) (hrest : allWellFormed rest) :
    allWellFormed (s :: rest) :=
  Bool.and_eq_true_iff.2 ⟨h, hrest⟩

/-- Assigning a well-formed value to a name is well formed. -/
theorem Stmt.allWellFormed_assign {target : String} (htarget : Word.isName target.toList) (h : e.isWellFormed) :
    allWellFormed [.assign [target] e] := by
  simp only [assign, allWellFormed, isWellFormed, List.map_cons, List.map_nil, List.isEmpty_cons, List.all_cons,
    List.all_nil, Identifier.isWellFormed, htarget, h]
  rfl

namespace Helper

/-- The code of a cleanup function is well formed, if its type is named. -/
theorem isWellFormed_cleanup {t : SourceType} (h : t.isSingleSlot) (hnamed : t.isNamed) :
    t.cleanupDefinition.function.isWellFormed := by
  have hvalue : (Expr.var "value").isWellFormed := by decide
  have hcleaned : t.cleaned.isWellFormed := by
    have hform := SourceType.cleanedForm h
    generalize t.cleaned = e at hform
    cases hform with
    | kept => exact hvalue
    | truth => decide
    | extended byte => exact Expr.isWellFormed_binary (by decide) (Expr.isWellFormed_decimal byte) hvalue
    | masked h => exact Expr.isWellFormed_binary (by decide) hvalue h
  exact Definition.isWellFormed_function (SourceType.isName_cleanupDefinition h hnamed) rfl
    (Stmt.allWellFormed_assign (by decide) hcleaned)

/-- The code of a shift function is well formed for every version and number of bits. -/
theorem isWellFormed_shiftRight (version : EvmVersion) (bits : Nat) :
    (shiftRightDefinition version bits).function.isWellFormed := by
  have hvalue : (Expr.var "value").isWellFormed := by decide
  have hshifted : (shiftedRight version bits).isWellFormed := by
    rw [shiftedRight]
    split
    · exact Expr.isWellFormed_binary (by decide) (Expr.isWellFormed_decimal bits) hvalue
    · exact Expr.isWellFormed_binary (by decide) hvalue (Expr.isWellFormed_hexadecimal _)
  have hname : Word.isName (shiftRightDefinition version bits).name.toList := by
    rw [shiftRightDefinition, String.append_assoc]
    exact Word.isName_append (by decide) (by decide)
      (Word.all_isNameChar_append (Word.all_isNameChar_digits bits) (by decide))
  exact Definition.isWellFormed_function hname rfl (Stmt.allWellFormed_assign (by decide) hshifted)

theorem isWellFormed_roundUp : roundUpDefinition.function.isWellFormed := by
  decide

theorem isWellFormed_mStore (hposition : e.isWellFormed) (hvalue : e'.isWellFormed) :
    (Stmt.perform "mstore" [e, e']).isWellFormed :=
  Stmt.isWellFormed_perform (Expr.isWellFormed_binary (by decide) hposition hvalue)

/-- The code of a panic function is well formed for every code. -/
theorem isWellFormed_panic (code : PanicCode) : (panicDefinition code).function.isWellFormed := by
  have hname : Word.isName (panicDefinition code).name.toList :=
    Word.isName_append (by decide) (by decide) (Word.all_isNameChar_padded _ _)
  have hselector : (Expr.number (selectorWord "Panic(uint256)")).isWellFormed :=
    Expr.isWellFormed_number (Word.isNumber_selectorWord _)
  refine Definition.isWellFormed_function hname rfl ?_
  refine Stmt.allWellFormed_cons (isWellFormed_mStore (Expr.isWellFormed_decimal 0) hselector) ?_
  refine Stmt.allWellFormed_cons (isWellFormed_mStore (Expr.isWellFormed_decimal 4)
    (Expr.isWellFormed_hexadecimal _)) ?_
  exact Stmt.allWellFormed_cons (Stmt.isWellFormed_perform (Expr.isWellFormed_binary (by decide)
    (Expr.isWellFormed_decimal 0) (Expr.isWellFormed_hexadecimal _))) rfl

/-- Storing well-formed values in front of well-formed statements is well formed. -/
theorem allWellFormed_mStores {stores : List (Expr × Expr)} {rest : List Stmt}
    (h : ∀ s ∈ stores, s.1.isWellFormed ∧ s.2.isWellFormed) (hrest : Stmt.allWellFormed rest) :
    Stmt.allWellFormed (mStores stores ++ rest) := by
  induction stores with
  | nil => exact hrest
  | cons s stores ih =>
    rw [List.forall_mem_cons] at h
    exact Stmt.allWellFormed_cons (isWellFormed_mStore h.1.1 h.1.2) (ih h.2)

/-- The code of a revert function is well formed whatever its message. -/
theorem isWellFormed_revert (reverts : RevertStrings) (message : String) :
    (revertDefinition reverts message).function.isWellFormed := by
  have hname : Word.isName (revertDefinition reverts message).name.toList :=
    Word.isName_append (by decide) (by decide) (Word.all_isNameChar_ofBytes _)
  refine Definition.isWellFormed_function hname rfl ?_
  change Stmt.allWellFormed (revertStatements reverts message)
  by_cases h : (!reverts.includesDebugReasons || (utf8Bytes message).isEmpty) = true
  · rw [revertStatements, if_pos h]
    decide
  · rw [revertStatements_eq h]
    have hposition : ∀ n, (Expr.apply "add" [.var "reasonPos", .hexadecimal n]).isWellFormed :=
      fun n => Expr.isWellFormed_binary (by decide) (by decide) (Expr.isWellFormed_hexadecimal n)
    have hhead : ∀ s ∈ messageHead (utf8Bytes message).length, s.1.isWellFormed ∧ s.2.isWellFormed := by
      rw [messageHead, List.forall_mem_cons, List.forall_mem_cons, List.forall_mem_singleton]
      exact ⟨⟨Expr.isWellFormed_decimal 0, Expr.isWellFormed_number (Word.isNumber_selectorWord _)⟩,
        ⟨Expr.isWellFormed_decimal 4, Expr.isWellFormed_hexadecimal _⟩,
        Expr.isWellFormed_binary (by decide) (Expr.isWellFormed_decimal 4) (Expr.isWellFormed_hexadecimal _),
        Expr.isWellFormed_decimal _⟩
    have hwords : ∀ s ∈ messageWords (chunks wordBytes (utf8Bytes message)), s.1.isWellFormed ∧ s.2.isWellFormed := by
      intro s hs
      obtain ⟨word, -, rfl⟩ := List.mem_map.1 hs
      exact ⟨hposition _, Expr.isWellFormed_number (Word.isNumber_wordText _)⟩
    have hsum : (Expr.apply "add" [.decimal 4, .hexadecimal 0x40]).isWellFormed :=
      Expr.isWellFormed_binary (by decide) (Expr.isWellFormed_decimal 4) (Expr.isWellFormed_hexadecimal _)
    refine allWellFormed_mStores hhead (Stmt.allWellFormed_cons (Stmt.isWellFormed_let (by decide) hsum) ?_)
    refine allWellFormed_mStores hwords (Stmt.allWellFormed_cons ?_ rfl)
    exact Stmt.isWellFormed_perform (Expr.isWellFormed_binary (by decide) (Expr.isWellFormed_decimal 0) (hposition _))

end Helper

end

end YulBackend
