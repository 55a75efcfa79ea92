import YulBackend.Proofs.Codegen.Reverting

namespace YulBackend

open Execution

namespace Keccak

theorem length_build (f : Nat → Nat → UInt64) : (build f).length = 25 := by
  rw [build, List.length_map, List.length_range]

theorem length_permute {a : Lanes} (h : a.length = 25) : (permute a).length = 25 := by
  rw [permute]
  exact List.foldlRecOn roundConstants _ (motive := fun a : Lanes => a.length = 25) h fun _ _ _ _ => length_build _

theorem length_absorbAll (count : Nat) {a : Lanes} (h : a.length = 25) (input : List UInt8) :
    (absorbAll count a input).length = 25 := by
  induction count generalizing a input with
  | zero => exact h
  | succ count ih => exact ih (length_permute (length_build _)) _

theorem length_bytesOfLane (lane : UInt64) : (bytesOfLane lane).length = 8 := by
  rw [bytesOfLane, List.length_map, List.length_range]

theorem length_flatMap_bytesOfLane (lanes : Lanes) : (lanes.flatMap bytesOfLane).length = 8 * lanes.length := by
  simp [List.length_flatMap, length_bytesOfLane, Nat.mul_comm]

theorem length_hash (message : List UInt8) : (hash message).length = 32 := by
  rw [hash]
  rw [List.length_take, length_flatMap_bytesOfLane, length_absorbAll _ List.length_replicate]
  rfl

end Keccak

theorem length_selector (signature : String) : (selector signature).length = 4 := by
  rw [selector, List.length_take, keccakOfText, Keccak.length_hash]
  rfl

/-- The word of bytes in code is the one that has them at its high end. -/
theorem Literal.word_wordText {bytes : List UInt8} (h : bytes.length ≤ wordBytes) :
    (Literal.number (wordText bytes)).word = .ok (leftAligned bytes) := by
  have hne : bytes ++ List.replicate (wordBytes - bytes.length) 0 ≠ [] := by
    refine List.ne_nil_of_length_pos ?_
    rw [List.length_append, List.length_replicate, Nat.add_sub_cancel' h]
    decide
  refine word_number_of_numberValue? ?_ (leftAligned_lt h)
  rw [wordText, numberValue?_ofBytes hne, leftAligned_eq]

/-- The word of a selector is its bytes, padded on the right. -/
theorem selectorWord_eq (signature : String) : selectorWord signature = wordText (selector signature) := by
  have hzeros : String.ofList (List.replicate 56 '0') = Hex.ofBytes (List.replicate 28 0) := by decide
  have hcount : wordBytes - (selector signature).length = 28 := by rw [length_selector]; rfl
  rw [selectorWord, wordText, hcount, Hex.ofBytes_append, hzeros, String.append_assoc]

/-- How many zeros fill this many bytes up to whole words. -/
def padding (length : Nat) : Nat := (wordBytes - length % wordBytes) % wordBytes

/-- There are no chunks of nothing. -/
theorem chunks_nil {α : Type} (size : Nat) : chunks size ([] : List α) = [] := by
  have hcount : (0 + size - 1) / size = 0 := by
    cases size with
    | zero => rfl
    | succ size => exact Nat.div_eq_of_lt (by omega)
  rw [chunks, List.length_nil, hcount]
  rfl

/-- The chunks of a text are its first bytes and the chunks of the others. -/
theorem chunks_of_ne_nil {α : Type} {size : Nat} (hsize : 0 < size) {xs : List α} (h : xs ≠ []) :
    chunks size xs = xs.take size :: chunks size (xs.drop size) := by
  have hlength : 0 < xs.length := List.length_pos_of_ne_nil h
  have hcount : (xs.length + size - 1) / size = ((xs.drop size).length + size - 1) / size + 1 := by
    rw [List.length_drop, ← Nat.add_div_right _ hsize]
    by_cases hle : size ≤ xs.length
    · have heq : xs.length - size + size - 1 + size = xs.length + size - 1 := by omega
      rw [heq]
    · have heq : xs.length - size + size - 1 + size = size - 1 + size := by omega
      rw [heq, Nat.div_eq_of_lt_le (k := 1) (by omega) (by omega),
        Nat.div_eq_of_lt_le (k := 1) (by omega) (by omega)]
  rw [chunks, hcount, List.range_succ_eq_map, List.map_cons, List.map_map, Nat.zero_mul, List.drop_zero, chunks]
  refine congrArg _ (List.map_congr_left fun i _ => ?_)
  rw [Function.comp_apply, List.drop_drop, Nat.succ_mul, Nat.add_comm]

/-- Whole words hold the bytes and zeros behind them. -/
theorem flatMap_chunks (bytes : List UInt8) :
    ((chunks wordBytes bytes).flatMap fun word => word ++ List.replicate (wordBytes - word.length) 0) =
      bytes ++ List.replicate (padding bytes.length) 0 := by
  by_cases hshort : bytes.length ≤ wordBytes
  · by_cases hne : bytes = []
    · subst hne
      rw [chunks_nil]
      rfl
    · have hlength : 0 < bytes.length := List.length_pos_of_ne_nil hne
      have hpadding : padding bytes.length = wordBytes - bytes.length := by
        unfold padding wordBytes at *
        omega
      rw [chunks_of_ne_nil (by decide) hne, List.take_of_length_le hshort, List.drop_eq_nil_of_le hshort, chunks_nil,
        List.flatMap_singleton, hpadding]
  · have hlong : wordBytes ≤ bytes.length := Nat.le_of_not_le hshort
    have hne : bytes ≠ [] := by
      rintro rfl
      exact hshort (Nat.zero_le _)
    have hlength : (bytes.take wordBytes).length = wordBytes := by rw [List.length_take, Nat.min_eq_left hlong]
    have hpadding : padding (bytes.drop wordBytes).length = padding bytes.length := by
      rw [List.length_drop, padding, padding, Nat.mod_eq_sub_mod hlong]
    rw [chunks_of_ne_nil (by decide) hne, List.flatMap_cons, hlength, Nat.sub_self, List.replicate_zero,
      List.append_nil, flatMap_chunks (bytes.drop wordBytes), hpadding, ← List.append_assoc, List.take_append_drop]
termination_by bytes.length
decreasing_by
  rw [List.length_drop]
  exact Nat.sub_lt (by omega) (by decide)

theorem length_chunks (bytes : List UInt8) :
    (chunks wordBytes bytes).length * wordBytes = bytes.length + padding bytes.length := by
  simp only [chunks, List.length_map, List.length_range, padding, wordBytes]
  omega

theorem length_le_of_mem_chunks {bytes word : List UInt8} (h : word ∈ chunks wordBytes bytes) :
    word.length ≤ wordBytes := by
  obtain ⟨i, -, rfl⟩ := List.mem_map.1 h
  exact List.length_take_le _ _

/-- The message as encoded data: a selector, where the text starts, how many bytes it has, and its bytes filled up with
zeros to whole words. -/
def errorPayload (message : String) : List UInt8 :=
  selector "Error(string)" ++ bytesOf wordBytes 32 ++ bytesOf wordBytes (utf8Bytes message).length ++
    utf8Bytes message ++ List.replicate (padding (utf8Bytes message).length) 0

/-- The message that a caller finds in the data of a revert. -/
def decodeError? (data : List UInt8) : Option String :=
  let arguments := data.drop 4
  let start := bigEndian (arguments.take wordBytes)
  let length := bigEndian ((arguments.drop start).take wordBytes)
  let content := arguments.drop (start + wordBytes)
  if data.take 4 = selector "Error(string)" ∧ length ≤ content.length ∧ arguments.length % wordBytes = 0 ∧
      (content.drop length).all (· = 0) then
    String.fromUTF8? (content.take length).toByteArray
  else none

theorem toByteArray_utf8Bytes (text : String) : (utf8Bytes text).toByteArray = text.toByteArray :=
  String.utf8Encode_toList

theorem fromUTF8?_utf8Bytes (text : String) : String.fromUTF8? (utf8Bytes text).toByteArray = some text := by
  rw [toByteArray_utf8Bytes, String.fromUTF8?, dif_pos text.isValidUTF8]
  rfl

/-- An error payload has the selector, two words and the text in whole words. -/
theorem length_errorPayload (message : String) :
    (errorPayload message).length = 68 + (chunks wordBytes (utf8Bytes message)).length * wordBytes := by
  rw [length_chunks]
  simp only [errorPayload, List.length_append, length_selector, length_bytesOf, List.length_replicate, wordBytes]
  omega

theorem length_utf8Bytes_lt {message : String} (h : (errorPayload message).length < 2 ^ wordBits) :
    (utf8Bytes message).length < 2 ^ wordBits := by
  rw [length_errorPayload, length_chunks] at h
  omega

/-- The payload of a message decodes to the message. -/
theorem decodeError?_errorPayload {message : String} (h : (errorPayload message).length < 2 ^ wordBits) :
    decodeError? (errorPayload message) = some message := by
  have hlength : (utf8Bytes message).length < 256 ^ wordBytes := length_utf8Bytes_lt h
  let text := utf8Bytes message ++ List.replicate (padding (utf8Bytes message).length) 0
  let arguments := bytesOf wordBytes 32 ++ (bytesOf wordBytes (utf8Bytes message).length ++ text)
  have hdata : errorPayload message = selector "Error(string)" ++ arguments := by
    simp only [errorPayload, arguments, text, List.append_assoc]
  have hselector : (errorPayload message).take 4 = selector "Error(string)" := by
    rw [hdata, List.take_left' (length_selector _)]
  have harguments : (errorPayload message).drop 4 = arguments := by rw [hdata, List.drop_left' (length_selector _)]
  have hstart : bigEndian (arguments.take wordBytes) = 32 := by
    rw [List.take_left' (length_bytesOf _ _), bigEndian_bytesOf]
    rfl
  have htail : arguments.drop 32 = bytesOf wordBytes (utf8Bytes message).length ++ text :=
    List.drop_left' (length_bytesOf _ _)
  have hcount : bigEndian ((arguments.drop 32).take wordBytes) = (utf8Bytes message).length := by
    rw [htail, List.take_left' (length_bytesOf _ _), bigEndian_bytesOf, Nat.mod_eq_of_lt hlength]
  have hcontent : arguments.drop (32 + wordBytes) = text := by
    rw [← List.drop_drop, htail, List.drop_left' (length_bytesOf _ _)]
  have hwhole : arguments.length % wordBytes = 0 := by
    have htotal := length_errorPayload message
    rw [hdata, List.length_append, length_selector] at htotal
    rw [wordBytes] at htotal ⊢
    omega
  have hpadding : (text.drop (utf8Bytes message).length).all (· = 0) := by
    rw [List.drop_left, List.all_eq_true]
    exact fun b hb => decide_eq_true (List.eq_of_mem_replicate hb)
  have hfits : (utf8Bytes message).length ≤ text.length := by
    rw [List.length_append]
    exact Nat.le_add_right _ _
  simp only [decodeError?, harguments, hstart, hcount, hcontent]
  rw [if_pos ⟨hselector, hfits, hwhole, hpadding⟩, List.take_left, fromUTF8?_utf8Bytes]

namespace Evm

variable {other : String → List Nat → World → Option (List Nat) × World} {unvalued : Literal → Nat}
  {call : String → List Nat → Exec World (List Nat)} {calls : Calls World} {fuel : Nat} {F : Functions} {V : Locals}
  {m : Machine World}

/-- The word of these bytes. -/
def wordOf (bytes : List UInt8) : Word := BitVec.ofNat wordBits (leftAligned bytes)

theorem bytesOf_wordOf {bytes : List UInt8} (h : bytes.length ≤ wordBytes) :
    bytesOf wordBytes (wordOf bytes).toNat = bytes ++ List.replicate (wordBytes - bytes.length) 0 := by
  rw [wordOf, BitVec.toNat_ofNat, Nat.mod_eq_of_lt (leftAligned_lt h), bytesOf_leftAligned h]

theorem evaluates_wordText {bytes : List UInt8} (h : bytes.length ≤ wordBytes) :
    Evaluates (interpretation other unvalued) call V m (.number (wordText bytes)) (wordOf bytes) :=
  evaluates_number (Literal.word_wordText h) (leftAligned_lt h)

/-- A machine whose memory has become something else. -/
def withMemory (m : Machine World) (memory : Nat → UInt8) : Machine World :=
  { m with world := { m.world with memory } }

/-- Storing a word. -/
theorem exec_mStore_of_evaluates {position value : Expr} {p w : Word}
    (hp : Evaluates (interpretation other unvalued) (calls F) V m position p)
    (hw : Evaluates (interpretation other unvalued) (calls F) V m value w) :
    exec (interpretation other unvalued) calls fuel F V (.perform "mstore" [position, value]) m =
      (.ok (.normal, V), withMemory m (store m.world.memory p.toNat w)) := by
  rw [exec_mStore hp hw, withMemory, BitVec.ofNat_toNat, BitVec.ofNat_toNat, BitVec.setWidth_eq, BitVec.setWidth_eq]

/-- Where the text starts. -/
def textStart : Word := BitVec.ofNat wordBits 4 + BitVec.ofNat wordBits 0x40

theorem toNat_textStart : textStart.toNat = 68 := by decide

theorem evaluates_textStart_add (hV : V "reasonPos" = some textStart.toNat) {n : Nat} (hn : 68 + n < 2 ^ wordBits) :
    Evaluates (interpretation other unvalued) call V m (.apply "add" [.var "reasonPos", .hexadecimal n])
      (textStart + BitVec.ofNat wordBits n) :=
  (evaluates_var hV).add (evaluates_hexadecimal (Nat.lt_of_le_of_lt (Nat.le_add_left n 68) hn))

theorem toNat_textStart_add {n : Nat} (hn : 68 + n < 2 ^ wordBits) :
    (textStart + BitVec.ofNat wordBits n).toNat = 68 + n := by
  rw [BitVec.toNat_add, toNat_textStart, BitVec.toNat_ofNat, Nat.add_mod_mod, Nat.mod_eq_of_lt hn]

/-- The words of the text are stored side by side. -/
theorem execAll_zipIdx_words (hV : V "reasonPos" = some textStart.toNat) {words : List (List UInt8)} {first : Nat}
    (hwords : ∀ word ∈ words, word.length ≤ wordBytes)
    (hfits : 68 + (first + words.length) * wordBytes < 2 ^ wordBits) (m : Machine World) :
    execAll (interpretation other unvalued) calls fuel F V (mStores ((words.zipIdx first).map fun word =>
        (.apply "add" [.var "reasonPos", .hexadecimal (word.2 * wordBytes)], .number (wordText word.1)))) m =
      (.ok (.normal, V), withMemory m (storeAll m.world.memory (68 + first * wordBytes) (words.map wordOf))) := by
  induction words generalizing first m with
  | nil => rfl
  | cons word words ih =>
    rw [List.forall_mem_cons] at hwords
    have hnext : 68 + (first + 1 + words.length) * wordBytes < 2 ^ wordBits := by
      rwa [List.length_cons, Nat.add_comm words.length, ← Nat.add_assoc] at hfits
    have hposition : 68 + first * wordBytes < 2 ^ wordBits := by
      rw [wordBytes] at hnext ⊢
      omega
    have hnextPosition : 68 + (first + 1) * wordBytes = 68 + first * wordBytes + wordBytes := by
      rw [Nat.succ_mul, Nat.add_assoc]
    rw [List.zipIdx_cons, List.map_cons, mStores, List.map_cons,
      execAll_cons (exec_mStore_of_evaluates (evaluates_textStart_add hV hposition) (evaluates_wordText hwords.1)),
      ← mStores, ih hwords.2 hnext, hnextPosition, toNat_textStart_add hposition]
    rfl

/-- The statements for the text store its words one behind the other from the start of the text. -/
theorem execAll_messageWords (hV : V "reasonPos" = some textStart.toNat) {bytes : List UInt8}
    (hfits : 68 + (chunks wordBytes bytes).length * wordBytes < 2 ^ wordBits) (m : Machine World) :
    execAll (interpretation other unvalued) calls fuel F V (mStores (messageWords (chunks wordBytes bytes))) m =
      (.ok (.normal, V), withMemory m (storeAll m.world.memory 68 ((chunks wordBytes bytes).map wordOf))) := by
  refine (execAll_zipIdx_words hV (fun _ => length_le_of_mem_chunks) (by rwa [Nat.zero_add]) m).trans ?_
  rw [Nat.zero_mul, Nat.add_zero]

/-- Memory in front of the text: the selector, where the text starts, and how many bytes it has. Each store overwrites
the end of the one before. -/
def withHead (memory : Nat → UInt8) (length : Nat) : Nat → UInt8 :=
  store (store (store memory 0 (wordOf (selector "Error(string)"))) 4 (BitVec.ofNat wordBits 32)) 36
    (BitVec.ofNat wordBits length)

/-- The statements for the head store the selector, the offset and the length. -/
theorem execAll_messageHead {length : Nat} (hlength : length < 2 ^ wordBits) (m : Machine World) :
    execAll (interpretation other unvalued) calls fuel F V (mStores (messageHead length)) m =
      (.ok (.normal, V), withMemory m (withHead m.world.memory length)) := by
  have hsmall (m : Machine World) (n : Nat) (hn : n < 256) :
      Evaluates (interpretation other unvalued) (calls F) V m (.decimal n) (BitVec.ofNat wordBits n) :=
    evaluates_decimal (Nat.lt_trans hn (by decide))
  have hword (m : Machine World) :
      Evaluates (interpretation other unvalued) (calls F) V m (.hexadecimal 0x20) (BitVec.ofNat wordBits 32) :=
    evaluates_hexadecimal (by decide)
  have hselector : (selector "Error(string)").length ≤ wordBytes := by
    rw [length_selector]
    decide
  rw [messageHead, selectorWord_eq, mStores, List.map_cons, List.map_cons, List.map_cons,
    execAll_cons (exec_mStore_of_evaluates (hsmall _ 0 (by decide)) (evaluates_wordText hselector)),
    execAll_cons (exec_mStore_of_evaluates (hsmall _ 4 (by decide)) (hword _)),
    execAll_cons (exec_mStore_of_evaluates ((hsmall _ 4 (by decide)).add (hword _)) (evaluates_decimal hlength))]
  rfl

/-- The head reads as the selector, the offset 32 and the length. -/
theorem bytesAt_withHead (memory : Nat → UInt8) {length : Nat} (hlength : length < 2 ^ wordBits) :
    bytesAt (withHead memory length) 0 68 =
      selector "Error(string)" ++ bytesOf wordBytes 32 ++ bytesOf wordBytes length := by
  have hselector : bytesAt (withHead memory length) 0 4 = selector "Error(string)" := by
    have hstored : bytesAt (withHead memory length) 0 4 =
        bytesAt (store memory 0 (wordOf (selector "Error(string)"))) 0 4 :=
      bytesAt_congr fun k _ hk =>
        (store_of_outside _ (.inl (by omega))).trans (store_of_outside _ (.inl (by omega)))
    have hword := bytesAt_store memory 0 (wordOf (selector "Error(string)"))
    rw [bytesOf_wordOf (by rw [length_selector]; decide)] at hword
    have hsplit : bytesAt (store memory 0 (wordOf (selector "Error(string)"))) 0 (4 + 28) = _ := hword
    rw [bytesAt_add] at hsplit
    rw [hstored]
    exact (List.append_inj hsplit (by rw [length_bytesAt, length_selector])).1
  have hstart : bytesAt (withHead memory length) 4 wordBytes = bytesOf wordBytes 32 := by
    have hstored : bytesAt (withHead memory length) 4 wordBytes = bytesAt
        (store (store memory 0 (wordOf (selector "Error(string)"))) 4 (BitVec.ofNat wordBits 32)) 4 wordBytes :=
      bytesAt_congr fun k _ hk => store_of_outside _ (.inl hk)
    rw [hstored, bytesAt_store]
    rfl
  have hcount : bytesAt (withHead memory length) 36 wordBytes = bytesOf wordBytes length := by
    rw [withHead, bytesAt_store, BitVec.toNat_ofNat, Nat.mod_eq_of_lt hlength]
  have hparts : 68 = 4 + wordBytes + wordBytes := rfl
  rw [hparts, bytesAt_add, bytesAt_add, hselector]
  exact congrArg₂ _ (congrArg _ hstart) hcount

/-- The words of a text read as the text with its padding. -/
theorem bytesAt_words (memory : Nat → UInt8) (position : Nat) (bytes : List UInt8) :
    bytesAt (storeAll memory position ((chunks wordBytes bytes).map wordOf)) position
        ((chunks wordBytes bytes).length * wordBytes) =
      bytes ++ List.replicate (padding bytes.length) 0 := by
  have hstored := bytesAt_storeAll memory position ((chunks wordBytes bytes).map wordOf)
  rw [List.length_map, List.flatMap_map, Nat.mul_comm] at hstored
  rw [hstored, ← flatMap_chunks, List.flatMap_def, List.flatMap_def]
  exact congrArg List.flatten (List.map_congr_left fun word hword => bytesOf_wordOf (length_le_of_mem_chunks hword))

/-- Head and text together read as the payload of the message. -/
theorem bytesAt_payload (memory : Nat → UInt8) {message : String}
    (hfits : (errorPayload message).length < 2 ^ wordBits) :
    bytesAt (storeAll (withHead memory (utf8Bytes message).length) 68
      ((chunks wordBytes (utf8Bytes message)).map wordOf)) 0 (errorPayload message).length = errorPayload message := by
  have hhead : bytesAt (storeAll (withHead memory (utf8Bytes message).length) 68
      ((chunks wordBytes (utf8Bytes message)).map wordOf)) 0 68 = _ :=
    (bytesAt_congr fun k _ hk => storeAll_of_outside (.inl (by omega))).trans
      (bytesAt_withHead memory (length_utf8Bytes_lt hfits))
  rw [length_errorPayload, bytesAt_add, hhead, Nat.zero_add, bytesAt_words, errorPayload, ← List.append_assoc]

theorem exec_revert_of_evaluates {position length : Expr} {p n : Word}
    (hp : Evaluates (interpretation other unvalued) (calls F) V m position p)
    (hn : Evaluates (interpretation other unvalued) (calls F) V m length n) :
    exec (interpretation other unvalued) calls fuel F V (.perform "revert" [position, length]) m =
      (.error .halted, { m with world := { m.world with
        reverted := some (bytesAt m.world.memory p.toNat n.toNat) } }) := by
  rw [exec_revert hp hn, BitVec.ofNat_toNat, BitVec.ofNat_toNat, BitVec.setWidth_eq, BitVec.setWidth_eq]

/-- Only the empty text has no bytes. -/
theorem isEmpty_utf8Bytes_iff (text : String) : (utf8Bytes text).isEmpty ↔ text = "" := by
  rw [List.isEmpty_iff]
  refine ⟨fun h => ?_, fun h => by rw [h]; rfl⟩
  have hback := fromUTF8?_utf8Bytes text
  rw [h] at hback
  exact (Option.some.inj hback).symm

theorem quiet_iff (reverts : RevertStrings) (message : String) :
    (!reverts.includesDebugReasons || (utf8Bytes message).isEmpty) = true ↔
      reverts = .default ∨ reverts = .strip ∨ message = "" := by
  rw [Bool.or_eq_true, isEmpty_utf8Bytes_iff]
  cases reverts <;> simp [RevertStrings.includesDebugReasons]

theorem evaluates_zero :
    Evaluates (interpretation other unvalued) call V m (.decimal 0) (BitVec.ofNat wordBits 0) :=
  evaluates_decimal (by decide)

/-- When a message is encoded the statements revert with its payload. -/
theorem execAll_revertStatements_of_message {reverts : RevertStrings} {message : String}
    (h : ¬ (!reverts.includesDebugReasons || (utf8Bytes message).isEmpty))
    (hfits : (errorPayload message).length < 2 ^ wordBits) (m : Machine World) :
    ∃ m', execAll (interpretation other unvalued) calls fuel F V (revertStatements reverts message) m =
        (.error .halted, m') ∧ m'.world.reverted = some (errorPayload message) := by
  have htotal : 68 + (chunks wordBytes (utf8Bytes message)).length * wordBytes < 2 ^ wordBits :=
    length_errorPayload message ▸ hfits
  have hstart (m : Machine World) : Evaluates (interpretation other unvalued) (calls F) V m
      (.apply "add" [.decimal 4, .hexadecimal 0x40]) textStart :=
    (evaluates_decimal (by decide)).add (evaluates_hexadecimal (by decide))
  have hV : V.set "reasonPos" textStart.toNat "reasonPos" = some textStart.toNat := by simp
  rw [revertStatements_eq h, execAll_append (execAll_messageHead (length_utf8Bytes_lt hfits) m),
    execAll_cons (exec_let (hstart _)), execAll_append (execAll_messageWords hV htotal _),
    execAll_cons_of_error (exec_revert_of_evaluates evaluates_zero (evaluates_textStart_add hV htotal)),
    toNat_textStart_add htotal, ← length_errorPayload]
  exact ⟨_, rfl, congrArg some (bytesAt_payload m.world.memory hfits)⟩

/-- Code that `revertStatements` makes for a message hands its encoding to the caller, who finds the message in it.
Without a message, or where the settings leave it out, it hands over nothing. No text of a program is too long for the
memory of the machine, which has as many bytes as a word has values. -/
theorem execAll_revertStatements_payload (reverts : RevertStrings) {message : String}
    (hfits : (errorPayload message).length < 2 ^ wordBits) (m : Machine World) :
    (∃ m', execAll (interpretation other unvalued) calls fuel F V (revertStatements reverts message) m =
        (.error .halted, m') ∧
      m'.world.reverted =
        some (if reverts = .default ∨ reverts = .strip ∨ message = "" then [] else errorPayload message)) ∧
    decodeError? (errorPayload message) = some message := by
  refine ⟨?_, decodeError?_errorPayload hfits⟩
  by_cases h : (!reverts.includesDebugReasons || (utf8Bytes message).isEmpty) = true
  · rw [revertStatements, if_pos h, execAll_cons_of_error (exec_revert_of_evaluates evaluates_zero evaluates_zero),
      if_pos ((quiet_iff reverts message).1 h)]
    exact ⟨_, rfl, rfl⟩
  · rw [if_neg (mt (quiet_iff reverts message).2 h)]
    exact execAll_revertStatements_of_message h hfits m

/-- A message that fills a word exactly, in memory that holds something else. -/
theorem execAll_revertStatements_payload_whole :
    let message := "arithmetic overflow in the vault"
    let I := interpretation (fun _ _ s => (none, s)) fun _ => 0
    let m : Machine World := { world := { memory := fun _ => 0xff, callData := [] } }
    (utf8Bytes message).length = wordBytes ∧ (errorPayload message).length < 2 ^ wordBits ∧
      (∃ m', execAll I (callFunction I 0) 0 [] Locals.empty (revertStatements .debug message) m =
          (.error .halted, m') ∧ m'.world.reverted = some (errorPayload message)) ∧
      decodeError? (errorPayload message) = some message := by
  have hlength : (utf8Bytes "arithmetic overflow in the vault").length = wordBytes := by decide +kernel
  have hfits : (errorPayload "arithmetic overflow in the vault").length < 2 ^ wordBits := by
    rw [length_errorPayload, length_chunks, hlength]
    decide
  exact ⟨hlength, hfits, execAll_revertStatements_payload .debug hfits _⟩

end Evm

end YulBackend
