import YulBackend.Proofs.Literal.Numerals
import YulBackend.Proofs.Literal.Words
import YulBackend.Proofs.Semantics.Rules
import YulBackend.Proofs.Semantics.Words

namespace YulBackend

/-- The last bytes of a number, as many as asked for, most significant first. -/
def bytesOf : Nat → Nat → List UInt8
  | 0, _ => []
  | count + 1, n => bytesOf count (n / 256) ++ [UInt8.ofNat n]

@[simp]
theorem length_bytesOf (count n : Nat) : (bytesOf count n).length = count := by
  induction count generalizing n with
  | zero => rfl
  | succ count ih => rw [bytesOf, List.length_append, ih, List.length_singleton]

/-- Reading back the bytes of a number gives the number, less what the bytes have no room for. -/
theorem bigEndian_bytesOf (count n : Nat) : bigEndian (bytesOf count n) = n % 256 ^ count := by
  induction count generalizing n with
  | zero => rw [pow_zero, Nat.mod_one]; rfl
  | succ count ih =>
    have hmod : n % 256 ^ (count + 1) = n % 256 + 256 * (n / 256 % 256 ^ count) := by
      rw [pow_succ', Nat.mod_mul]
    rw [bytesOf, bigEndian_concat, ih, UInt8.toNat_ofNat', hmod, Nat.add_comm]

/-- Writing out what bytes read as gives the bytes again, when they are as many. -/
theorem bytesOf_bigEndian {bytes : List UInt8} {count : Nat} (h : bytes.length = count) :
    bytesOf count (bigEndian bytes) = bytes := by
  subst h
  refine bigEndian_inj (length_bytesOf _ _) ?_
  rw [bigEndian_bytesOf, Nat.mod_eq_of_lt (bigEndian_lt bytes)]

theorem bytesOf_leftAligned {bytes : List UInt8} (h : bytes.length ≤ wordBytes) :
    bytesOf wordBytes (leftAligned bytes) = bytes ++ List.replicate (wordBytes - bytes.length) 0 := by
  rw [leftAligned_eq]
  exact bytesOf_bigEndian (by rw [List.length_append, List.length_replicate, Nat.add_sub_cancel' h])

/-- The bytes of a number split into those of its quotient and those of its remainder. -/
theorem bytesOf_add (high low n : Nat) :
    bytesOf (high + low) n = bytesOf high (n / 256 ^ low) ++ bytesOf low n := by
  induction low generalizing n with
  | zero => simp [bytesOf]
  | succ low ih =>
    have hdiv : n / 256 / 256 ^ low = n / 256 ^ (low + 1) := by rw [Nat.div_div_eq_div_mul, pow_succ']
    rw [← Nat.add_assoc, bytesOf, ih, bytesOf, hdiv, List.append_assoc]

theorem bytesOf_mul (count n : Nat) : bytesOf count (n * 256 ^ count) = List.replicate count 0 := by
  induction count generalizing n with
  | zero => rfl
  | succ count ih =>
    have hpow : n * 256 ^ (count + 1) = n * 256 ^ count * 256 := by rw [pow_succ, Nat.mul_assoc]
    have hlast : UInt8.ofNat (n * 256 ^ count * 256) = 0 := by
      refine UInt8.toNat_inj.1 ?_
      rw [UInt8.toNat_ofNat', Nat.mul_mod_left]
      rfl
    rw [bytesOf, hpow, Nat.mul_div_cancel _ (by decide), ih, hlast, List.replicate_succ']

/-- A number whose low bytes are cleared keeps its high bytes. -/
theorem bytesOf_clear (high low n : Nat) :
    bytesOf (high + low) (n / 256 ^ low * 256 ^ low) =
      (bytesOf (high + low) n).take high ++ List.replicate low 0 := by
  have hhigh : (bytesOf high (n / 256 ^ low)).length = high := length_bytesOf _ _
  rw [bytesOf_add, bytesOf_add, Nat.mul_div_cancel _ (Nat.pow_pos (by decide)), bytesOf_mul,
    List.take_left' hhigh]

namespace Evm

/-- What the code of a contract sees and changes. -/
structure World where
  memory : Nat → UInt8
  callData : List UInt8
  /-- The data of the revert that ended the run, if one did. -/
  reverted : Option (List UInt8) := none

/-- The byte of the call data at a position. -/
def World.callDataByte (s : World) (position : Nat) : UInt8 := s.callData.getD position 0

/-- The word whose first byte is at a position. -/
def wordAt (bytes : Nat → UInt8) (position : Nat) : Word :=
  BitVec.ofNat wordBits (bigEndian ((List.range wordBytes).map fun i => bytes (position + i)))

/-- The bytes that stand from a position on, as many as asked for. -/
def bytesAt (bytes : Nat → UInt8) (position count : Nat) : List UInt8 :=
  (List.range count).map fun i => bytes (position + i)

/-- Memory with a word stored at a position. -/
def store (bytes : Nat → UInt8) (position : Nat) (word : Word) : Nat → UInt8 := fun k =>
  if position ≤ k then ((bytesOf wordBytes word.toNat)[k - position]?).getD (bytes k) else bytes k

/-- Memory with words stored side by side from a position on. -/
def storeAll (bytes : Nat → UInt8) (position : Nat) : List Word → Nat → UInt8
  | [] => bytes
  | word :: words => storeAll (store bytes position word) (position + wordBytes) words

/-- The words that stand side by side from a position on, as many as asked for. -/
def wordsAt (bytes : Nat → UInt8) (position : Nat) : Nat → List Word
  | 0 => []
  | count + 1 => wordAt bytes position :: wordsAt bytes (position + wordBytes) count

section

variable {bytes bytes' : Nat → UInt8} {position count k : Nat}

@[simp]
theorem length_bytesAt (bytes : Nat → UInt8) (position count : Nat) :
    (bytesAt bytes position count).length = count := by
  rw [bytesAt, List.length_map, List.length_range]

/-- The bytes read from a place depend only on the bytes of that range. -/
theorem bytesAt_congr (h : ∀ k, position ≤ k → k < position + count → bytes k = bytes' k) :
    bytesAt bytes position count = bytesAt bytes' position count := by
  refine List.map_congr_left fun i hi => ?_
  have hi := List.mem_range.1 hi
  exact h _ (by omega) (by omega)

theorem bytesAt_add (bytes : Nat → UInt8) (position low high : Nat) :
    bytesAt bytes position (low + high) = bytesAt bytes position low ++ bytesAt bytes (position + low) high := by
  simp only [bytesAt, List.range_add, List.map_append, List.map_map, Function.comp_def, Nat.add_assoc]

theorem wordAt_congr (h : ∀ k, position ≤ k → k < position + wordBytes → bytes k = bytes' k) :
    wordAt bytes position = wordAt bytes' position :=
  congrArg (fun bytes => BitVec.ofNat wordBits (bigEndian bytes)) (bytesAt_congr h)

/-- Storing a word leaves every byte outside its 32 alone. -/
theorem store_of_outside (word : Word) (h : k < position ∨ position + wordBytes ≤ k) :
    store bytes position word k = bytes k := by
  rw [store]
  split
  next hposition =>
    have hlength : (bytesOf wordBytes word.toNat).length ≤ k - position := by
      rw [length_bytesOf]
      omega
    rw [List.getElem?_eq_none hlength, Option.getD_none]
  next => rfl

/-- The bytes of a word that was stored are read back. -/
theorem bytesAt_store (bytes : Nat → UInt8) (position : Nat) (word : Word) :
    bytesAt (store bytes position word) position wordBytes = bytesOf wordBytes word.toNat := by
  refine List.ext_getElem (by simp) fun i hi hi' => ?_
  simp only [bytesAt, List.getElem_map, List.getElem_range]
  rw [store, if_pos (by omega), Nat.add_sub_cancel_left, List.getElem?_eq_getElem hi', Option.getD_some]

/-- A word that was stored is read back. -/
theorem wordAt_store (bytes : Nat → UInt8) (position : Nat) (word : Word) :
    wordAt (store bytes position word) position = word := by
  have hfits : word.toNat < 256 ^ wordBytes := word.isLt
  rw [wordAt, ← bytesAt, bytesAt_store, bigEndian_bytesOf, Nat.mod_eq_of_lt hfits, BitVec.ofNat_toNat,
    BitVec.setWidth_eq]

/-- Storing words one behind the other leaves every byte outside their range alone. -/
theorem storeAll_of_outside {words : List Word} (h : k < position ∨ position + wordBytes * words.length ≤ k) :
    storeAll bytes position words k = bytes k := by
  induction words generalizing bytes position with
  | nil => rfl
  | cons word words ih =>
    rw [List.length_cons, Nat.mul_succ] at h
    rw [storeAll, ih (by omega), store_of_outside word (by omega)]

/-- The range that words were stored to reads as the bytes of the words in order. -/
theorem bytesAt_storeAll (bytes : Nat → UInt8) (position : Nat) (words : List Word) :
    bytesAt (storeAll bytes position words) position (wordBytes * words.length) =
      words.flatMap fun word => bytesOf wordBytes word.toNat := by
  induction words generalizing bytes position with
  | nil => rfl
  | cons word words ih =>
    have hfirst : bytesAt (storeAll bytes position (word :: words)) position wordBytes =
        bytesAt (store bytes position word) position wordBytes :=
      bytesAt_congr fun k _ hk => storeAll_of_outside (.inl hk)
    have hlength : wordBytes * (word :: words).length = wordBytes + wordBytes * words.length := by
      rw [List.length_cons, Nat.mul_succ, Nat.add_comm]
    rw [hlength, bytesAt_add, hfirst, bytesAt_store, storeAll, ih, List.flatMap_cons]

/-- Words that were stored side by side are read back. -/
theorem wordAt_storeAll {words : List Word} {i : Nat} (hi : i < words.length) :
    wordAt (storeAll bytes position words) (position + wordBytes * i) = words[i] := by
  induction words generalizing bytes position i with
  | nil => cases hi
  | cons word words ih =>
    cases i with
    | zero =>
      have hfirst : wordAt (storeAll bytes position (word :: words)) position =
          wordAt (store bytes position word) position :=
        wordAt_congr fun k _ hk => storeAll_of_outside (.inl hk)
      rw [Nat.mul_zero, Nat.add_zero, hfirst, wordAt_store]
      rfl
    | succ i =>
      have hrest := @ih (store bytes position word) (position + wordBytes) i (Nat.lt_of_succ_lt_succ hi)
      have hnext : position + wordBytes * (i + 1) = position + wordBytes + wordBytes * i := by ring
      rw [hnext, storeAll, hrest]
      rfl

theorem length_wordsAt (bytes : Nat → UInt8) (position count : Nat) :
    (wordsAt bytes position count).length = count := by
  induction count generalizing position with
  | zero => rfl
  | succ count ih => rw [wordsAt, List.length_cons, ih]

/-- The words read from a place depend only on the bytes of that range. -/
theorem wordsAt_congr {count : Nat}
    (h : ∀ k, position ≤ k → k < position + wordBytes * count → bytes k = bytes' k) :
    wordsAt bytes position count = wordsAt bytes' position count := by
  induction count generalizing position with
  | zero => rfl
  | succ count ih =>
    rw [Nat.mul_succ] at h
    rw [wordsAt, wordsAt, wordAt_congr fun k hk hk' => h k hk (by omega), ih fun k hk hk' => h k (by omega) (by omega)]

/-- Words stored one behind the other are read back as they were. -/
theorem wordsAt_storeAll (bytes : Nat → UInt8) (position : Nat) (words : List Word) :
    wordsAt (storeAll bytes position words) position words.length = words := by
  induction words generalizing bytes position with
  | nil => rfl
  | cons word words ih =>
    have hfirst : wordAt (storeAll bytes position (word :: words)) position = word :=
      @wordAt_storeAll bytes position (word :: words) 0 (Nat.succ_pos _)
    rw [List.length_cons, wordsAt, hfirst, storeAll, ih]

end

/-- The word that an instruction computes. -/
def compute? : Instruction → List Word → Option Word
  | .add, [a, b] => some (a + b)
  | .sub, [a, b] => some (a - b)
  | .and, [a, b] => some (a &&& b)
  | .isZero, [a] => some (if a = 0 then 1 else 0)
  | .slt, [a, b] => some (if a.toInt < b.toInt then 1 else 0)
  | .signExtend, [k, a] =>
    some (if k.toNat < wordBytes - 1 then (a.setWidth (8 * (k.toNat + 1))).signExtend wordBits else a)
  | _, _ => none

/-- What an instruction gives and does. One that gives nothing ends the run. -/
def step? : Instruction → List Word → World → Option (Option (List Nat) × World)
  | .mStore, [position, word], s => some (some [], { s with memory := store s.memory position.toNat word })
  | .callDataLoad, [position], s => some (some [(wordAt s.callDataByte position.toNat).toNat], s)
  | .revert, [position, length], s =>
    some (none, { s with reverted := some ((List.range length.toNat).map fun i => s.memory (position.toNat + i)) })
  | i, words, s => (compute? i words).map fun word => (some [word.toNat], s)

/-- The meaning of code on the machine, where all other builtins do this. No instruction is marked as one in the
dialect, so that none has the meaning in which sums do not wrap around. -/
def interpretation (other : String → List Nat → World → Option (List Nat) × World) (unvalued : Literal → Nat) :
    Interpretation World where
  dialect := { Dialect.evm .london with
    builtins := (Dialect.evm .london).builtins.map fun b => { b with instruction := none } }
  builtin name values s :=
    (((Dialect.evm .london).instruction? name).bind (step? · (values.map (BitVec.ofNat wordBits)) s)).getD
      (other name values s)
  unvalued

/-- Every instruction is found under its own name on the newest target, so a name stands for one instruction. -/
theorem instruction?_name (i : Instruction) : (Dialect.evm .london).instruction? i.signature.name = some i := by
  cases i <;> decide +kernel

/-- A run was ended by a revert. -/
def Reverts {α : Type} (run : Except Stop α × Machine World) : Prop :=
  ∃ m, run = (.error .halted, m) ∧ m.world.reverted.isSome

section

variable {other : String → List Nat → World → Option (List Nat) × World} {unvalued : Literal → Nat}
  {m : Machine World} {i : Instruction} {values : List Nat}

theorem builtin?_interpretation (name : String) :
    (interpretation other unvalued).dialect.builtin? name =
      ((Dialect.evm .london).builtin? name).map fun b => { b with instruction := none } :=
  List.find?_map ..

/-- Every instruction the helpers use is a builtin of the machine. -/
theorem isSome_builtin? (i : Instruction) :
    ((interpretation other unvalued).dialect.builtin? i.signature.name).isSome := by
  obtain ⟨b, hb, -⟩ := Option.bind_eq_some_iff.1 (instruction?_name i)
  rw [builtin?_interpretation, hb]
  rfl

/-- Names that start like no builtin are names of functions. -/
theorem builtin?_append {stem : String} (h : ∀ b ∈ (Dialect.evm .london).builtins, ¬ stem.toList <+: b.name.toList)
    (rest : String) : (interpretation other unvalued).dialect.builtin? (stem ++ rest) = none := by
  rw [builtin?_interpretation, Option.map_eq_none_iff, Dialect.builtin?, List.find?_eq_none]
  intro b hb heq
  refine h b hb ?_
  rw [eq_of_beq heq, String.toList_append]
  exact List.prefix_append _ _

/-- What `step?` fixes for an instruction is what the machine's builtin of that name does, whatever `other` would
do. -/
theorem builtin_of_step? {r : Option (List Nat) × World} {s : World}
    (h : step? i (values.map (BitVec.ofNat wordBits)) s = some r) :
    (interpretation other unvalued).builtin i.signature.name values s = r := by
  have hbuiltin : (interpretation other unvalued).builtin i.signature.name values s =
      (((Dialect.evm .london).instruction? i.signature.name).bind
        (step? · (values.map (BitVec.ofNat wordBits)) s)).getD (other i.signature.name values s) := rfl
  rw [hbuiltin, instruction?_name, Option.bind_some, h]
  rfl

/-- Performing an instruction that `step?` fixes ends with its words, or halts if there are none. -/
theorem perform_of_step? {result : Option (List Nat)} {world : World}
    (h : step? i (values.map (BitVec.ofNat wordBits)) m.world = some (result, world)) :
    (interpretation other unvalued).perform i.signature.name values m =
      (result.elim (.error .halted) .ok, { m with world }) := by
  have hnone : (interpretation other unvalued).dialect.instruction? i.signature.name = none := by
    rw [Dialect.instruction?, builtin?_interpretation]
    cases (Dialect.evm .london).builtin? i.signature.name <;> rfl
  rw [Interpretation.perform, hnone, Option.bind_none]
  dsimp only
  rw [builtin_of_step? h]
  cases result <;> rfl

/-- An instruction that only computes gives its word and leaves the world alone. -/
theorem step?_of_compute? {words : List Word} {word : Word} (h : compute? i words = some word) (s : World) :
    step? i words s = some (some [word.toNat], s) := by
  rw [step?.eq_def]
  split
  next => cases h
  next => cases h
  next => cases h
  next => rw [h, Option.map_some]

/-- An expression gives a word, and has no effect. -/
def Evaluates (I : Interpretation World) (call : String → List Nat → Exec World (List Nat)) (V : Locals)
    (m : Machine World) (e : Expr) (word : Word) : Prop :=
  Execution.eval I call V e m = (.ok [word.toNat], m)

end

section

open Execution

variable {other : String → List Nat → World → Option (List Nat) × World} {unvalued : Literal → Nat}
  {call : String → List Nat → Exec World (List Nat)} {V : Locals} {m : Machine World} {i : Instruction}
  {e e' : Expr} {a b word : Word} {n : Nat} {name : String}

theorem eval_instruction {arguments : List Expr} {values : List Nat} {result : Option (List Nat)}
    {m' : Machine World} {world : World}
    (harguments : evalAll (interpretation other unvalued) call V arguments m = (.ok values, m'))
    (h : step? i (values.map (BitVec.ofNat wordBits)) m'.world = some (result, world)) :
    eval (interpretation other unvalued) call V (.apply i.signature.name arguments) m =
      (result.elim (.error .halted) .ok, { m' with world }) := by
  rw [eval_builtin harguments (isSome_builtin? i), perform_of_step? h]

theorem eval_compute_one {m' : Machine World}
    (he : eval (interpretation other unvalued) call V e m = (.ok [a.toNat], m')) (h : compute? i [a] = some word) :
    eval (interpretation other unvalued) call V (.apply i.signature.name [e]) m = (.ok [word.toNat], m') :=
  eval_instruction (evalAll_cons evalAll_nil he) (step?_of_compute? (by simpa using h) _)

/-- Applying a computing instruction to two arguments evaluates the second first and gives the word computed from
both. -/
theorem eval_compute_two {m' m'' : Machine World}
    (he' : eval (interpretation other unvalued) call V e' m = (.ok [b.toNat], m'))
    (he : eval (interpretation other unvalued) call V e m' = (.ok [a.toNat], m''))
    (h : compute? i [a, b] = some word) :
    eval (interpretation other unvalued) call V (.apply i.signature.name [e, e']) m = (.ok [word.toNat], m'') :=
  eval_instruction (evalAll_cons (evalAll_cons evalAll_nil he') he) (step?_of_compute? (by simpa using h) _)

theorem evaluates_number {text : String} (h : (Literal.number text).word = .ok n) (hn : n < 2 ^ wordBits) :
    Evaluates (interpretation other unvalued) call V m (.number text) (BitVec.ofNat wordBits n) := by
  rw [Evaluates, eval_number, Interpretation.literal, h, BitVec.toNat_ofNat, Nat.mod_eq_of_lt hn]

theorem evaluates_decimal (hn : n < 2 ^ wordBits) :
    Evaluates (interpretation other unvalued) call V m (.decimal n) (BitVec.ofNat wordBits n) :=
  evaluates_number (Literal.word_decimal hn) hn

theorem evaluates_hexadecimal (hn : n < 2 ^ wordBits) :
    Evaluates (interpretation other unvalued) call V m (.hexadecimal n) (BitVec.ofNat wordBits n) :=
  evaluates_number (Literal.word_hexadecimal hn) hn

theorem evaluates_var (h : V name = some word.toNat) :
    Evaluates (interpretation other unvalued) call V m (.var name) word :=
  eval_var h

namespace Evaluates

variable (he : Evaluates (interpretation other unvalued) call V m e a)
  (he' : Evaluates (interpretation other unvalued) call V m e' b)

include he

theorem all_one : evalAll (interpretation other unvalued) call V [e] m = (.ok [a.toNat], m) :=
  evalAll_cons evalAll_nil he

/-- `calldataload` reads the word at an offset of the call data, with zeros beyond its end. -/
theorem callDataLoad :
    Evaluates (interpretation other unvalued) call V m (.apply "calldataload" [e])
      (wordAt m.world.callDataByte a.toNat) := by
  have hstep : step? .callDataLoad ([a.toNat].map (BitVec.ofNat wordBits)) m.world =
      some (some [(wordAt m.world.callDataByte a.toNat).toNat], m.world) := by
    simp [step?]
  exact eval_instruction he.all_one hstep

/-- A call of a user function with one argument evaluates to the word the function returns for it. -/
theorem call_one (hname : (interpretation other unvalued).dialect.builtin? name = none)
    (hcall : call name [a.toNat] m = (.ok [word.toNat], m)) :
    Evaluates (interpretation other unvalued) call V m (.apply name [e]) word := by
  rw [Evaluates, eval_call he.all_one hname, hcall]

include he'

theorem compute_two (h : compute? i [a, b] = some word) :
    Evaluates (interpretation other unvalued) call V m (.apply i.signature.name [e, e']) word :=
  eval_compute_two he' he h

theorem add : Evaluates (interpretation other unvalued) call V m (.apply "add" [e, e']) (a + b) :=
  he.compute_two he' (i := .add) rfl

end Evaluates

section

variable {fuel : Nat} {F : Functions} {calls : Calls World} {p w : Nat}
  (hp : eval (interpretation other unvalued) (calls F) V e m = (.ok [p], m))
  (hw : eval (interpretation other unvalued) (calls F) V e' m = (.ok [w], m))

include hp hw

theorem exec_mStore : exec (interpretation other unvalued) calls fuel F V (.perform "mstore" [e, e']) m =
    (.ok (.normal, V), { m with world := { m.world with
      memory := store m.world.memory (BitVec.ofNat wordBits p).toNat (BitVec.ofNat wordBits w) } }) :=
  exec_perform (eval_instruction (i := .mStore) (evalAll_cons (evalAll_cons evalAll_nil hw) hp) rfl)

theorem exec_revert : exec (interpretation other unvalued) calls fuel F V (.perform "revert" [e, e']) m =
    (.error .halted, { m with world := { m.world with
      reverted := some (bytesAt m.world.memory (BitVec.ofNat wordBits p).toNat (BitVec.ofNat wordBits w).toNat) } }) :=
  exec_perform_of_error (eval_instruction (i := .revert) (evalAll_cons (evalAll_cons evalAll_nil hw) hp) rfl)

end

end

end Evm

end YulBackend
