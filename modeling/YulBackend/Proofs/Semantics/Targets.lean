import YulBackend.Proofs.Codegen.EmittedCode
import YulBackend.Proofs.Semantics.Evm

namespace YulBackend

namespace Evm

/-- The word that an instruction computes, whatever the version. Shifts by more bits than a word has leave nothing, and
division by zero gives zero. -/
def result? : Instruction → List Word → Option Word
  | .shr, [shift, a] => some (a >>> shift.toNat)
  | .div, [a, b] => some (if b = 0 then 0 else a / b)
  | .not, [a] => some (~~~a)
  | i, words => compute? i words

/-- The meaning of code on a machine of a version, where all builtins but those that only compute do this. No
instruction is marked as one in the dialect, so that none has the meaning in which sums do not wrap around. -/
def onTarget {W : Type} (version : EvmVersion) (other : String → List Nat → W → Option (List Nat) × W)
    (unvalued : Literal → Nat) : Interpretation W where
  dialect := { Dialect.evm version with
    builtins := (Dialect.evm version).builtins.map fun b => { b with instruction := none } }
  builtin name values s :=
    (((Dialect.evm version).instruction? name).bind (result? · (values.map (BitVec.ofNat wordBits)))).elim
      (other name values s) fun word => (some [word.toNat], s)
  unvalued

section

open Execution

variable {W : Type} {version : EvmVersion} {other : String → List Nat → W → Option (List Nat) × W}
  {unvalued : Literal → Nat} {i : Instruction} {m : Machine W}

theorem builtin?_onTarget (name : String) : (onTarget version other unvalued).dialect.builtin? name =
    ((Dialect.evm version).builtin? name).map fun b => { b with instruction := none } :=
  List.find?_map ..

/-- An instruction the version has gives the word computed from its operands and does nothing else. -/
theorem perform_onTarget (hi : i.signature.since ≤ version) {values : List Nat} {word : Word}
    (h : result? i (values.map (BitVec.ofNat wordBits)) = some word) :
    (onTarget version other unvalued).perform i.signature.name values m = (.ok [word.toNat], m) := by
  have hunmarked : (onTarget version other unvalued).dialect.instruction? i.signature.name = none := by
    rw [Dialect.instruction?, builtin?_onTarget]
    cases (Dialect.evm version).builtin? i.signature.name <;> rfl
  have hbuiltin : (onTarget version other unvalued).builtin i.signature.name values m.world =
      (some [word.toNat], m.world) := by
    have hknown : ((Dialect.evm version).instruction? i.signature.name).bind
        (result? · (values.map (BitVec.ofNat wordBits))) = some word := by
      rw [Dialect.instruction?_name_iff.2 hi, Option.bind_some, h]
    exact congrArg (Option.elim · _ _) hknown
  rw [Interpretation.perform, hunmarked, Option.bind_none]
  dsimp only
  rw [hbuiltin]

theorem eval_numeral {I : Interpretation W} {call : String → List Nat → Exec W (List Nat)} {V : Locals} {text : String}
    {n : Nat} (h : (Literal.number text).word = .ok n) (hn : n < 2 ^ wordBits) :
    eval I call V (.number text) m = (.ok [(BitVec.ofNat wordBits n).toNat], m) := by
  rw [eval_number, Interpretation.literal, h, BitVec.toNat_ofNat, Nat.mod_eq_of_lt hn]

section

variable {call : String → List Nat → Exec W (List Nat)} {V : Locals} {e e' : Expr} {a b word : Word}
  (hi : i.signature.since ≤ version)

include hi

/-- Applying a computing instruction evaluates to its word, given the words of all its arguments. -/
theorem eval_onTarget {arguments : List Expr} (words : List Word)
    (harguments : evalAll (onTarget version other unvalued) call V arguments m = (.ok (words.map BitVec.toNat), m))
    (h : result? i words = some word) :
    eval (onTarget version other unvalued) call V (.apply i.signature.name arguments) m = (.ok [word.toNat], m) := by
  have hsome : ((onTarget version other unvalued).dialect.builtin? i.signature.name).isSome := by
    rw [builtin?_onTarget, Dialect.builtin?_name hi]
    rfl
  have hwords : (words.map BitVec.toNat).map (BitVec.ofNat wordBits) = words := by
    rw [List.map_map]
    refine (List.map_congr_left fun a _ => ?_).trans (List.map_id words)
    exact (BitVec.ofNat_toNat wordBits a).trans (BitVec.setWidth_eq a)
  rw [eval_builtin harguments hsome]
  exact perform_onTarget hi (by rwa [hwords])

variable (he : eval (onTarget version other unvalued) call V e m = (.ok [a.toNat], m))

include he

/-- An instruction that the version has gives the word that it computes. -/
theorem eval_onTarget_one (h : result? i [a] = some word) :
    eval (onTarget version other unvalued) call V (.apply i.signature.name [e]) m = (.ok [word.toNat], m) :=
  eval_onTarget hi [a] (evalAll_cons evalAll_nil he) h

theorem eval_onTarget_two (he' : eval (onTarget version other unvalued) call V e' m = (.ok [b.toNat], m))
    (h : result? i [a, b] = some word) :
    eval (onTarget version other unvalued) call V (.apply i.signature.name [e, e']) m = (.ok [word.toNat], m) :=
  eval_onTarget hi [a, b] (evalAll_cons (evalAll_cons evalAll_nil he') he) h

end

end

end Evm

end YulBackend
