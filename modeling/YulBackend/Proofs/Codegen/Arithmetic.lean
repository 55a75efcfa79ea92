import YulBackend.Proofs.Codegen.Cleaning
import YulBackend.Proofs.Codegen.ClosedCode
import YulBackend.Proofs.Semantics.Spans
import YulBackend.Proofs.Semantics.Targets

namespace YulBackend

open Evm Execution

/-- The bits that a mask keeps and those that it clears make up the word. -/
theorem Word.toNat_clear_add_keep (word mask : Word) :
    (word &&& ~~~mask).toNat + (word &&& mask).toNat = word.toNat := by
  have hdisjoint : (word &&& ~~~mask) &&& (word &&& mask) = 0 := by
    ext i hi
    simp only [BitVec.getElem_and, BitVec.getElem_not]
    cases word[i] <;> cases mask[i] <;> simp
  have hjoin : (word &&& ~~~mask) ||| (word &&& mask) = word := by
    ext i hi
    simp only [BitVec.getElem_or, BitVec.getElem_and, BitVec.getElem_not]
    cases word[i] <;> cases mask[i] <;> rfl
  rw [← BitVec.toNat_add_of_and_eq_zero hdisjoint, BitVec.add_eq_or_of_and_eq_zero _ _ hdisjoint, hjoin]

/-- Clearing the low bits of a sum gives the least multiple of thirty-two that is no less than a word, if that is a word
too. -/
theorem Word.toNat_round_up {word : Word} {least : Nat} (h : IsLeast {n | 32 ∣ n ∧ word.toNat ≤ n} least)
    (hleast : least < 2 ^ wordBits) : ((word + 31) &&& ~~~31).toNat = least := by
  obtain ⟨⟨⟨k, rfl⟩, hle⟩, hmin⟩ := h
  -- A multiple of thirty-two below the number of words is so far below it that the sum does not wrap around.
  have hfits : word.toNat + 31 < 2 ^ wordBits := by
    have hwords : 2 ^ wordBits = 32 * 2 ^ 251 := by decide
    omega
  have hsum : (word + 31).toNat = word.toNat + 31 := by
    rw [BitVec.toNat_add]
    exact Nat.mod_eq_of_lt hfits
  have hlow : ((word + 31) &&& 31).toNat = (word + 31).toNat % 2 ^ 5 := by
    rw [← SourceType.toNat_setWidth_setWidth, ← Word.and_low (word + 31) (show 5 ≤ wordBits by decide)]
    rfl
  have hsplit := Word.toNat_clear_add_keep (word + 31) 31
  have hnext : 32 * k ≤ 32 * ((word.toNat + 31) / 32) := hmin ⟨⟨_, rfl⟩, by omega⟩
  rw [hlow, hsum] at hsplit
  omega

namespace CodeRequest

variable {settings : Settings} {r : CodeRequest} {plan : HelperPlan}

/-- A plan under the name of the shift by some bits is a plan for that shift. -/
theorem Plans.main_eq_shiftRight (h : r.Plans settings plan) {bits : Nat} (hbits : bits < 256)
    (hname : plan.main.name = (Helper.shiftRightDefinition settings.evmVersion bits).name) :
    plan.main = Helper.shiftRightDefinition settings.evmVersion bits := by
  have hkind : r.kind = .helper .shiftRight := h.kind_eq (.helper (.shiftRight hbits)) hname
  cases h with
  | helper h =>
    cases h with
    | shiftRight =>
      rw [Helper.shiftRightDefinition_name, Helper.shiftRightDefinition_name] at hname
      rw [eq_of_toString_append (append_right_injective hname)]
    | _ => cases hkind
  | _ => cases hkind

/-- A plan under the name of the rounding function is a plan for it. -/
theorem Plans.main_eq_roundUp (h : r.Plans settings plan) (hname : plan.main.name = Helper.roundUpDefinition.name) :
    plan.main = Helper.roundUpDefinition := by
  have hkind : r.kind = .roundUp := h.kind_eq .roundUp hname
  cases h with
  | helper h => cases h <;> cases hkind
  | roundUp => rfl
  | _ => cases hkind

end CodeRequest

namespace Collector

/-- A name is not taken, or the collector holds what requests made for a version. -/
def Admits (version : EvmVersion) (c : Collector) (name : String) : Prop :=
  ¬ c.contains name ∨
    ∃ settings requests, settings.evmVersion = version ∧ c = CodeRequest.stock settings {} requests

/-- A function that has its name for itself among those that requests make is there with its own text. -/
theorem Admits.code?_add {version : EvmVersion} {c : Collector} {d : Definition} (h : c.Admits version d.name)
    (hown : ∀ {settings : Settings} {r : CodeRequest} {plan : HelperPlan}, settings.evmVersion = version →
      r.Plans settings plan → plan.main.name = d.name → plan.main = d) :
    (c.add d).code? d.name = some d.code := by
  by_cases htaken : c.contains d.name
  · obtain hfree | ⟨settings, requests, hversion, rfl⟩ := h
    · exact absurd htaken hfree
    obtain ⟨entry, hentry⟩ := Option.isSome_iff_exists.1 htaken
    obtain ⟨r, -, -, part, -, plan, hplan, hname, rfl, -⟩ :=
      (CodeRequest.stocked_stock settings requests).made _ _ hentry
    rw [add, if_pos htaken, code?, hentry, hown hversion hplan hname]
    rfl
  · rw [contains_eq, Option.not_isSome_iff_eq_none] at htaken
    rw [code?, get?_add, htaken, Option.none_or, if_pos rfl]
    rfl

/-- A function is added once. -/
theorem add_add (c : Collector) (d : Definition) : (c.add d).add d = c.add d := by
  have htaken : (c.add d).contains d.name := by
    rw [contains_eq, get?_add, if_pos rfl, Option.isSome_or]
    exact Bool.or_true _
  exact if_pos htaken

end Collector

namespace Helper

section

variable {W : Type} {version target : EvmVersion} {other : String → List Nat → W → Option (List Nat) × W}
  {unvalued : Literal → Nat} {call : String → List Nat → Exec W (List Nat)} {V : Locals} {m : Machine W}
  {word : Word}

variable (hvalue : V "value" = some word.toNat)

include hvalue

/-- A shift, by whichever instruction the version has for it, divides by a power of two. Later versions have the
instruction too. -/
theorem eval_shiftedRight (htarget : version ≤ target) {bits : Nat} (hbits : bits < 256) :
    eval (onTarget target other unvalued) call V (shiftedRight version bits) m =
      (.ok [word.toNat / 2 ^ bits], m) := by
  have hpow : 2 ^ bits < 2 ^ wordBits := Nat.pow_lt_pow_right (by decide) hbits
  rw [shiftedRight]
  split
  next hshift =>
    have hfits : bits < 2 ^ wordBits := Nat.lt_of_lt_of_le hbits (by decide)
    have hshr : (word >>> (BitVec.ofNat wordBits bits).toNat).toNat = word.toNat / 2 ^ bits := by
      rw [BitVec.toNat_ushiftRight, BitVec.toNat_ofNat, Nat.mod_eq_of_lt hfits, Nat.shiftRight_eq_div_pow]
    rw [← hshr]
    have hsince : Instruction.shr.signature.since ≤ target := Nat.le_trans (of_decide_eq_true hshift) htarget
    exact eval_onTarget_two (i := .shr) hsince (eval_numeral (Literal.word_decimal hfits) hfits) (eval_var hvalue) rfl
  next =>
    have hdiv : (if BitVec.ofNat wordBits (2 ^ bits) = 0 then 0 else word / BitVec.ofNat wordBits (2 ^ bits)).toNat =
        word.toNat / 2 ^ bits := by
      have hdivisor : (BitVec.ofNat wordBits (2 ^ bits)).toNat = 2 ^ bits := by
        rw [BitVec.toNat_ofNat, Nat.mod_eq_of_lt hpow]
      have hne : BitVec.ofNat wordBits (2 ^ bits) ≠ 0 := by
        intro hzero
        rw [hzero] at hdivisor
        exact absurd hdivisor (Nat.two_pow_pos bits).ne
      rw [if_neg hne, BitVec.toNat_udiv, hdivisor]
    rw [← hdiv, Nat.one_shiftLeft]
    exact eval_onTarget_two (i := .div) (Nat.zero_le _) (eval_var hvalue)
      (eval_numeral (Literal.word_hexadecimal hpow) hpow) rfl

/-- The expression of the rounding helper clears the low bits of a sum. -/
theorem eval_rounded :
    eval (onTarget target other unvalued) call V
        (.apply "and" [.apply "add" [.var "value", .decimal 31], .apply "not" [.decimal 31]]) m =
      (.ok [((word + 31) &&& ~~~31).toNat], m) := by
  have hlow : eval (onTarget target other unvalued) call V (.decimal 31) m = (.ok [(31 : Word).toNat], m) :=
    eval_numeral rfl (by decide)
  have hsum : eval (onTarget target other unvalued) call V (.apply "add" [.var "value", .decimal 31]) m =
      (.ok [(word + 31).toNat], m) :=
    eval_onTarget_two (i := .add) (Nat.zero_le _) (eval_var hvalue) hlow rfl
  have hmask : eval (onTarget target other unvalued) call V (.apply "not" [.decimal 31]) m =
      (.ok [(~~~31 : Word).toNat], m) :=
    eval_onTarget_one (i := .not) (Nat.zero_le _) hlow rfl
  exact eval_onTarget_two (i := .and) (Nat.zero_le _) hsum hmask rfl

end

/-- The expression for a shift has its literals valued, the power of two on old targets included. -/
theorem isValued_shiftedRight (version : EvmVersion) {bits : Nat} (hbits : bits < 256) :
    (shiftedRight version bits).isValued := by
  have hpow : 1 <<< bits < 2 ^ wordBits := by
    rw [Nat.one_shiftLeft]
    exact Nat.pow_lt_pow_right (by decide) hbits
  have hdecimal : (Expr.decimal bits).isValued :=
    Expr.isValued_number (Literal.word_decimal (Nat.lt_of_lt_of_le hbits (by decide)))
  have hhexadecimal : (Expr.hexadecimal (1 <<< bits)).isValued :=
    Expr.isValued_number (Literal.word_hexadecimal hpow)
  rw [shiftedRight]
  split
  · exact Bool.and_eq_true_iff.2 ⟨hdecimal, rfl⟩
  · exact Bool.and_eq_true_iff.2 ⟨hhexadecimal, rfl⟩

/-- The text of a function in braces is a program in which a call of the function with a word gives this number, and
has no effect, on the machine of a version. -/
def Gives (target : EvmVersion) (text name : String) (word : Word) (result : Nat) : Prop :=
  ∃ program, parse ("\x7b" ++ text ++ "\x7d") = .ok program ∧
    ∀ (W : Type) (other : String → List Nat → W → Option (List Nat) × W) (unvalued : Literal → Nat) (fuel : Nat)
      (F : Functions) (m : Machine W),
      callFunction (onTarget target other unvalued) (fuel + 1) (Stmt.definitions program.statements :: F) name
        [word.toNat] m = (.ok [result], m)

/-- A function that assigns its result once, by an expression that gives this number, gives it from its text too. -/
theorem gives_of_eval {target : EvmVersion} {d : Definition} {parameter result : String} {e : Expr} {word : Word}
    {given : Nat} (hd : d = ⟨d.name, [parameter], [result], .ofList [.assign [result] e]⟩) (hne : parameter ≠ result)
    (hvalued : e.isValued) (hwf : d.function.isWellFormed)
    (he : ∀ {W : Type} {other : String → List Nat → W → Option (List Nat) × W} {unvalued : Literal → Nat}
      {call : String → List Nat → Exec W (List Nat)} {V : Locals} {m : Machine W}, V parameter = some word.toNat →
      eval (onTarget target other unvalued) call V e m = (.ok [given], m)) :
    Gives target d.code d.name word given := by
  have hbare : d.function.hasBareInitialiser = false := by
    rw [hd]
    rfl
  obtain ⟨program, hparse, hview⟩ := parse_functions (List.forall_mem_singleton.2 hwf)
    (List.forall_mem_singleton.2 hbare)
  rw [List.map_singleton, String.intercalate_singleton] at hparse
  refine ⟨program, hparse, fun W other unvalued fuel F m => ?_⟩
  have hdefinitions := Block.definitions_congr hview
  rw [Block.ofList, definitions_functions, List.map_singleton, List.map_eq_singleton_iff] at hdefinitions
  obtain ⟨read, hread, hsame⟩ := hdefinitions
  have hname := congrArg Definition.name hsame
  change read.name = d.name at hname
  have hfind : (Stmt.definitions program.statements).find? (·.name = d.name) = some read := by
    rw [hread, List.find?_cons, hname]
    simp
  exact callFunction_of_assign (hsame.trans (congrArg Definition.eraseSpans hd)) hne hvalued
    (Functions.find?_cons hfind) fun _ _ => he

/-- The code of the shift function, made for a version, gives the quotient by the power of two on that target and on
later ones. -/
theorem gives_shiftRight {version target : EvmVersion} (htarget : version ≤ target) {bits : Nat} (hbits : bits < 256)
    (word : Word) :
    Gives target (shiftRightDefinition version bits).code (shiftRightDefinition version bits).name word
      (word.toNat / 2 ^ bits) :=
  gives_of_eval rfl (by decide) (isValued_shiftedRight version hbits) (isWellFormed_shiftRight version bits)
    fun hvalue => eval_shiftedRight hvalue htarget hbits

/-- The code of the rounding function gives the least multiple of 32 that is not below its argument, if a word can hold
it. -/
theorem gives_roundUp (target : EvmVersion) {word : Word} {least : Nat}
    (h : IsLeast {n | 32 ∣ n ∧ word.toNat ≤ n} least) (hleast : least < 2 ^ wordBits) :
    Gives target roundUpDefinition.code roundUpDefinition.name word least := by
  refine gives_of_eval rfl (by decide) (by decide) isWellFormed_roundUp fun hvalue => ?_
  rw [← Word.toNat_round_up h hleast]
  exact eval_rounded hvalue

/-- `shiftRight` and `roundUp` compute what their names say, whatever the version that code is generated for. A shift
is refused just if it is by as many bits as a word has, or more. Any other one is a function of which the text, read in
braces and run on the machine of that version or a later one, gives the number divided by a power of two, rounded down,
so that the functions that shift and those that divide agree. The text of the rounding function gives the least
multiple of thirty-two that is no less than its argument, if that is a word. Only a function of another origin that has
the name already can stand in the way. -/
theorem arithmetic_gives (version : EvmVersion) (c : Collector) :
    (∀ bits, 256 ≤ bits → shiftRight version bits c = (.error (.violation (.shiftExceedsWord bits)), c)) ∧
    (∀ bits < 256, ∃ name c', shiftRight version bits c = (.ok name, c') ∧
      shiftRight version bits c' = (.ok name, c') ∧
      (c.Admits version name → ∃ text, c'.code? name = some text ∧
        ∀ target, version ≤ target → ∀ word, Gives target text name word (word.toNat / 2 ^ bits))) ∧
    ∃ name c', roundUp c = (.ok name, c') ∧ roundUp c' = (.ok name, c') ∧
      (c.Admits version name → ∃ text, c'.code? name = some text ∧
        ∀ target word least, IsLeast {n | 32 ∣ n ∧ word.toNat ≤ n} least → least < 2 ^ wordBits →
          Gives target text name word least) := by
  refine ⟨fun bits hbits => ?_, fun bits hbits => ?_, ?_⟩
  · rw [shiftRight, if_neg (Nat.not_lt.2 hbits)]
    rfl
  · refine ⟨_, _, shiftRight_apply hbits c, ?_, fun hadmits => ?_⟩
    · rw [shiftRight_apply hbits, Collector.add_add]
    · have hcode := hadmits.code?_add fun hversion hplan hname => by
        subst hversion
        exact hplan.main_eq_shiftRight hbits hname
      exact ⟨_, hcode, fun target htarget => gives_shiftRight htarget hbits⟩
  · refine ⟨_, _, roundUp_apply c, ?_, fun hadmits => ?_⟩
    · rw [roundUp_apply, Collector.add_add]
    · have hcode := hadmits.code?_add fun _ hplan hname => hplan.main_eq_roundUp hname
      exact ⟨_, hcode, fun target word least => gives_roundUp target⟩

/-- Before there was an instruction that shifts, a shift by 255 bits that an empty collector is asked for leaves the
highest bit, and 33 is rounded up to 64. -/
theorem arithmetic_gives_empty :
    (∃ name c', 255 < 256 ∧ ({} : Collector).Admits .byzantium name ∧ shiftRight .byzantium 255 {} = (.ok name, c') ∧
      ∃ text, c'.code? name = some text ∧ ∀ word, Gives .byzantium text name word (word.toNat / 2 ^ 255)) ∧
    ∃ name c', ({} : Collector).Admits .byzantium name ∧ roundUp {} = (.ok name, c') ∧
      ∃ text, c'.code? name = some text ∧ IsLeast {n | 32 ∣ n ∧ (33 : Word).toNat ≤ n} 64 ∧
        Gives .byzantium text name 33 64 := by
  obtain ⟨-, hshift, name, c', hround, -, hrounded⟩ := arithmetic_gives .byzantium {}
  have hadmits (name : String) : ({} : Collector).Admits .byzantium name := .inl Bool.false_ne_true
  have hleast : IsLeast {n | 32 ∣ n ∧ (33 : Word).toNat ≤ n} 64 := by
    refine ⟨⟨by decide, by decide⟩, fun n ⟨hdvd, hle⟩ => ?_⟩
    have hword : (33 : Word).toNat = 33 := rfl
    omega
  refine ⟨?_, name, c', hadmits name, hround, ?_⟩
  · obtain ⟨name, c', hshift, -, hshifted⟩ := hshift 255 (by decide)
    obtain ⟨text, htext, hgives⟩ := hshifted (hadmits name)
    exact ⟨name, c', by decide, hadmits name, hshift, text, htext, hgives .byzantium (Nat.le_refl _)⟩
  · obtain ⟨text, htext, hgives⟩ := hrounded (hadmits name)
    exact ⟨text, htext, hleast, hgives .byzantium 33 64 hleast (by decide)⟩

/-- Before there was an instruction that shifts. -/
example : (shiftRightDefinition .byzantium 8).code =
    "function shift_right_8_unsigned(value) -> newValue \x7b\n    newValue := div(value, 0x100)\n\x7d" := by
  decide

end Helper

end YulBackend
