import YulBackend.Proofs.Literal.Words
import YulBackend.Proofs.Semantics.Execution

namespace YulBackend

/-- A word of the machine. -/
abbrev Word := BitVec wordBits

namespace Instruction

/-- The word that one of five instructions gives on words. -/
def onWords? : Instruction → List Word → Option Word
  | .lt, [a, b] => some (if a < b then 1 else 0)
  | .gt, [a, b] => some (if b < a then 1 else 0)
  | .eq, [a, b] => some (if a = b then 1 else 0)
  | .isZero, [a] => some (if a = 0 then 1 else 0)
  | .add, [a, b] => some (a + b)
  | _, _ => none

/-- The machine computes with numbers, and keeps what fits into a word. -/
theorem onWords?_eq (i : Instruction) (words : List Word) :
    i.onWords? words = (i.value? (words.map BitVec.toNat)).map (BitVec.ofNat wordBits) := by
  rw [onWords?.eq_def]
  split
  next a b =>
    simp only [List.map_cons, List.map_nil, value?, BitVec.lt_def]
    split <;> rfl
  next a b =>
    simp only [List.map_cons, List.map_nil, value?, BitVec.lt_def]
    split <;> rfl
  next a b =>
    simp only [List.map_cons, List.map_nil, value?, BitVec.toNat_inj]
    split <;> rfl
  next a =>
    have hzero : a.toNat = 0 ↔ a = 0 := BitVec.toNat_inj (y := 0)
    simp only [List.map_cons, List.map_nil, value?, hzero]
    split <;> rfl
  next a b =>
    rw [List.map_cons, List.map_cons, List.map_nil, value?, Option.map_some, BitVec.ofNat_add,
      BitVec.ofNat_toNat, BitVec.ofNat_toNat, BitVec.setWidth_eq, BitVec.setWidth_eq]
  next hlt hgt heq hisZero hadd =>
    have hpair : ∀ {m n}, words.map BitVec.toNat = [m, n] → ∃ a b, words = [a, b] := fun h =>
      List.length_eq_two.1 (by simpa using congrArg List.length h)
    rw [value?.eq_def]
    split
    next m n hwords =>
      obtain ⟨a, b, rfl⟩ := hpair hwords
      exact (hlt a b rfl rfl).elim
    next m n hwords =>
      obtain ⟨a, b, rfl⟩ := hpair hwords
      exact (hgt a b rfl rfl).elim
    next m n hwords =>
      obtain ⟨a, b, rfl⟩ := hpair hwords
      exact (heq a b rfl rfl).elim
    next m hwords =>
      obtain ⟨a, rfl⟩ := List.length_eq_one_iff.1 (by simpa using congrArg List.length hwords)
      exact (hisZero a rfl rfl).elim
    next m n hwords =>
      obtain ⟨a, b, rfl⟩ := hpair hwords
      exact (hadd a b rfl rfl).elim
    next => rfl

/-- Whether an instruction on these arguments is taken for any number, if these of the arguments are. -/
def isOpen : Instruction → List Bool → Bool
  | .lt, [_, _] | .gt, [_, _] | .eq, [_, _] | .isZero, [_] => false
  | .add, [a, b] => a || b
  | _, _ => true

end Instruction

section

variable (d : Dialect) (V : String → Option Word)

mutual

/-- The word of an expression, where the variables have these words. Which word is taken for something that has
no word of its own is a choice, made for each place in the expression: the numbers of its arguments, from the
outside in. -/
def Expr.word (choice : List Nat → Word) : Expr → Word
  | .call _ callee arguments =>
    match d.instruction? callee.name with
    | none => choice []
    | some i => (i.onWords? (Expr.words choice 0 arguments)).getD (choice [])
  | .identifier name => (V name.name).getD (choice [])
  | .literal value =>
    match value.word with
    | .ok n => BitVec.ofNat wordBits n
    | .error _ => choice []

def Expr.words (choice : List Nat → Word) (index : Nat) : List Expr → List Word
  | [] => []
  | e :: rest => e.word (fun place => choice (index :: place)) :: Expr.words choice (index + 1) rest

end

mutual

/-- An expression without a word of its own, or a sum of which a summand is one. -/
def Expr.isOpen : Expr → Bool
  | .call _ callee arguments =>
    match d.instruction? callee.name with
    | none => true
    | some i => i.isOpen (Expr.areOpen arguments)
  | .identifier name => (V name.name).isNone
  | .literal value => value.word.toOption.isNone

def Expr.areOpen : List Expr → List Bool
  | [] => []
  | e :: rest => e.isOpen :: Expr.areOpen rest

end

mutual

/-- No sum wraps around in an expression, but for those that are open, and what is below them. -/
def Expr.fits (choice : List Nat → Word) : Expr → Bool
  | .call span callee arguments =>
    (Expr.call span callee arguments).isOpen d V ||
      match d.instruction? callee.name with
      | none => true
      | some i => Expr.allFit choice 0 arguments &&
        (i.value? ((Expr.words d V choice 0 arguments).map BitVec.toNat)).all (· < 2 ^ wordBits)
  | .identifier _ | .literal _ => true

def Expr.allFit (choice : List Nat → Word) (index : Nat) : List Expr → Bool
  | [] => true
  | e :: rest => e.fits (fun place => choice (index :: place)) && Expr.allFit choice (index + 1) rest

end

end

end YulBackend
