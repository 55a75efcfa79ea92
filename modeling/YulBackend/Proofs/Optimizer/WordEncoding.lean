import YulBackend.Proofs.Optimizer.ConstantConditions
import YulBackend.Proofs.Optimizer.Resolution
import YulBackend.Proofs.Semantics.Words

namespace YulBackend

/-- A prover that makes the variables that it is asked for. -/
def Prover.NamesVariables {σ : Type} (prover : Prover σ) : Prop :=
  ∀ name sort s, (prover.newVariable name sort s).1 = .var name sort

theorem Evaluation.namesVariables_prover : Evaluation.prover.NamesVariables := fun _ _ _ => rfl

namespace Encoder

section

variable {σ : Type} {encoder : Encoder σ}

theorem freshVariable_fst (hprover : encoder.prover.NamesVariables) (c : Encoding σ) :
    (encoder.freshVariable c).1 = .var (freshName c.fresh) .int :=
  hprover _ _ _

theorem bind_fst (hprover : encoder.prover.NamesVariables) (name : String) (c : Encoding σ) :
    (encoder.bind name c).1 = .var (boundName name) .int :=
  hprover _ _ _

mutual

/-- With any prover that names variables as asked, encoding gives the formula that is computed from the bindings and
the counter. -/
theorem encode_eq_formula (hprover : encoder.prover.NamesVariables) : ∀ (e : Expr) (c : Encoding σ),
    ((encoder.encode e c).1, (encoder.encode e c).2.fresh) =
      formula encoder.dialect encoder.tracked c.bindings c.fresh e
  | .call _ callee arguments, c => by
    rw [encode, formula]
    cases encoder.dialect.instruction? callee.name with
    | none => exact Prod.ext (freshVariable_fst hprover c) rfl
    | some instruction =>
      have harguments := encodeAll_eq_formulas hprover arguments c
      dsimp only
      rw [StateM.bind_apply, ← harguments]
      dsimp only
      cases model? instruction (encoder.encodeAll arguments c).1 with
      | none => exact Prod.ext (freshVariable_fst hprover _) rfl
      | some f => rfl
  | .identifier name, c => by
    rw [encode_identifier, resolve?, formula]
    cases c.bindings.get? name.name with
    | none =>
      rw [ite_self]
      exact Prod.ext (freshVariable_fst hprover c) rfl
    | some bound =>
      dsimp only
      by_cases htracked : encoder.tracked name.name
      · rw [if_pos htracked, if_pos htracked]
      · rw [if_neg htracked, if_neg htracked]
        exact Prod.ext (freshVariable_fst hprover c) rfl
  | .literal value, c => by
    rw [encode, formula]
    cases value.word with
    | ok word => rfl
    | error fault => exact Prod.ext (freshVariable_fst hprover c) rfl

/-- With any prover that names variables as asked, encoding arguments gives the formulas computed from the bindings and
the counter. -/
theorem encodeAll_eq_formulas (hprover : encoder.prover.NamesVariables) : ∀ (es : List Expr) (c : Encoding σ),
    ((encoder.encodeAll es c).1, (encoder.encodeAll es c).2.fresh) =
      formulas encoder.dialect encoder.tracked c.bindings c.fresh es
  | [], c => by
    rw [encodeAll, formulas]
    rfl
  | e :: rest, c => by
    have hfirst := encode_eq_formula hprover e c
    have hrest := encodeAll_eq_formulas hprover rest (encoder.encode e c).2
    rw [encodeAll, formulas, StateM.bind_apply, StateM.bind_apply, ← hfirst]
    rw [bindings_encode] at hrest
    dsimp only
    rw [← hrest]
    rfl

end

end

/-- Assignments that differ only in fresh variables with numbers from `k` on and below `k'`. -/
def SameOutside (k k' : Nat) (ρ ρ' : Assignment) : Prop :=
  ∀ v, (∀ j, k ≤ j → j < k' → v ≠ freshName j) → ρ' v = ρ v

namespace SameOutside

variable {k k' l l' : Nat} {ρ ρ' ρ'' : Assignment}

theorem refl (k k' : Nat) (ρ : Assignment) : SameOutside k k' ρ ρ := fun _ _ => rfl

theorem mono (h : SameOutside k k' ρ ρ') (hk : l ≤ k) (hk' : k' ≤ l') : SameOutside l l' ρ ρ' :=
  fun v hv => h v fun j hj hj' => hv j (Nat.le_trans hk hj) (Nat.lt_of_lt_of_le hj' hk')

theorem trans (h : SameOutside k k' ρ ρ') (h' : SameOutside k k' ρ' ρ'') : SameOutside k k' ρ ρ'' :=
  fun v hv => (h' v hv).trans (h v hv)

theorem update {j : Nat} (hk : k ≤ j) (hk' : j < k') (ρ : Assignment) (n : Int) :
    SameOutside k k' ρ (Function.update ρ (freshName j) n) :=
  fun _ hv => Function.update_of_ne (hv j hk hk') n ρ

theorem sameBelow (h : SameOutside k k' ρ ρ') : SameBelow k ρ ρ' :=
  fun v hv => h v fun j hj _ => hv j hj

/-- A variable that was made before or behind keeps its value. -/
theorem apply_of_isVariable (h : SameOutside k k' ρ ρ') {bindings : SortedMap String Formula}
    {visible : List String} {v : String} (hv : IsVariable bindings visible l l' v) (hle : l' ≤ k ∨ k' ≤ l) :
    ρ v = ρ' v := by
  rcases hv with ⟨x, _, _, rfl⟩ | ⟨i, hi, hi', rfl⟩
  · exact (h.sameBelow.apply_boundName x).symm
  · refine (h _ fun j hj hj' heq => ?_).symm
    have := freshName_injective heq
    omega

end SameOutside

section

variable {d : Dialect} {tracked : String → Bool} {bindings : SortedMap String Formula}
variable {V : String → Option Word} {ρ : Assignment}

theorem length_areOpen (d : Dialect) (V : String → Option Word) (es : List Expr) :
    (Expr.areOpen d V es).length = es.length := by
  induction es with
  | nil => rfl
  | cons e rest ih => rw [Expr.areOpen, List.length_cons, ih, List.length_cons]

/-- Of the modelled instructions, only a sum is ever open. -/
theorem exists_of_isOpen {i : Instruction} {fs : List Formula} {f : Formula} (h : model? i fs = some f)
    {opens : List Bool} (hlength : opens.length = fs.length) (hopen : i.isOpen opens) :
    ∃ a b x y, fs = [a, b] ∧ f = .add a b ∧ opens = [x, y] ∧ (x || y) := by
  rw [model?.eq_def] at h
  split at h <;> cases h
  case h_4 a =>
    obtain ⟨x, rfl⟩ := List.length_eq_one_iff.1 hlength
    cases hopen
  all_goals obtain ⟨x, y, rfl⟩ := List.length_eq_two.1 hlength
  case h_5 a b => exact ⟨a, b, x, y, rfl, rfl, rfl, hopen⟩
  all_goals cases hopen

theorem exists_denotes_fresh {k k' j : Nat} (hk : k ≤ j) (hk' : j < k') (ρ : Assignment) (n : Int) :
    ∃ ρ', SameOutside k k' ρ ρ' ∧ (fresh j).1.Denotes ρ' n := by
  refine ⟨_, .update hk hk' ρ n, ?_⟩
  rw [fresh, Formula.Denotes, Formula.denote, Function.update_self]

variable (d tracked bindings) in
/-- With other values of the fresh variables that are made for it, the formula of an expression stands for a
number. -/
def CanStandFor (k : Nat) (e : Expr) (ρ : Assignment) (n : Int) : Prop :=
  ∃ ρ', SameOutside k (formula d tracked bindings k e).2 ρ ρ' ∧ (formula d tracked bindings k e).1.Denotes ρ' n

/-- What can stand for an expression's value is denoted by its formula, by whatever names that is given. -/
theorem CanStandFor.of_formula_eq {k k' : Nat} {e : Expr} {f : Formula} {n : Int}
    (h : CanStandFor d tracked bindings k e ρ n) (he : formula d tracked bindings k e = (f, k')) :
    ∃ ρ', SameOutside k k' ρ ρ' ∧ f.Denotes ρ' n := by
  rwa [CanStandFor, he] at h

section

variable {k k' : Nat} {e : Expr} {f : Formula} (he : formula d tracked bindings k e = (f, k'))

include he

theorem le_of_formula_eq : k ≤ k' := by
  have hle : k ≤ (formula d tracked bindings k e).2 := le_formula k e
  rwa [he] at hle

theorem exists_denotes_of_formula_eq (hbindings : BindsNames bindings) (ρ : Assignment) :
    ∃ n, f.Denotes ρ n := by
  have hdenotes : ∃ n, (formula d tracked bindings k e).1.Denotes ρ n := exists_denotes d hbindings ρ k e
  rwa [he] at hdenotes

/-- What else is encoded does not change what a formula stands for. -/
theorem SameOutside.denotes {l l' : Nat} {ρ' : Assignment} {n : Int} (h : SameOutside l l' ρ ρ')
    (hbindings : BindsNames bindings) (hle : k' ≤ l ∨ l' ≤ k) (hf : f.Denotes ρ n) : f.Denotes ρ' n := by
  refine hf.congr fun v hv => ?_
  have hmem : v ∈ (formula d tracked bindings k e).1.variableNames := by rwa [he]
  have hvariable := isVariable_of_mem_formula hbindings k e (e.isScoped_of_names (List.Subset.refl _)) hmem
  rw [he] at hvariable
  exact h.apply_of_isVariable hvariable hle

end

/-- A sum stands for any number if one of its summands does. -/
theorem exists_denotes_add (hbindings : BindsNames bindings) {a b : Expr} {k k₁ k₂ : Nat} {f g : Formula}
    (ha : formula d tracked bindings k a = (f, k₁)) (hb : formula d tracked bindings k₁ b = (g, k₂))
    (hfree : (∀ ρ n, CanStandFor d tracked bindings k a ρ n) ∨ ∀ ρ n, CanStandFor d tracked bindings k₁ b ρ n)
    (ρ : Assignment) (n : Int) : ∃ ρ', SameOutside k k₂ ρ ρ' ∧ (Formula.add f g).Denotes ρ' n := by
  -- The free summand makes up for what the other one stands for.
  rcases hfree with hfree | hfree
  · obtain ⟨m, hg⟩ := exists_denotes_of_formula_eq hb hbindings ρ
    obtain ⟨ρ', hsame, hf⟩ := (hfree ρ (n - m)).of_formula_eq ha
    refine ⟨ρ', hsame.mono (Nat.le_refl k) (le_of_formula_eq hb), ?_⟩
    simpa using hf.add (hsame.denotes hb hbindings (.inr (Nat.le_refl k₁)) hg)
  · obtain ⟨m, hf⟩ := exists_denotes_of_formula_eq ha hbindings ρ
    obtain ⟨ρ', hsame, hg⟩ := (hfree ρ (n - m)).of_formula_eq hb
    refine ⟨ρ', hsame.mono (le_of_formula_eq ha) (Nat.le_refl k₂), ?_⟩
    simpa using (hsame.denotes ha hbindings (.inl (Nat.le_refl k₁)) hf).add hg

/-- What is open stands for any number. -/
theorem canStandFor_of_isOpen (hbindings : BindsNames bindings)
    (hV : ∀ x, (V x).isSome ↔ tracked x ∧ bindings.contains x) : ∀ (e : Expr) (k : Nat),
    e.isOpen d V → ∀ ρ n, CanStandFor d tracked bindings k e ρ n
  | .call _ callee arguments, k, hopen, ρ, n => by
    rw [CanStandFor, formula]
    rw [Expr.isOpen] at hopen
    cases hinstruction : d.instruction? callee.name with
    | none => exact exists_denotes_fresh (Nat.le_refl k) (Nat.lt_succ_self k) ρ n
    | some i =>
      have hle : k ≤ (formulas d tracked bindings k arguments).2 := le_formulas k arguments
      simp only [hinstruction] at hopen
      dsimp only
      cases hmodel : model? i (formulas d tracked bindings k arguments).1 with
      | none => exact exists_denotes_fresh hle (Nat.lt_succ_self _) ρ n
      | some f =>
        have hlength : (Expr.areOpen d V arguments).length =
            (formulas d tracked bindings k arguments).1.length := by
          rw [length_areOpen, length_formulas]
        obtain ⟨f₁, f₂, x, y, hfs, rfl, hopens, hxy⟩ := exists_of_isOpen hmodel hlength hopen
        obtain ⟨a, b, rfl⟩ := List.length_eq_two.1 (by rw [← length_areOpen d V, hopens]; rfl)
        simp only [formulas] at hfs
        cases hfs
        cases hopens
        rw [Bool.or_eq_true] at hxy
        exact exists_denotes_add hbindings rfl rfl
          (hxy.imp (canStandFor_of_isOpen hbindings hV a k) (canStandFor_of_isOpen hbindings hV b _)) ρ n
  | .identifier name, k, hopen, ρ, n => by
    rw [CanStandFor, formula]
    rw [Expr.isOpen, Option.isNone_iff_eq_none] at hopen
    cases hbound : bindings.get? name.name with
    | none => exact exists_denotes_fresh (Nat.le_refl k) (Nat.lt_succ_self k) ρ n
    | some bound =>
      have huntracked : ¬ tracked name.name := by
        intro htracked
        have hsome := (hV name.name).2 ⟨htracked, by rw [SortedMap.contains, hbound]; rfl⟩
        rw [hopen] at hsome
        cases hsome
      dsimp only
      rw [if_neg huntracked]
      exact exists_denotes_fresh (Nat.le_refl k) (Nat.lt_succ_self k) ρ n
  | .literal value, k, hopen, ρ, n => by
    rw [CanStandFor, formula]
    rw [Expr.isOpen] at hopen
    cases hword : value.word with
    | ok word =>
      rw [hword] at hopen
      cases hopen
    | error fault => exact exists_denotes_fresh (Nat.le_refl k) (Nat.lt_succ_self k) ρ n
termination_by e => sizeOf e

/-- The bound variables of names with a word have these words. -/
def HoldsWords (V : String → Option Word) (ρ : Assignment) : Prop :=
  ∀ x w, V x = some w → ρ (boundName x) = w.toNat

theorem HoldsWords.of_sameOutside {k k' : Nat} {ρ ρ' : Assignment} (h : HoldsWords V ρ)
    (hsame : SameOutside k k' ρ ρ') : HoldsWords V ρ' :=
  fun x w hx => (hsame.sameBelow.apply_boundName x).trans (h x w hx)

mutual

/-- An expression in which no sum wraps around can stand for its word. -/
theorem canStandFor_word (hbindings : BindsNames bindings)
    (hV : ∀ x, (V x).isSome ↔ tracked x ∧ bindings.contains x) : ∀ (e : Expr) (k : Nat)
    (choice : List Nat → Word), e.fits d V choice → ∀ ρ, HoldsWords V ρ →
      CanStandFor d tracked bindings k e ρ (e.word d V choice).toNat
  | .call span callee arguments, k, choice, hfits, ρ, hρ => by
    rw [Expr.fits, Bool.or_eq_true] at hfits
    rcases hfits with hopen | hfits
    · exact canStandFor_of_isOpen hbindings hV _ k hopen ρ _
    · rw [CanStandFor, formula, Expr.word]
      cases hinstruction : d.instruction? callee.name with
      | none => exact exists_denotes_fresh (Nat.le_refl k) (Nat.lt_succ_self k) ρ _
      | some i =>
        have hle : k ≤ (formulas d tracked bindings k arguments).2 := le_formulas k arguments
        simp only [hinstruction, Bool.and_eq_true] at hfits
        obtain ⟨ρ', hsame, hvalues⟩ := canStandFor_words hbindings hV arguments k 0 choice hfits.1 ρ hρ
        dsimp only
        cases hmodel : model? i (formulas d tracked bindings k arguments).1 with
        | none => exact exists_denotes_fresh hle (Nat.lt_succ_self _) ρ _
        | some f =>
          -- The formula stands for the number of the instruction, which is the word unless it wraps around.
          obtain ⟨n, hn, hdenotes⟩ := exists_denotes_of_model? hmodel hvalues
          have hlt : n < 2 ^ wordBits := by simpa [hn] using hfits.2
          refine ⟨ρ', hsame, ?_⟩
          rw [Instruction.onWords?_eq, hn, Option.map_some, Option.getD_some, BitVec.toNat_ofNat,
            Nat.mod_eq_of_lt hlt]
          exact hdenotes
  | .identifier name, k, choice, _, ρ, hρ => by
    cases hword : V name.name with
    | none =>
      have hopen : (Expr.identifier name).isOpen d V := by rw [Expr.isOpen, hword, Option.isNone_none]
      exact canStandFor_of_isOpen hbindings hV _ k hopen ρ _
    | some w =>
      rw [CanStandFor, formula, Expr.word, hword, Option.getD_some]
      obtain ⟨htracked, hbound⟩ := (hV name.name).1 (by rw [hword]; rfl)
      obtain ⟨bound, hget⟩ := Option.isSome_iff_exists.1 hbound
      rw [hget]
      dsimp only
      rw [if_pos htracked, hbindings _ _ hget]
      exact ⟨ρ, .refl _ _ ρ, congrArg (fun n => some (Evaluation.Value.int n)) (hρ _ _ hword)⟩
  | .literal value, k, choice, _, ρ, _ => by
    rw [CanStandFor, formula, Expr.word]
    cases hword : value.word with
    | ok n =>
      refine ⟨ρ, .refl _ _ ρ, ?_⟩
      dsimp only
      rw [BitVec.toNat_ofNat, Nat.mod_eq_of_lt (Literal.word_lt hword)]
      exact Formula.denotes_int ρ n
    | error fault => exact exists_denotes_fresh (Nat.le_refl k) (Nat.lt_succ_self k) ρ _

/-- The formulas of arguments can stand for their words all at once, if no sum among them wraps around unless it is
open. -/
theorem canStandFor_words (hbindings : BindsNames bindings)
    (hV : ∀ x, (V x).isSome ↔ tracked x ∧ bindings.contains x) : ∀ (es : List Expr) (k index : Nat)
    (choice : List Nat → Word), Expr.allFit d V choice index es → ∀ ρ, HoldsWords V ρ →
      ∃ ρ', SameOutside k (formulas d tracked bindings k es).2 ρ ρ' ∧
        List.Forall₂ (fun (f : Formula) (n : Nat) => f.Denotes ρ' n) (formulas d tracked bindings k es).1
          ((Expr.words d V choice index es).map BitVec.toNat)
  | [], k, _, _, _, ρ, _ => ⟨ρ, .refl _ _ ρ, .nil⟩
  | e :: rest, k, index, choice, hfits, ρ, hρ => by
    rw [Expr.allFit, Bool.and_eq_true] at hfits
    have hfirst : k ≤ (formula d tracked bindings k e).2 := le_formula k e
    have hrest : (formula d tracked bindings k e).2 ≤
        (formulas d tracked bindings (formula d tracked bindings k e).2 rest).2 := le_formulas _ rest
    obtain ⟨ρ₁, hsame₁, he⟩ := canStandFor_word hbindings hV e k _ hfits.1 ρ hρ
    obtain ⟨ρ₂, hsame₂, hothers⟩ :=
      canStandFor_words hbindings hV rest _ (index + 1) choice hfits.2 ρ₁ (hρ.of_sameOutside hsame₁)
    rw [formulas, Expr.words, List.map_cons]
    refine ⟨ρ₂, (hsame₁.mono (Nat.le_refl k) hrest).trans (hsame₂.mono hfirst (Nat.le_refl _)), .cons ?_ hothers⟩
    -- The arguments behind change fresh variables with higher numbers only.
    exact hsame₂.denotes rfl hbindings (.inl (Nat.le_refl _)) he

end

end

section

variable {σ : Type}

/-- A use of an encoder, or of its prover by someone else. -/
inductive Use (σ : Type)
  | bind (name : String)
  | encode (e : Expr)
  | ask (action : StateM σ Unit)

variable (encoder : Encoder σ)

def use (c : Encoding σ) : Use σ → Encoding σ
  | .bind name => (encoder.bind name c).2
  | .encode e => (encoder.encode e c).2
  | .ask action => (ask action c).2

/-- The state of an encoder after uses, one after the other. -/
def useAll (c : Encoding σ) (uses : List (Use σ)) : Encoding σ := uses.foldl encoder.use c

/-- The words that an encoder knows of, where the program's variables have these words. -/
def wordOf? (c : Encoding σ) (words : String → Word) (x : String) : Option Word :=
  (encoder.resolve? c x).map fun _ => words x

variable {encoder}

/-- Using an encoder keeps every binding by name. -/
theorem bindsNames_use (hprover : encoder.prover.NamesVariables) {c : Encoding σ} (h : BindsNames c.bindings)
    (use : Use σ) : BindsNames (encoder.use c use).bindings := by
  cases use with
  | bind name =>
    intro x f hf
    have hbindings : (encoder.bind name c).2.bindings = c.bindings.insert name (encoder.bind name c).1 := rfl
    rw [Encoder.use, hbindings, SortedMap.get?_insert] at hf
    split at hf
    next hx =>
      cases hf
      rw [hx]
      exact bind_fst hprover name c
    next => exact h x f hf
  | encode e =>
    rw [Encoder.use, bindings_encode]
    exact h
  | ask action => exact h

/-- Using an encoder any number of times keeps every binding by name. -/
theorem bindsNames_useAll (hprover : encoder.prover.NamesVariables) {c : Encoding σ}
    (h : BindsNames c.bindings) (uses : List (Use σ)) : BindsNames (encoder.useAll c uses).bindings := by
  induction uses generalizing c with
  | nil => exact h
  | cons use rest ih => exact ih (bindsNames_use hprover h use)

/-- A name has a word in an encoder when it is tracked and bound. -/
theorem isSome_wordOf?_iff {c : Encoding σ} {words : String → Word} (x : String) :
    (encoder.wordOf? c words x).isSome ↔ encoder.tracked x ∧ c.bindings.contains x := by
  rw [wordOf?, Option.isSome_map, resolve?, SortedMap.contains]
  split
  next htracked => exact (and_iff_right htracked).symm
  next htracked => simp [htracked]

/-- Integers that are the words of the bound names hold what the encoder takes them to hold. -/
theorem holdsWords_wordOf? {c : Encoding σ} {words : String → Word} {ρ : Assignment}
    (h : ∀ x, c.bindings.contains x → ρ (boundName x) = (words x).toNat) :
    HoldsWords (encoder.wordOf? c words) ρ := by
  intro x w hw
  have hbound := ((isSome_wordOf?_iff x).1 (by rw [hw]; rfl)).2
  obtain ⟨bound, _, rfl⟩ := Option.map_eq_some_iff.1 hw
  exact h x hbound

end

end Encoder

/-- Under no assignment are these formulas true together with one more. -/
def Formula.Refute (fs : List Formula) (q : Formula) : Prop := ∀ ρ, (∀ f ∈ fs, f.Holds ρ) → ¬ q.Holds ρ

namespace Encoder

section

variable {d : Dialect} {tracked : String → Bool} {bindings : SortedMap String Formula} {k : Nat} {e : Expr}
variable {ρ : Assignment} {n : Int} (hn : CanStandFor d tracked bindings k e ρ n)
variable {fs : List Formula} (hfs : ∀ f ∈ fs, f.Holds ρ)
variable (hnames : ∀ f ∈ fs, ∀ v ∈ f.variableNames, ∀ j, k ≤ j → v ≠ freshName j)

include hn hfs hnames

theorem CanStandFor.ne_zero (h : Formula.Refute fs (.eq (formula d tracked bindings k e).1 (.int 0))) :
    n ≠ 0 := by
  obtain ⟨ρ', hsame, hf⟩ := hn
  intro hzero
  exact h ρ' (hsame.sameBelow.holds hfs hnames) ((hf.holds_eq_iff (Formula.denotes_int ρ' 0)).2 hzero)

theorem CanStandFor.eq_zero (h : Formula.Refute fs (.notEq (formula d tracked bindings k e).1 (.int 0))) :
    n = 0 := by
  obtain ⟨ρ', hsame, hf⟩ := hn
  by_contra hne
  exact h ρ' (hsame.sameBelow.holds hfs hnames) ((hf.holds_notEq_iff (Formula.denotes_int ρ' 0)).2 hne)

end

/-- Whatever an encoder was used for before, the formula that `encode` makes of an expression in which no sum wraps
around can stand for its word, with other values of the fresh variables that are made for it. What is refuted of the
formula does not hold for the word. A sum that wraps around may stand where its formula is open. -/
theorem exists_denotes_encode {σ : Type} {encoder : Encoder σ} (hprover : encoder.prover.NamesVariables)
    (session : σ) (uses : List (Use σ)) (e : Expr) (words : String → Word) (choice : List Nat → Word) :
    let c := encoder.useAll { session } uses
    let encoded := encoder.encode e c
    let word := e.word encoder.dialect (encoder.wordOf? c words) choice
    e.fits encoder.dialect (encoder.wordOf? c words) choice →
      ∀ ρ : Assignment, (∀ x, c.bindings.contains x → ρ (boundName x) = (words x).toNat) →
        (∃ ρ', SameOutside c.fresh encoded.2.fresh ρ ρ' ∧ encoded.1.Denotes ρ' word.toNat) ∧
        ∀ fs, (∀ f ∈ fs, f.Holds ρ) →
          (∀ f ∈ fs, ∀ v ∈ f.variableNames, ∀ j, c.fresh ≤ j → v ≠ freshName j) →
          (Formula.Refute fs (.eq encoded.1 (.int 0)) → word ≠ 0) ∧
          (Formula.Refute fs (.notEq encoded.1 (.int 0)) → word = 0) := by
  intro c encoded word hfits ρ hρ
  have hempty : BindsNames (SortedMap.empty : SortedMap String Formula) := fun x f hf => nomatch hf
  have hbindings : BindsNames c.bindings := bindsNames_useAll hprover hempty uses
  have hword : CanStandFor encoder.dialect encoder.tracked c.bindings c.fresh e ρ word.toNat :=
    canStandFor_word hbindings isSome_wordOf?_iff e c.fresh choice hfits ρ (holdsWords_wordOf? hρ)
  have hformula := encode_eq_formula hprover e c
  have hzero : word.toNat = 0 ↔ word = 0 := BitVec.toNat_inj (y := 0)
  refine ⟨?_, fun fs hfs hnames => ⟨fun h hw => ?_, fun h => ?_⟩⟩
  · rwa [CanStandFor, ← hformula] at hword
  · refine hword.ne_zero hfs hnames ?_ (Int.natCast_eq_zero.2 (hzero.2 hw))
    rwa [← hformula]
  · refine hzero.1 (Int.natCast_eq_zero.1 (hword.eq_zero hfs hnames ?_))
    rwa [← hformula]

/-- An encoder for London that tracks `x`. -/
def tracksX : Encoder Evaluation.Session :=
  { dialect := .evm .london, tracked := (· = "x"), prover := Evaluation.prover }

/-- `gt(add(x, 1), add(mload(0), 2))`, where only the second sum is open. -/
def comparedSums : Expr :=
  .apply "gt" [.apply "add" [.var "x", .number "1"], .apply "add" [.apply "mload" [.number "0"], .number "2"]]

/-- `iszero(add(x, 1))` -/
def zeroSum : Expr := .apply "iszero" [.apply "add" [.var "x", .number "1"]]

/-- The open sum wraps around, and the other one does not. Where `x` is known to be five, `iszero(add(x, 1))` is
refuted. -/
theorem exists_denotes_encode_comparedSums :
    let c := tracksX.useAll { session := {} } [.bind "x", .encode (.var "y")]
    let V := tracksX.wordOf? c fun _ => 5
    let known := [.eq (.var (boundName "x") .int) (.int 5)]
    comparedSums.fits tracksX.dialect V (fun _ => -1) ∧
      (∃ ρ', SameOutside 1 2 (fun _ => 5) ρ' ∧ (tracksX.encode comparedSums c).1.Denotes ρ' 1) ∧
      Formula.Refute known (.notEq (tracksX.encode zeroSum c).1 (.int 0)) ∧
      zeroSum.word tracksX.dialect V (fun _ => -1) = 0 := by
  intro c V known
  have hprover : tracksX.prover.NamesVariables := Evaluation.namesVariables_prover
  have hfits : comparedSums.fits tracksX.dialect V (fun _ => -1) := by decide +kernel
  have hfitsZero : zeroSum.fits tracksX.dialect V (fun _ => -1) := by decide +kernel
  have hword : comparedSums.word tracksX.dialect V (fun _ => -1) = 1 := by decide +kernel
  have hformula : (tracksX.encode zeroSum c).1 =
      wordOf (.eq (.add (.var (boundName "x") .int) (.int 1)) (.int 0)) := by cbv
  have hrefute : Formula.Refute known (.notEq (tracksX.encode zeroSum c).1 (.int 0)) := by
    intro ρ hknown
    have hx : ρ (boundName "x") = 5 :=
      ((Formula.denotes_var ρ _ .int).holds_eq_iff (Formula.denotes_int ρ 5)).1 (hknown _ List.mem_cons_self)
    rw [hformula]
    simp [Formula.Holds, Formula.notEq, Formula.denote, wordOf, hx]
  obtain ⟨⟨ρ', hsame, hdenotes⟩, _⟩ := exists_denotes_encode hprover {} [.bind "x", .encode (.var "y")]
    comparedSums (fun _ => 5) _ hfits (fun _ => 5) fun _ _ => rfl
  obtain ⟨_, hrefuted⟩ := exists_denotes_encode hprover {} [.bind "x", .encode (.var "y")] zeroSum (fun _ => 5) _
    hfitsZero (fun _ => 5) fun _ _ => rfl
  rw [hword] at hdenotes
  refine ⟨hfits, ⟨ρ', hsame, hdenotes⟩, hrefute, (hrefuted known ?_ ?_).2 hrefute⟩
  · intro f hf
    rw [List.mem_singleton.1 hf]
    exact ((Formula.denotes_var _ _ .int).holds_eq_iff (Formula.denotes_int _ 5)).2 rfl
  · intro f hf v hv j _
    rw [List.mem_singleton.1 hf] at hv
    rw [List.mem_singleton.1 hv]
    exact boundName_ne_freshName "x" j

/-- The largest word. -/
def maxWord : Literal := .number "0xffffffffffffffffffffffffffffffffffffffffffffffffffffffffffffffff"

/-- `add(0xff…ff, 1)` -/
def wrappingSum : Expr := .apply "add" [.literal maxWord, .number "1"]

/-- The largest word is written as a literal of that value. -/
theorem word_maxWord : maxWord.word = .ok (2 ^ wordBits - 1) := by
  have hword : maxWord.word.toOption = some (2 ^ wordBits - 1) := by decide +kernel
  cases h : maxWord.word with
  | ok n => simpa [h, Except.toOption] using hword
  | error fault => simp [h, Except.toOption] at hword

set_option maxRecDepth 4000 in
/-- A sum that wraps around to zero is encoded as one that is never zero, and is taken for a condition that
always holds. -/
theorem not_denotes_encode_wrappingSum :
    (∀ V choice, wrappingSum.word tracksX.dialect V choice = 0) ∧
      (∀ ρ, ¬ (tracksX.encode wrappingSum { session := {} }).1.Denotes ρ 0) ∧
      ConstantConditions.run tracksX.dialect (ConstantConditions.guardedStore wrappingSum) =
        (ConstantConditions.guardedStore (.number "1"), ⟨1, 0⟩) := by
  have hadd : tracksX.dialect.instruction? "add" = some .add := by decide +kernel
  have hone : (Literal.number "1").word = .ok 1 := rfl
  have hformula : (tracksX.encode wrappingSum { session := {} }).1 =
      .add (.int ((2 ^ wordBits - 1 : Nat) : Int)) (.int (1 : Nat)) := by
    have hprover : tracksX.prover.NamesVariables := Evaluation.namesVariables_prover
    have h := encode_eq_formula hprover wrappingSum { session := {} }
    rw [(Prod.ext_iff.1 h).1, wrappingSum, Expr.apply, Expr.number, formula]
    simp only [hadd, formulas, formula, word_maxWord, hone, model?]
  refine ⟨fun V choice => ?_, fun ρ hzero => ?_, by cbv⟩
  · rw [wrappingSum, Expr.apply, Expr.number, Expr.word]
    simp only [hadd, Expr.words, Expr.word, word_maxWord, hone, Instruction.onWords?, Option.getD_some]
    decide +kernel
  · have hsum := (Formula.denotes_int ρ ((2 ^ wordBits - 1 : Nat) : Int)).add (Formula.denotes_int ρ (1 : Nat))
    rw [hformula] at hzero
    have heq := Evaluation.Value.int.inj (Option.some.inj (hzero.symm.trans hsum))
    omega

end Encoder

end YulBackend
