import YulBackend.Proofs.Optimizer.Encoding
import YulBackend.Proofs.Semantics.Simulation

namespace YulBackend

open Evaluation Execution

namespace Encoder

variable {W : Type} {I : Interpretation W} {call : String → List Nat → Exec W (List Nat)}
variable {tracked : String → Bool} {bindings : SortedMap String Formula} {visible : List String}
variable {V : Locals} {ρ ρ' : Assignment}

/-- The word of a truth value denotes 1 or 0 as the condition holds. -/
theorem denotes_wordOf {c : Formula} {b : Bool} {p : Prop} [Decidable p]
    (h : c.denote ρ = some (.bool b)) (hb : b = true ↔ p) :
    (wordOf c).Denotes ρ ((if p then 1 else 0 : Nat) : Int) := by
  rw [Formula.Denotes, wordOf, Formula.denote, h]
  cases b with
  | true =>
    rw [if_pos (hb.1 rfl)]
    rfl
  | false =>
    rw [if_neg fun hp => absurd (hb.2 hp) Bool.false_ne_true]
    rfl

/-- A modelled instruction stands for an integer if its arguments do. -/
theorem exists_denotes_of_forall_mem {i : Instruction} {fs : List Formula} {f : Formula}
    (h : model? i fs = some f) (hfs : ∀ a ∈ fs, ∃ n, a.Denotes ρ n) : ∃ n, f.Denotes ρ n := by
  rw [model?.eq_def] at h
  split at h <;> cases h
  case h_4 a =>
    obtain ⟨n, ha⟩ := hfs a List.mem_cons_self
    exact ⟨_, denotes_wordOf (ha.denote_eq (Formula.denotes_int ρ 0)) decide_eq_true_iff⟩
  all_goals
    rename_i a b
    obtain ⟨m, ha⟩ := hfs a List.mem_cons_self
    obtain ⟨n, hb⟩ := hfs b (List.mem_cons_of_mem _ List.mem_cons_self)
  case h_1 => exact ⟨_, denotes_wordOf (ha.denote_lt hb) decide_eq_true_iff⟩
  case h_2 => exact ⟨_, denotes_wordOf (ha.denote_gt hb) decide_eq_true_iff⟩
  case h_3 => exact ⟨_, denotes_wordOf (ha.denote_eq hb) decide_eq_true_iff⟩
  case h_5 => exact ⟨_, ha.add hb⟩

/-- A modelled instruction gives the value that its formula stands for. -/
theorem exists_denotes_of_model? {i : Instruction} {fs : List Formula} {f : Formula}
    (h : model? i fs = some f) {values : List Nat}
    (hvalues : List.Forall₂ (fun (a : Formula) (n : Nat) => a.Denotes ρ n) fs values) :
    ∃ n : Nat, i.value? values = some n ∧ f.Denotes ρ n := by
  rw [model?.eq_def] at h
  split at h <;> cases h
  case h_1 a b =>
    obtain _ | @⟨_, m, _, _, ha, _ | @⟨_, n, _, _, hb, _ | _⟩⟩ := hvalues
    exact ⟨_, rfl, denotes_wordOf (ha.denote_lt hb) (decide_eq_true_iff.trans Int.ofNat_lt)⟩
  case h_2 a b =>
    obtain _ | @⟨_, m, _, _, ha, _ | @⟨_, n, _, _, hb, _ | _⟩⟩ := hvalues
    exact ⟨_, rfl, denotes_wordOf (ha.denote_gt hb) (decide_eq_true_iff.trans Int.ofNat_lt)⟩
  case h_3 a b =>
    obtain _ | @⟨_, m, _, _, ha, _ | @⟨_, n, _, _, hb, _ | _⟩⟩ := hvalues
    have heq : Value.int m = .int n ↔ m = n := by
      rw [Value.int.injEq, Int.natCast_inj]
    exact ⟨_, rfl, denotes_wordOf (ha.denote_eq hb) (decide_eq_true_iff.trans heq)⟩
  case h_4 a =>
    obtain _ | @⟨_, n, _, _, ha, _ | _⟩ := hvalues
    have heq : Value.int n = .int 0 ↔ n = 0 := by
      rw [Value.int.injEq, Int.natCast_eq_zero]
    exact ⟨_, rfl, denotes_wordOf (ha.denote_eq (Formula.denotes_int ρ 0)) (decide_eq_true_iff.trans heq)⟩
  case h_5 a b =>
    obtain _ | @⟨_, m, _, _, ha, _ | @⟨_, n, _, _, hb, _ | _⟩⟩ := hvalues
    exact ⟨m + n, rfl, ha.add hb⟩

/-- A modelled instruction has a value on any words. -/
theorem exists_value?_of_model? {i : Instruction} {fs : List Formula} {f : Formula}
    (h : model? i fs = some f) {values : List Nat} (hlength : values.length = fs.length) :
    ∃ n, i.value? values = some n := by
  rw [model?.eq_def] at h
  split at h <;> cases h
  case h_4 a =>
    obtain ⟨n, rfl⟩ := List.length_eq_one_iff.1 hlength
    exact ⟨_, rfl⟩
  all_goals
    obtain ⟨m, n, rfl⟩ := List.length_eq_two.1 hlength
    exact ⟨_, rfl⟩

/-- Where the formula of a modelled instruction has a value, so have its arguments. -/
theorem isSome_value?_of_model? {definitions : Definitions} {i : Instruction} {fs : List Formula}
    {f : Formula} (h : model? i fs = some f) (hvalue : (value? definitions f).isSome) :
    ∀ a ∈ fs, (value? definitions a).isSome := by
  intro a ha
  rw [Option.isSome_iff_ne_none] at hvalue ⊢
  intro hnone
  refine hvalue ?_
  rw [model?.eq_def] at h
  split at h <;> cases h
  case h_4 b =>
    rw [List.mem_singleton.1 ha] at hnone
    simp [wordOf, value?, hnone]
  all_goals
    rcases List.mem_pair.1 ha with rfl | rfl <;> simp [wordOf, value?, hnone]

/-- Assignments that differ only in fresh variables with numbers from `k` on. -/
def SameBelow (k : Nat) (ρ ρ' : Assignment) : Prop := ∀ v, (∀ j, k ≤ j → v ≠ freshName j) → ρ' v = ρ v

/-- The bound variables of visible tracked names have the values of the names. -/
def Linked (tracked : String → Bool) (bindings : SortedMap String Formula) (visible : List String)
    (V : Locals) (ρ : Assignment) : Prop :=
  ∀ x ∈ visible, tracked x → bindings.contains x → ∃ n : Nat, V x = some n ∧ ρ (boundName x) = n

namespace SameBelow

theorem refl (k : Nat) (ρ : Assignment) : SameBelow k ρ ρ := fun _ _ => rfl

theorem trans {j k : Nat} {ρ₁ ρ₂ ρ₃ : Assignment} (h : SameBelow k ρ₁ ρ₂) (h' : SameBelow j ρ₂ ρ₃)
    (hle : k ≤ j) : SameBelow k ρ₁ ρ₃ := by
  intro v hv
  rw [h' v fun i hi => hv i (Nat.le_trans hle hi), h v hv]

theorem update {j k : Nat} (hle : k ≤ j) (ρ : Assignment) (n : Int) :
    SameBelow k ρ (Function.update ρ (freshName j) n) :=
  fun _ hv => Function.update_of_ne (hv j hle) n ρ

theorem apply_boundName {k : Nat} (h : SameBelow k ρ ρ') (x : String) :
    ρ' (boundName x) = ρ (boundName x) :=
  h _ fun j _ => boundName_ne_freshName x j

/-- Agreement below a number keeps the link to the values of a run, since names are not bound to fresh variables. -/
theorem linked {k : Nat} (h : SameBelow k ρ ρ') (hlinked : Linked tracked bindings visible V ρ) :
    Linked tracked bindings visible V ρ' := by
  intro x hvisible htracked hbound
  obtain ⟨n, hV, hρ⟩ := hlinked x hvisible htracked hbound
  exact ⟨n, hV, (h.apply_boundName x).trans hρ⟩

/-- A variable that was made before the number `k` keeps its value. -/
theorem apply_of_isVariable {j k : Nat} (h : SameBelow k ρ ρ') {v : String}
    (hv : IsVariable bindings visible j k v) : ρ v = ρ' v := by
  rcases hv with ⟨x, _, _, rfl⟩ | ⟨i, _, hik, rfl⟩
  · exact (h.apply_boundName x).symm
  · refine (h _ fun i' hi' heq => ?_).symm
    have := freshName_injective heq
    omega

end SameBelow

theorem denotes_fresh {j k : Nat} (hle : k ≤ j) (ρ : Assignment) (n : Int) :
    ∃ ρ', SameBelow k ρ ρ' ∧ (fresh j).1.Denotes ρ' n := by
  refine ⟨_, SameBelow.update hle ρ n, ?_⟩
  rw [fresh, Formula.Denotes, Formula.denote, Function.update_self]

/-- With some values for the fresh variables from `k` on, a formula stands for a word. -/
def CanDenote (tracked : String → Bool) (bindings : SortedMap String Formula) (visible : List String)
    (V : Locals) (k : Nat) (f : Formula) (n : Nat) : Prop :=
  ∀ ρ, Linked tracked bindings visible V ρ → ∃ ρ', SameBelow k ρ ρ' ∧ f.Denotes ρ' n

/-- The formula of a visible variable can denote its value, by its own prover variable if it is bound and by a fresh
one if not. -/
theorem canDenote_identifier (d : Dialect) (hbindings : BindsNames bindings) (k : Nat) {name : Identifier}
    {value : Nat} (hvisible : name.name ∈ visible) (hvalue : V name.name = some value) :
    CanDenote tracked bindings visible V k (formula d tracked bindings k (.identifier name)).1 value := by
  intro ρ hρ
  rw [formula]
  cases hbound : bindings.get? name.name with
  | none => exact denotes_fresh (Nat.le_refl k) ρ _
  | some bound =>
    dsimp only
    by_cases htracked : tracked name.name
    · have hcontains : bindings.contains name.name := by
        rw [SortedMap.contains, hbound, Option.isSome_some]
      obtain ⟨n, hn, hvariable⟩ := hρ _ hvisible htracked hcontains
      rw [hvalue] at hn
      cases hn
      rw [if_pos htracked, hbindings _ _ hbound]
      refine ⟨ρ, .refl k ρ, ?_⟩
      rw [Formula.Denotes, Formula.denote, hvariable]
    · rw [if_neg htracked]
      exact denotes_fresh (Nat.le_refl k) ρ _

/-- What is modelled is a builtin. -/
theorem isSome_builtin?_of_instruction? {d : Dialect} {name : String} {instruction : Instruction}
    (h : d.instruction? name = some instruction) : (d.builtin? name).isSome := by
  obtain ⟨b, hb, _⟩ := Option.bind_eq_some_iff.1 h
  rw [hb, Option.isSome_some]

mutual

/-- Whatever an expression is evaluated to, its formula can stand for it. -/
theorem ensures_eval (hbindings : BindsNames bindings) : ∀ (e : Expr) (k : Nat), e.isScoped visible →
    Exec.Ensures (eval I call V e) fun values => ∀ n : Nat, values = [n] →
      CanDenote tracked bindings visible V k (formula I.dialect tracked bindings k e).1 n
  | .literal value, k, _ => by
    rw [eval, formula]
    refine .pure fun n hn ρ _ => ?_
    cases hn
    rw [Interpretation.literal]
    cases value.word with
    | ok word => exact ⟨ρ, .refl k ρ, rfl⟩
    | error fault => exact denotes_fresh (Nat.le_refl k) ρ _
  | .identifier name, k, hscoped => by
    rw [eval, formula]
    have hvisible : name.name ∈ visible := by simpa [Expr.isScoped] using hscoped
    cases hV : V name.name with
    | none => exact .stop _
    | some value =>
      refine .pure fun n hn => ?_
      cases hn
      have hdenotes : CanDenote tracked bindings visible V k
          (formula I.dialect tracked bindings k (.identifier name)).1 value :=
        canDenote_identifier I.dialect hbindings k hvisible hV
      rw [formula] at hdenotes
      exact hdenotes
  | .call _ callee arguments, k, hscoped => by
    rw [eval, formula]
    cases hinstruction : I.dialect.instruction? callee.name with
    | none => exact Exec.Ensures.trivial.mono fun _ _ n _ ρ _ => denotes_fresh (Nat.le_refl k) ρ n
    | some instruction =>
      have hle : k ≤ (formulas I.dialect tracked bindings k arguments).2 := le_formulas k arguments
      dsimp only
      cases hmodel : model? instruction (formulas I.dialect tracked bindings k arguments).1 with
      | none => exact Exec.Ensures.trivial.mono fun _ _ n _ ρ _ => denotes_fresh hle ρ n
      | some f =>
        refine (ensures_evalAll hbindings arguments k hscoped).bind fun values hvalues => ?_
        rw [if_pos (isSome_builtin?_of_instruction? hinstruction)]
        intro m results hresults n hn ρ hρ
        obtain ⟨ρ', hsame, hdenotes⟩ := hvalues ρ hρ
        obtain ⟨value, hvalue, hf⟩ := exists_denotes_of_model? hmodel hdenotes
        rw [Interpretation.perform, hinstruction, Option.bind_some, hvalue] at hresults
        cases hresults
        cases hn
        exact ⟨ρ', hsame, hf⟩

/-- The values that arguments evaluate to can all be denoted by their formulas at once, as each draws its own fresh
variables. -/
theorem ensures_evalAll (hbindings : BindsNames bindings) : ∀ (es : List Expr) (k : Nat),
    Expr.allScoped visible es →
    Exec.Ensures (evalAll I call V es) fun values => ∀ ρ, Linked tracked bindings visible V ρ →
      ∃ ρ', SameBelow k ρ ρ' ∧ List.Forall₂ (fun (f : Formula) (n : Nat) => f.Denotes ρ' n)
        (formulas I.dialect tracked bindings k es).1 values
  | [], k, _ => by
    rw [evalAll, formulas]
    exact .pure fun ρ _ => ⟨ρ, .refl k ρ, .nil⟩
  | e :: rest, k, hscoped => by
    rw [Expr.allScoped, Bool.and_eq_true] at hscoped
    rw [evalAll, formulas]
    have hle : k ≤ (formula I.dialect tracked bindings k e).2 := le_formula k e
    have hothers := ensures_evalAll hbindings rest (formula I.dialect tracked bindings k e).2 hscoped.2
    refine hothers.bind fun others hothers => ?_
    refine (ensures_eval hbindings e k hscoped.1).bind fun values hvalues => ?_
    rw [Exec.single.eq_def]
    split
    next value =>
      refine .bind (.pure (P := (· = value)) rfl) fun _ heq => ?_
      rw [heq]
      refine .pure fun ρ hρ => ?_
      obtain ⟨ρ₁, hsame₁, hfirst⟩ := hvalues value rfl ρ hρ
      obtain ⟨ρ₂, hsame₂, hrest⟩ := hothers ρ₁ (hsame₁.linked hρ)
      refine ⟨ρ₂, hsame₁.trans hsame₂ hle, .cons ?_ hrest⟩
      exact hfirst.congr fun v hv =>
        hsame₂.apply_of_isVariable (isVariable_of_mem_formula hbindings k e hscoped.1 hv)
    next => exact .bind (.stop (P := fun _ => False) _) fun _ hfalse => hfalse.elim

end

mutual

/-- Every formula of an expression stands for an integer. -/
theorem exists_denotes (d : Dialect) (hbindings : BindsNames bindings) (ρ : Assignment) (k : Nat) :
    ∀ e : Expr, ∃ n, (formula d tracked bindings k e).1.Denotes ρ n
  | .call _ callee arguments => by
    rw [formula]
    cases d.instruction? callee.name with
    | none => exact ⟨_, rfl⟩
    | some instruction =>
      dsimp only
      cases hmodel : model? instruction (formulas d tracked bindings k arguments).1 with
      | none => exact ⟨_, rfl⟩
      | some f =>
        exact exists_denotes_of_forall_mem hmodel (exists_denotes_of_mem d hbindings ρ k arguments)
  | .identifier name => by
    rw [formula]
    cases hbound : bindings.get? name.name with
    | none => exact ⟨_, rfl⟩
    | some bound =>
      rw [hbindings _ _ hbound]
      dsimp only
      split <;> exact ⟨_, rfl⟩
  | .literal value => by
    rw [formula]
    split <;> exact ⟨_, rfl⟩

/-- Every argument's formula denotes some integer under every assignment. -/
theorem exists_denotes_of_mem (d : Dialect) (hbindings : BindsNames bindings) (ρ : Assignment) (k : Nat) :
    ∀ es : List Expr, ∀ f ∈ (formulas d tracked bindings k es).1, ∃ n, f.Denotes ρ n
  | [], _, hf => nomatch hf
  | e :: rest, f, hf => by
    rw [formulas] at hf
    rcases List.mem_cons.1 hf with rfl | hf
    · exact exists_denotes d hbindings ρ k e
    · exact exists_denotes_of_mem d hbindings ρ _ rest f hf

end

theorem length_formulas (d : Dialect) (k : Nat) (es : List Expr) :
    (formulas d tracked bindings k es).1.length = es.length := by
  induction es generalizing k with
  | nil => rfl
  | cons e rest ih =>
    rw [formulas, List.length_cons, List.length_cons, ih]

/-- A fresh variable without a definition has no value. -/
theorem not_isSome_value?_fresh {definitions : Definitions} {k : Nat}
    (h : definitions.lookup (freshName k) = none) : ¬(value? definitions (fresh k).1).isSome := by
  rw [fresh, value?]
  split
  next => exact Bool.false_ne_true
  next term hterm =>
    rw [h] at hterm
    cases hterm

mutual

/-- If definitions that say nothing about fresh variables give the formula of an expression a value, then
evaluating it only gives a value. -/
theorem exists_eval_eq (hvisible : ∀ x ∈ visible, (V x).isSome) {definitions : Definitions} :
    ∀ (e : Expr) (k : Nat), e.isScoped visible →
      (∀ j, k ≤ j → definitions.lookup (freshName j) = none) →
      (value? definitions (formula I.dialect tracked bindings k e).1).isSome →
      ∃ n, ∀ m, eval I call V e m = (.ok [n], m)
  | .literal value, k, _, _, _ => ⟨I.literal value, fun m => by rw [eval]; rfl⟩
  | .identifier name, k, hscoped, _, _ => by
    have hmem : name.name ∈ visible := by simpa [Expr.isScoped] using hscoped
    obtain ⟨n, hn⟩ := Option.isSome_iff_exists.1 (hvisible _ hmem)
    refine ⟨n, fun m => ?_⟩
    rw [eval, hn]
    rfl
  | .call _ callee arguments, k, hscoped, hfresh, hvalue => by
    rw [formula] at hvalue
    cases hinstruction : I.dialect.instruction? callee.name with
    | none =>
      rw [hinstruction] at hvalue
      exact absurd hvalue (not_isSome_value?_fresh (hfresh k (Nat.le_refl k)))
    | some instruction =>
      have hle : k ≤ (formulas I.dialect tracked bindings k arguments).2 := le_formulas k arguments
      rw [hinstruction] at hvalue
      dsimp only at hvalue
      cases hmodel : model? instruction (formulas I.dialect tracked bindings k arguments).1 with
      | none =>
        rw [hmodel] at hvalue
        exact absurd hvalue (not_isSome_value?_fresh (hfresh _ hle))
      | some f =>
        rw [hmodel] at hvalue
        obtain ⟨values, hlength, heval⟩ := exists_evalAll_eq hvisible arguments k hscoped hfresh
          (isSome_value?_of_model? hmodel hvalue)
        obtain ⟨n, hn⟩ := exists_value?_of_model? hmodel
          (hlength.trans (length_formulas I.dialect k arguments).symm)
        refine ⟨n, fun m => ?_⟩
        rw [eval, Exec.bind_apply, heval]
        dsimp only
        rw [if_pos (isSome_builtin?_of_instruction? hinstruction), Interpretation.perform, hinstruction,
          Option.bind_some, hn]
        rfl

/-- Arguments whose formulas have values are evaluated without effect: no builtin that may do something has a formula
with a value. -/
theorem exists_evalAll_eq (hvisible : ∀ x ∈ visible, (V x).isSome) {definitions : Definitions} :
    ∀ (es : List Expr) (k : Nat), Expr.allScoped visible es →
      (∀ j, k ≤ j → definitions.lookup (freshName j) = none) →
      (∀ f ∈ (formulas I.dialect tracked bindings k es).1, (value? definitions f).isSome) →
      ∃ values, values.length = es.length ∧ ∀ m, evalAll I call V es m = (.ok values, m)
  | [], _, _, _, _ => ⟨[], rfl, fun m => by rw [evalAll]; rfl⟩
  | e :: rest, k, hscoped, hfresh, hvalues => by
    rw [Expr.allScoped, Bool.and_eq_true] at hscoped
    rw [formulas] at hvalues
    obtain ⟨hfirst, hrest⟩ := List.forall_mem_cons.1 hvalues
    have hle : k ≤ (formula I.dialect tracked bindings k e).2 := le_formula k e
    obtain ⟨others, hlength, hothers⟩ := exists_evalAll_eq hvisible rest _ hscoped.2
      (fun j hj => hfresh j (Nat.le_trans hle hj)) hrest
    obtain ⟨n, hn⟩ := exists_eval_eq hvisible e k hscoped.1 hfresh hfirst
    refine ⟨n :: others, congrArg Nat.succ hlength, fun m => ?_⟩
    rw [evalAll, Exec.bind_apply, hothers]
    dsimp only
    rw [Exec.bind_apply, hn]
    rfl

end

variable {fs : List Formula} {k : Nat}

theorem SameBelow.holds (h : SameBelow k ρ ρ') (hfs : ∀ f ∈ fs, f.Holds ρ)
    (hnames : ∀ f ∈ fs, ∀ v ∈ f.variableNames, ∀ j, k ≤ j → v ≠ freshName j) :
    ∀ f ∈ fs, f.Holds ρ' :=
  fun f hf => (hfs f hf).congr fun v hv => (h v (hnames f hf v hv)).symm

/-- A question that can be true together with what was asserted is not refuted. -/
theorem verdict_ne_of_holds {q : Formula} (hfs : ∀ f ∈ fs, f.Holds ρ) (hq : q.Holds ρ) :
    (Problem.ofList (fs ++ [q])).verdict ≠ .unsatisfiable := by
  have hall : ∀ f ∈ fs ++ [q], f.Holds ρ := by
    intro f hf
    rcases List.mem_append.1 hf with hf | hf
    · exact hfs f hf
    · rw [List.mem_singleton.1 hf]
      exact hq
  exact (Problem.trueIn_ofList hall).verdict_ne

/-- The formula of an expression that may have an effect is a fresh variable, or no variable at all. -/
theorem formula_cases (hvisible : ∀ x ∈ visible, (V x).isSome) (k : Nat) :
    ∀ e : Expr, e.isScoped visible →
      (∃ n, ∀ m, eval I call V e m = (.ok [n], m)) ∨
      (∃ j, k ≤ j ∧ (formula I.dialect tracked bindings k e).1 = .var (freshName j) .int) ∨
      isEquation (.eq (formula I.dialect tracked bindings k e).1 (.int 0)) = false
  | .literal value, _ => .inl ⟨I.literal value, fun m => by rw [eval]; rfl⟩
  | .identifier name, hscoped => by
    have hmem : name.name ∈ visible := by simpa [Expr.isScoped] using hscoped
    obtain ⟨n, hn⟩ := Option.isSome_iff_exists.1 (hvisible _ hmem)
    refine .inl ⟨n, fun m => ?_⟩
    rw [eval, hn]
    rfl
  | .call _ callee arguments, _ => by
    have hle : k ≤ (formulas I.dialect tracked bindings k arguments).2 := le_formulas k arguments
    rw [formula]
    cases I.dialect.instruction? callee.name with
    | none => exact .inr (.inl ⟨k, Nat.le_refl k, rfl⟩)
    | some instruction =>
      dsimp only
      cases hmodel : model? instruction (formulas I.dialect tracked bindings k arguments).1 with
      | none => exact .inr (.inl ⟨_, hle, rfl⟩)
      | some f =>
        rw [model?.eq_def] at hmodel
        split at hmodel <;> cases hmodel <;> exact .inr (.inr rfl)

/-- A comparison with zero that has a value was of a formula that has one. -/
theorem isSome_value?_of_value?_eq {definitions : Definitions} {f : Formula} {b : Bool}
    (h : value? definitions (.eq f (.int 0)) = some (.bool b)) : (value? definitions f).isSome := by
  rw [value?] at h
  obtain ⟨v, hv, _⟩ := Option.bind_eq_some_iff.1 h
  rw [hv, Option.isSome_some]

/-- A comparison with zero for difference that has a value was of a formula that has one. -/
theorem isSome_value?_of_value?_notEq {definitions : Definitions} {f : Formula} {b : Bool}
    (h : value? definitions (.notEq f (.int 0)) = some (.bool b)) : (value? definitions f).isSome := by
  rw [Formula.notEq, value?] at h
  obtain ⟨v, hv, h⟩ := Option.bind_eq_some_iff.1 h
  cases v with
  | int n => cases h
  | bool c => exact isSome_value?_of_value?_eq hv

section

variable (hbindings : BindsNames bindings) (hvisible : ∀ x ∈ visible, (V x).isSome)
variable (hfs : ∀ f ∈ fs, f.Holds ρ)
variable (hnames : ∀ f ∈ fs, ∀ v ∈ f.variableNames, ∀ j, k ≤ j → v ≠ freshName j)
variable (hρ : Linked tracked bindings visible V ρ) {e : Expr} (hscoped : e.isScoped visible)

include hbindings hvisible hfs hnames hρ hscoped

/-- A condition whose being nonzero is refuted is zero, and its evaluation has no effect. -/
theorem eval_eq_zero_of_refuted
    (h : (Problem.ofList (fs ++ [.notEq (formula I.dialect tracked bindings k e).1 (.int 0)])).verdict =
      .unsatisfiable) :
    ∀ m, eval I call V e m = (.ok [0], m) := by
  have hfresh : ∀ j, k ≤ j → (Problem.ofList fs).definitions.lookup (freshName j) = none := fun j hj =>
    lookup_ofList_eq_none fun f hf hmem => hnames f hf _ hmem j hj rfl
  have hvalue := isSome_value?_of_value?_notEq (value?_eq_false_of_verdict_eq hfs rfl h)
  have hpure : ∃ n, ∀ m, eval I call V e m = (.ok [n], m) :=
    exists_eval_eq hvisible e k hscoped hfresh hvalue
  obtain ⟨n, hn⟩ := hpure
  intro m
  have hresult : (eval I call V e m).1 = .ok [n] := by rw [hn]
  obtain ⟨ρ', hsame, hf⟩ := ensures_eval hbindings e k hscoped m [n] hresult n rfl ρ hρ
  have hzero : n = 0 := by
    by_contra hne
    have hnotEq := (hf.holds_notEq_iff (Formula.denotes_int ρ' 0)).2 (Int.natCast_ne_zero.2 hne)
    exact verdict_ne_of_holds (hsame.holds hfs hnames) hnotEq h
  rw [hn, hzero]

/-- A condition whose being zero is refuted is nonzero, and its evaluation has no effect. -/
theorem exists_eval_eq_of_refuted (m₀ : Machine W)
    (h : (Problem.ofList (fs ++ [.eq (formula I.dialect tracked bindings k e).1 (.int 0)])).verdict =
      .unsatisfiable) :
    ∃ n, n ≠ 0 ∧ ∀ m, eval I call V e m = (.ok [n], m) := by
  have hfresh : ∀ j, k ≤ j → (Problem.ofList fs).definitions.lookup (freshName j) = none := fun j hj =>
    lookup_ofList_eq_none fun f hf hmem => hnames f hf _ hmem j hj rfl
  have hpure : ∃ n, ∀ m, eval I call V e m = (.ok [n], m) := by
    rcases formula_cases hvisible k e hscoped with hpure | ⟨j, hj, hf⟩ | hf
    · exact hpure
    · -- The equation would define the fresh variable, so it refutes nothing.
      have hdenotes : (Formula.var (freshName j) .int).Denotes (Function.update ρ (freshName j) 0) 0 := by
        rw [Formula.Denotes, Formula.denote, Function.update_self]
      have heq := (hdenotes.holds_eq_iff (Formula.denotes_int _ 0)).2 rfl
      rw [hf] at h
      exact absurd h (verdict_ne_of_holds ((SameBelow.update hj ρ 0).holds hfs hnames) heq)
    · have hvalue := isSome_value?_of_value?_eq (value?_eq_false_of_verdict_eq hfs hf h)
      exact exists_eval_eq hvisible e k hscoped hfresh hvalue
  obtain ⟨n, hn⟩ := hpure
  refine ⟨n, fun hzero => ?_, hn⟩
  have hresult : (eval I call V e m₀).1 = .ok [n] := by rw [hn]
  obtain ⟨ρ', hsame, hf⟩ := ensures_eval hbindings e k hscoped m₀ [n] hresult n rfl ρ hρ
  have heq := (hf.holds_eq_iff (Formula.denotes_int ρ' 0)).2 (Int.natCast_eq_zero.2 hzero)
  exact verdict_ne_of_holds (hsame.holds hfs hnames) heq h

end

end Encoder

end YulBackend
