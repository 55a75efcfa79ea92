import Mathlib.Data.List.Forall2
import YulBackend.Proofs.Semantics.Execution

namespace YulBackend

variable {W : Type}

/-- A condition may be replaced by a literal if its evaluation had no effect, and gave zero just if the
literal is zero. -/
def Decision.Replaced (d d' : Decision W) : Prop :=
  ∃ text value, d'.condition = .literal { Literal.number text with span := d.condition.span } ∧
    (text = "0" ∨ text = "1") ∧ d.result = .ok value ∧ (value = 0 ↔ text = "0") ∧
    d.before = d'.before ∧ d.after = d.before ∧ d'.after = d'.before

def Decision.Agrees (d d' : Decision W) : Prop := d' = d ∨ d.Replaced d'

structure Machine.Agrees (m m' : Machine W) : Prop where
  world : m.world = m'.world
  decisions : List.Forall₂ Decision.Agrees m.decisions m'.decisions

/-- What holds of every value that work gives. -/
def Exec.Ensures {α : Type} (x : Exec W α) (P : α → Prop) : Prop := ∀ m a, (x m).1 = .ok a → P a

/-- Two pieces of work that agree wherever their machines do, with what holds of the value they give. -/
def Exec.Sim {α : Type} (x x' : Exec W α) (P : α → Prop) : Prop :=
  ∀ m m', m.Agrees m' →
    (x m).1 = (x' m').1 ∧ (x m).2.Agrees (x' m').2 ∧ ∀ a, (x m).1 = .ok a → P a

namespace Exec

variable {α β : Type} {x x' : Exec W α} {k k' : α → Exec W β} {P : α → Prop} {Q : β → Prop}

/-- What a sequence does, by cases on whether its first part stops. -/
theorem bind_apply (x : Exec W α) (k : α → Exec W β) (m : Machine W) :
    (x >>= k) m = match (x m).1 with
      | .ok a => k a (x m).2
      | .error reason => (.error reason, (x m).2) := by
  have hbind : (x >>= k) m = ExceptT.bindCont k (x m).1 (x m).2 := rfl
  rw [hbind]
  cases (x m).1 <;> rfl

namespace Ensures

theorem pure {a : α} (h : P a) : Ensures (pure a : Exec W α) P := by
  intro m a' ha
  cases ha
  exact h

theorem stop (reason : Stop) : Ensures (stop reason : Exec W α) P := by
  intro m a ha
  cases ha

/-- A sequence ensures what its second part ensures of every result the first may have. -/
theorem bind (hx : Ensures x P) (hk : ∀ a, P a → Ensures (k a) Q) : Ensures (x >>= k) Q := by
  intro m b hb
  rw [bind_apply] at hb
  split at hb
  next a ha => exact hk a (hx m a ha) _ b hb
  next => cases hb

theorem mono {P' : α → Prop} (hx : Ensures x P) (h : ∀ a, P a → P' a) : Ensures x P' :=
  fun m a ha => h a (hx m a ha)

theorem trivial : Ensures x fun _ => True := fun _ _ _ => True.intro

end Ensures

namespace Sim

theorem pure {a : α} (h : P a) : Sim (pure a : Exec W α) (pure a) P := by
  intro m m' hm
  refine ⟨rfl, hm, fun a' ha => ?_⟩
  cases ha
  exact h

theorem stop (reason : Stop) : Sim (stop reason : Exec W α) (stop reason) P := by
  intro m m' hm
  refine ⟨rfl, hm, fun a ha => ?_⟩
  cases ha

/-- Two sequences agree when their first parts do and their second parts agree on every shared result. -/
theorem bind (hx : Sim x x' P) (hk : ∀ a, P a → Sim (k a) (k' a) Q) :
    Sim (x >>= k) (x' >>= k') Q := by
  intro m m' hm
  obtain ⟨hresult, hafter, hP⟩ := hx m m' hm
  rw [bind_apply, bind_apply, ← hresult]
  split
  next a ha => exact hk a (hP a ha) _ _ hafter
  next reason hreason =>
    refine ⟨rfl, hafter, fun b hb => ?_⟩
    cases hb

/-- Agreement on results of a kind is agreement on results of any wider kind. -/
theorem mono {P' : α → Prop} (hx : Sim x x' P) (h : ∀ a, P a → P' a) : Sim x x' P' := by
  intro m m' hm
  obtain ⟨hresult, hafter, hP⟩ := hx m m' hm
  exact ⟨hresult, hafter, fun a ha => h a (hP a ha)⟩

theorem map (hx : Sim x x' P) (f : α → β) : Sim (f <$> x) (f <$> x') fun _ => True :=
  hx.bind fun _ _ => .pure True.intro

/-- What one side ensures of its result holds of the shared result. -/
theorem and_ensures {P' : α → Prop} (hx : Sim x x' P) (h : Ensures x P') :
    Sim x x' fun a => P a ∧ P' a := by
  intro m m' hm
  obtain ⟨hresult, hafter, hP⟩ := hx m m' hm
  exact ⟨hresult, hafter, fun a ha => ⟨hP a ha, h m a ha⟩⟩

/-- Asking for exactly one value of the same results agrees on both sides. -/
theorem single (values : List Nat) : Sim (W := W) (single values) (Exec.single values) fun _ => True := by
  rw [Exec.single.eq_def]
  split
  · exact .pure True.intro
  · exact .stop _

/-- Pairing the same names and values agrees on both sides, also where the counts differ and both stop. -/
theorem zip (names : List String) (values : List Nat) :
    Sim (W := W) (zip names values) (Exec.zip names values) fun pairs =>
      pairs = names.zip values ∧ names.length = values.length := by
  rw [Exec.zip]
  split
  next hlength => exact .pure ⟨rfl, hlength⟩
  next => exact .stop _

/-- A builtin does the same on both sides, whatever it does to the world. -/
theorem perform (I : Interpretation W) (name : String) (values : List Nat) :
    Sim (I.perform name values) (I.perform name values) fun _ => True := by
  rw [Interpretation.perform]
  split
  · exact .pure True.intro
  · intro m m' hm
    dsimp only
    rw [← hm.world]
    split
    · exact ⟨rfl, ⟨rfl, hm.decisions⟩, fun _ _ => True.intro⟩
    · exact ⟨rfl, ⟨rfl, hm.decisions⟩, fun _ _ => True.intro⟩

/-- A condition that stays is recorded alike. -/
theorem decide {x x' : Exec W Nat} {P : Nat → Prop} (hx : Sim x x' P) (condition : Expr) :
    Sim (decide condition x) (Exec.decide condition x') P := by
  intro m m' hm
  obtain ⟨hresult, hafter, hP⟩ := hx m m' hm
  refine ⟨hresult, ⟨hafter.world, .cons (.inl ?_) hafter.decisions⟩, hP⟩
  rw [hm.world, hresult, hafter.world]

/-- A condition whose evaluation only gives a value may be replaced by a literal that is zero just if that
value is. -/
theorem replaced {condition : Expr} {text : String} {value value' : Nat} {x x' : Exec W Nat}
    {zero zero' other other' : Exec W α} (htext : text = "0" ∨ text = "1")
    (hx : ∀ m, x m = (.ok value, m)) (hx' : ∀ m, x' m = (.ok value', m))
    (hvalue : value = 0 ↔ text = "0") (hvalue' : value' = 0 ↔ text = "0")
    (hzero : value = 0 → Sim zero zero' P) (hother : value ≠ 0 → Sim other other' P) :
    Sim (do if (← Exec.decide condition x) = 0 then zero else other)
      (do
        let value ← Exec.decide (.literal { Literal.number text with span := condition.span }) x'
        if value = 0 then zero' else other') P := by
  intro m m' hm
  have hdecide : Exec.decide condition x m =
      (.ok value, { m with decisions := ⟨condition, m.world, .ok value, m.world⟩ :: m.decisions }) := by
    rw [Exec.decide, hx]
  have hdecide' : Exec.decide (.literal { Literal.number text with span := condition.span }) x' m' =
      (.ok value', { m' with decisions :=
        ⟨.literal { Literal.number text with span := condition.span }, m'.world, .ok value', m'.world⟩ ::
          m'.decisions }) := by
    rw [Exec.decide, hx']
  rw [bind_apply, bind_apply, hdecide, hdecide']
  have hagrees : Machine.Agrees
      { m with decisions := ⟨condition, m.world, .ok value, m.world⟩ :: m.decisions }
      { m' with decisions :=
        ⟨.literal { Literal.number text with span := condition.span }, m'.world, .ok value', m'.world⟩ ::
          m'.decisions } :=
    ⟨hm.world, .cons (.inr ⟨text, value, rfl, htext, rfl, hvalue, hm.world, rfl, rfl⟩) hm.decisions⟩
  by_cases h : value = 0
  · have h' : value' = 0 := hvalue'.2 (hvalue.1 h)
    simp only [h, h', if_true]
    exact hzero h _ _ (by simpa only [h, h'] using hagrees)
  · have h' : value' ≠ 0 := fun h' => h (hvalue.2 (hvalue'.1 h'))
    simp only [h, h', if_false]
    exact hother h _ _ hagrees

/-- What holds before every turn of a loop, and is kept by each of its parts, holds behind it. -/
theorem iterate {condition condition' : Locals → Exec W Nat}
    {body body' post post' : Locals → Exec W (Mode × Locals)} (Inv : Locals → Prop)
    (hcondition : ∀ V, Inv V → Sim (condition V) (condition' V) fun _ => True)
    (hbody : ∀ V, Inv V → Sim (body V) (body' V) fun r => Inv r.2)
    (hpost : ∀ V, Inv V → Sim (post V) (post' V) fun r => Inv r.2) (fuel : Nat) {V : Locals} (hV : Inv V) :
    Sim (iterate condition body post fuel V) (Exec.iterate condition' body' post' fuel V)
      fun r => Inv r.2 := by
  induction fuel generalizing V with
  | zero => exact .stop _
  | succ fuel ih =>
    rw [Exec.iterate, Exec.iterate]
    refine (hcondition V hV).bind fun value _ => ?_
    split
    · exact .pure hV
    · refine (hbody V hV).bind fun r hr => ?_
      obtain ⟨mode, V'⟩ := r
      cases mode with
      | «break» => exact .pure hr
      | leave => exact .pure hr
      | normal =>
        refine (hpost V' hr).bind fun r hr => ?_
        obtain ⟨mode, V''⟩ := r
        cases mode with
        | normal => exact ih hr
        | _ => exact .pure hr
      | «continue» =>
        refine (hpost V' hr).bind fun r hr => ?_
        obtain ⟨mode, V''⟩ := r
        cases mode with
        | normal => exact ih hr
        | _ => exact .pure hr

end Sim

end Exec

namespace Execution

variable {I : Interpretation W} {call call' : String → List Nat → Exec W (List Nat)}

mutual

/-- An expression evaluates alike where calls do. -/
theorem sim_eval (hcall : ∀ name values, Exec.Sim (call name values) (call' name values) fun _ => True)
    (V : Locals) : ∀ e, Exec.Sim (eval I call V e) (eval I call' V e) fun _ => True
  | .literal value => by
    rw [eval, eval]
    exact .pure True.intro
  | .identifier name => by
    rw [eval, eval]
    split
    · exact .pure True.intro
    · exact .stop _
  | .call _ callee arguments => by
    rw [eval, eval]
    refine (sim_evalAll hcall V arguments).bind fun values _ => ?_
    split
    · exact .perform I callee.name values
    · exact hcall callee.name values

/-- Evaluating arguments with two ways of calling functions that agree agrees as well. -/
theorem sim_evalAll (hcall : ∀ name values, Exec.Sim (call name values) (call' name values) fun _ => True)
    (V : Locals) : ∀ es, Exec.Sim (evalAll I call V es) (evalAll I call' V es) fun _ => True
  | [] => by
    rw [evalAll, evalAll]
    exact .pure True.intro
  | e :: rest => by
    rw [evalAll, evalAll]
    refine (sim_evalAll hcall V rest).bind fun others _ => ?_
    refine (sim_eval hcall V e).bind fun values _ => ?_
    exact (Exec.Sim.single values).bind fun value _ => .pure True.intro

end

theorem sim_evalOne (hcall : ∀ name values, Exec.Sim (call name values) (call' name values) fun _ => True)
    (V : Locals) (e : Expr) : Exec.Sim (evalOne I call V e) (evalOne I call' V e) fun _ => True :=
  (sim_eval hcall V e).bind fun values _ => .single values

end Execution

end YulBackend
