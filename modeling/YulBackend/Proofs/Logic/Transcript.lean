import Mathlib
import YulBackend.Proofs.Logic.Denotation

namespace YulBackend

/-- An element of a concatenation lies in the one part or in the other. -/
theorem append_eq_append_cons {α : Type} {xs ys before after : List α} {z : α}
    (h : xs ++ ys = before ++ z :: after) :
    (∃ rest, before = xs ++ rest ∧ ys = rest ++ z :: after) ∨
      ∃ rest, xs = before ++ z :: rest ∧ after = rest ++ ys := by
  rcases List.append_eq_append_iff.1 h with h | ⟨rest, rfl, hrest⟩
  · exact .inl h
  · rcases List.cons_eq_append_iff.1 hrest with ⟨rfl, hys⟩ | ⟨rest, rfl, hafter⟩
    · exact .inl ⟨[], by simp, hys⟩
    · exact .inr ⟨rest, rfl, hafter⟩

/-- A computation does what another one does, seen through a map of the states. -/
def Follows {S T α : Type} (f : S → T) (x : StateM S α) (y : StateM T α) : Prop :=
  ∀ s, y (f s) = ((x s).1, f (x s).2)

namespace Follows

variable {S T α β : Type} {f : S → T} {x : StateM S α} {y : StateM T α}

theorem pure (f : S → T) (a : α) : Follows f (Pure.pure a) (Pure.pure a) := fun _ => rfl

/-- A sequence follows another when its first part does and its second part does for every result. -/
theorem bind (h : Follows f x y) {k : α → StateM S β} {l : α → StateM T β}
    (hk : ∀ a, Follows f (k a) (l a)) : Follows f (x >>= k) (y >>= l) := by
  intro s
  change l (y (f s)).1 (y (f s)).2 = _
  rw [h s]
  exact hk _ _

end Follows

open Evaluation

namespace Prover

def Event.verdict? : Event → Option Verdict
  | .check _ verdict => some verdict
  | _ => none

/-- The answers in a log. -/
def verdicts (log : List Event) : List Verdict := log.filterMap Event.verdict?

theorem verdicts_append (log log' : List Event) :
    verdicts (log ++ log') = verdicts log ++ verdicts log' :=
  List.filterMap_append

/-- No scope is closed that was not opened before, and none stays open. -/
structure Balanced (log : List Event) : Prop where
  count_le : ∀ earlier, earlier <+: log → earlier.count .pop ≤ earlier.count .push
  count_eq : log.count .pop = log.count .push

namespace Balanced

variable {log log' : List Event}

/-- A log without opening or closing a scope is balanced. -/
theorem of_forall_ne (h : ∀ event ∈ log, event ≠ .push ∧ event ≠ .pop) : Balanced log := by
  have hpop : ∀ earlier, earlier <+: log → earlier.count .pop = 0 := fun earlier hearlier =>
    List.count_eq_zero.2 fun hmem => (h _ (hearlier.subset hmem)).2 rfl
  refine ⟨fun earlier hearlier => ?_, ?_⟩
  · rw [hpop earlier hearlier]
    exact Nat.zero_le _
  · rw [hpop log (List.prefix_refl log), List.count_eq_zero.2 fun hmem => (h _ hmem).1 rfl]

/-- Balanced logs one behind the other are balanced. -/
theorem append (h : Balanced log) (h' : Balanced log') : Balanced (log ++ log') where
  count_le earlier hearlier := by
    obtain ⟨rest, heq⟩ := hearlier
    rcases List.append_eq_append_iff.1 heq with ⟨middle, rfl, rfl⟩ | ⟨middle, rfl, rfl⟩
    · exact h.count_le earlier (List.prefix_append earlier middle)
    · have hle := h'.count_le middle (List.prefix_append middle rest)
      have heq := h.count_eq
      rw [List.count_append, List.count_append]
      omega
  count_eq := by rw [List.count_append, List.count_append, h.count_eq, h'.count_eq]

/-- What is said between opening and closing a scope. -/
theorem scope (h : Balanced log) : Balanced (.push :: log ++ [.pop]) where
  count_le earlier hearlier := by
    rcases List.prefix_concat_iff.1 hearlier with rfl | hearlier
    · have heq := h.count_eq
      simp
      omega
    · cases earlier with
      | nil => exact Nat.le_refl _
      | cons event earlier =>
        obtain ⟨rfl, hinner⟩ := List.cons_prefix_cons.1 hearlier
        have hle := h.count_le earlier hinner
        simp
        omega
  count_eq := by
    have heq := h.count_eq
    simp
    omega

end Balanced

/-- What is open in a session of nested scopes after one more call. -/
def Event.replay (s : Session) : Event → Session
  | .assert f => s.assert f
  | .push => s.push
  | .pop => s.pop
  | .newVariable .. | .check .. => s

/-- What is open after the calls of a log. -/
def replay (s : Session) (log : List Event) : Session := log.foldl Event.replay s

/-- The assertions of a log whose scopes are open at its end, in the order in which they were made. -/
def openAssertions (log : List Event) : List Formula := (replay {} log).assertions

theorem replay_append (s : Session) (log log' : List Event) :
    replay s (log ++ log') = replay (replay s log) log' :=
  List.foldl_append

/-- Making a variable. -/
def Event.IsNaming (event : Event) : Prop := ∃ name sort, event = .newVariable name sort

/-- A question whether a hypothesis contradicts the open assertions, with its answer. -/
def question (hypothesis : Formula) (verdict : Verdict) : List Event :=
  [.push, .assert hypothesis, .check [] verdict, .pop]

theorem balanced_question (hypothesis : Formula) (verdict : Verdict) :
    Balanced (question hypothesis verdict) := by
  have hinner : Balanced [.assert hypothesis, .check [] verdict] := .of_forall_ne (by simp)
  exact hinner.scope

/-- The hypothesis is open when the question is asked, and there are no assumptions. -/
theorem of_question_eq {hypothesis : Formula} {verdict verdict' : Verdict} {assumptions : List Formula}
    {done rest : List Event}
    (h : question hypothesis verdict = done ++ .check assumptions verdict' :: rest) :
    assumptions = [] ∧ ∀ s, (replay s done).assertions = s.assertions ++ [hypothesis] := by
  have hcases : done = [.push, .assert hypothesis] ∧ (assumptions = [] ∧ verdict' = verdict) ∧
      rest = [.pop] := by
    simpa [question, List.cons_eq_append_iff] using h
  obtain ⟨rfl, ⟨rfl, _⟩, _⟩ := hcases
  refine ⟨rfl, fun s => ?_⟩
  rw [← s.assertions_push, ← Session.assertions_assert]
  rfl

theorem replay_question (s : Session) (hypothesis : Formula) (verdict : Verdict) :
    s.Extends (replay s (question hypothesis verdict)) [] :=
  Session.Extends.pop (.assert s.push hypothesis)

/-- From one log to a longer one, only variables were made. -/
def OnlyNames (log log' : List Event) : Prop :=
  ∃ names, (∀ event ∈ names, event.IsNaming) ∧ log' = log ++ names

namespace OnlyNames

variable {log log' log'' : List Event}

theorem refl (log : List Event) : OnlyNames log log := ⟨[], by simp⟩

theorem concat (log : List Event) (name : String) (sort : ValueSort) :
    OnlyNames log (log ++ [.newVariable name sort]) :=
  ⟨[.newVariable name sort], by simp [Event.IsNaming]⟩

/-- Logs that differ by names from each other in turn differ by names. -/
theorem trans (h : OnlyNames log log') (h' : OnlyNames log' log'') : OnlyNames log log'' := by
  obtain ⟨names, hnames, rfl⟩ := h
  obtain ⟨names', hnames', rfl⟩ := h'
  refine ⟨names ++ names', fun event hevent => ?_, List.append_assoc ..⟩
  exact (List.mem_append.1 hevent).elim (hnames event) (hnames' event)

end OnlyNames

section

variable {names : List Event}

/-- Naming variables asserts nothing and opens no scope. -/
theorem replay_of_isNaming (h : ∀ event ∈ names, event.IsNaming) (s : Session) : replay s names = s := by
  induction names with
  | nil => rfl
  | cons event rest ih =>
    obtain ⟨name, sort, rfl⟩ := h _ List.mem_cons_self
    exact ih fun event hevent => h event (List.mem_cons_of_mem _ hevent)

theorem count_push_of_isNaming (h : ∀ event ∈ names, event.IsNaming) : names.count .push = 0 := by
  refine List.count_eq_zero.2 fun hmem => ?_
  obtain ⟨name, sort, heq⟩ := h _ hmem
  cases heq

theorem verdicts_of_isNaming (h : ∀ event ∈ names, event.IsNaming) : verdicts names = [] := by
  refine List.filterMap_eq_nil_iff.2 fun event hevent => ?_
  obtain ⟨name, sort, rfl⟩ := h event hevent
  rfl

theorem balanced_of_isNaming (h : ∀ event ∈ names, event.IsNaming) : Balanced names := by
  refine .of_forall_ne fun event hevent => ?_
  obtain ⟨name, sort, rfl⟩ := h event hevent
  exact ⟨nofun, nofun⟩

end

end Prover

end YulBackend
