import Mathlib.Data.List.Nodup
import YulBackend.Codegen.Collector
import YulBackend.Proofs.SortedMap.Lookup

namespace YulBackend

namespace Collector

variable {c : Collector} {code : String}

theorem code?_eq_some_iff {n : String} : c.code? n = some code ↔ c.functions.get? n = some (some code) :=
  Option.join_eq_some_iff

/-- All entries are done when no name is only reserved. -/
theorem all_isSome_values_iff (c : Collector) :
    c.functions.values.all Option.isSome ↔ ∀ n, c.functions.get? n ≠ some none := by
  rw [List.all_eq_true]
  refine ⟨fun h n hn => ?_, fun h entry hentry => ?_⟩
  · cases h none (c.functions.mem_values_iff.2 ⟨n, hn⟩)
  · obtain ⟨n, hn⟩ := c.functions.mem_values_iff.1 hentry
    cases entry with
    | none => exact absurd hn (h n)
    | some code => rfl

/-- The names that a collector has, in order. -/
theorem pairwise_keys (c : Collector) : c.functions.keys.Pairwise (· < ·) :=
  List.pairwise_map.2 (c.functions.sorted.imp compareOfLessAndEq_eq_lt.1)

/-- The code of the done entries, in the order of names. -/
theorem filterMap_values (c : Collector) :
    c.functions.values.filterMap id = c.functions.keys.filterMap c.code? := by
  rw [SortedMap.values, SortedMap.keys, List.filterMap_map, List.filterMap_map]
  refine List.filterMap_congr fun e he => ?_
  have hget : c.functions.get? e.1 = some e.2 := c.functions.mem_entries_iff.1 he
  simp only [Function.comp_apply, id_eq, code?, hget, Option.join_some]

/-- A collector can be taken when no name is only reserved. -/
theorem take_isOk_iff (c : Collector) : c.take.isOk ↔ ∀ n, c.functions.get? n ≠ some none := by
  rw [take, ← all_isSome_values_iff]
  split
  next h => exact iff_of_true rfl h
  next h => exact iff_of_false nofun h

/-- Every finished text is handed out once, in the order of the names, and nothing stays. -/
theorem of_take_eq_ok {rest : Collector} {text : String} (h : c.take = .ok (text, rest)) :
    rest = {} ∧ ∃ names : List String, names.Pairwise (· < ·) ∧ (∀ n, n ∈ names ↔ (c.code? n).isSome) ∧
      text = "\n".intercalate (names.filterMap c.code?) := by
  have hfinished := (take_isOk_iff c).1 (by rw [h]; rfl)
  rw [take, if_pos ((all_isSome_values_iff c).2 hfinished)] at h
  cases h
  refine ⟨rfl, c.functions.keys, c.pairwise_keys, fun n => ?_, by rw [filterMap_values]⟩
  rw [c.functions.mem_keys_iff, SortedMap.contains, code?]
  cases hget : c.functions.get? n with
  | none => rfl
  | some entry =>
    cases entry with
    | none => exact absurd hget (hfinished n)
    | some code => rfl

end Collector

/-- How the text of a function comes about. A creator hands on the fault of any other that it asks for. -/
inductive Creator
  | finish (code : String)
  | fail (fault : Fault)
  /-- Asks for a function, which `creator` makes if need be, and goes on. -/
  | request (name : String) (creator next : Creator)
  /-- Goes on by the names of the functions that were begun so far. -/
  | look (next : List String → Creator)

namespace Creator

/-- What creators did, in order. -/
structure Trace where
  /-- The names of functions whose creator was run. -/
  begun : List String := []
  /-- The texts that creators returned, with the names of their functions. -/
  made : List (String × String) := []
  /-- The names that were handed out. -/
  returned : List String := []
  /-- The names of functions that could not be made. -/
  failed : List String := []

namespace Trace

def begin (t : Trace) (name : String) : Trace := { t with begun := t.begun ++ [name] }

def make (t : Trace) (name : String) : Except Fault String → Trace
  | .ok code => { t with made := t.made ++ [(name, code)] }
  | .error _ => t

def finish (t : Trace) (name : String) : Except Fault String → Trace
  | .ok got => { t with returned := t.returned ++ [got] }
  | .error _ => { t with failed := t.failed ++ [name] }

end Trace

/-- Work on a collector of which it is noted what it does. -/
abbrev Traced := Collecting (StateM Trace)

namespace Traced

/-- The same work on a function, of which it is noted that it begins and what text it returns. -/
def noted (name : String) (creator : Traced String) : Traced String := fun c t =>
  let ((result, c), t) := creator c (t.begin name)
  ((result, c), t.make name result)

/-- Asks for a function. -/
def create (name : String) (creator : Traced String) : Traced String := fun c t =>
  let ((result, c), t) := (Collecting.create name (noted name creator) : Traced String) c t
  ((result, c), t.finish name result)

end Traced

def run : Creator → Traced String
  | finish code => pure code
  | fail fault => throw fault
  | request name creator next => do
    let _ ← Traced.create name creator.run
    next.run
  | look next => fun c t => (next t.begun).run c t

variable {c c' c'' : Collector} {t t' t'' : Trace} {name code : String} {fault : Fault} {creator : Traced String}

namespace Traced

/-- Asking for a name that is taken answers with it and runs no creator. -/
theorem create_of_contains (h : c.contains name) :
    create name creator c t = ((.ok name, c), t.finish name (.ok name)) := by
  have hreserve : c.reserve? name = none := if_pos h
  rw [create, Collecting.create, hreserve]
  rfl

/-- Asking for a free name reserves it, runs the creator, and files the text that it returns. -/
theorem create_of_ok (h : ¬ c.contains name)
    (hmade : creator ⟨c.functions.insert name none⟩ (t.begin name) = ((.ok code, c'), t'))
    (hdefine : c'.define name code = .ok c'') :
    create name creator c t = ((.ok name, c''), (t'.make name (.ok code)).finish name (.ok name)) := by
  have hreserve : c.reserve? name = some ⟨c.functions.insert name none⟩ := if_neg h
  simp only [create, Collecting.create, hreserve, noted, bind, StateT.bind, hmade, hdefine]
  rfl

/-- Asking for a free name whose creator fails releases the name and fails alike. -/
theorem create_of_error (h : ¬ c.contains name)
    (hmade : creator ⟨c.functions.insert name none⟩ (t.begin name) = ((.error fault, c'), t')) :
    create name creator c t = ((.error fault, c'.release name), t'.finish name (.error fault)) := by
  have hreserve : c.reserve? name = some ⟨c.functions.insert name none⟩ := if_neg h
  simp only [create, Collecting.create, hreserve, noted, bind, StateT.bind, hmade]
  rfl

end Traced

/-- What creators may do to a collector. -/
structure Progress (c : Collector) (t : Trace) (succeeds : Bool) (c' : Collector) (t' : Trace) : Prop where
  kept : ∀ n entry, c.functions.get? n = some entry → c'.functions.get? n = some entry
  reserved : ∀ n, c'.functions.get? n = some none → c.functions.get? n = some none
  begun : ∃ names, t'.begun = t.begun ++ names ∧ names.Nodup ∧
    ∀ n ∈ names, c.functions.get? n = none ∧ (succeeds → c'.contains n)
  made : ∃ texts, t'.made = t.made ++ texts ∧
    ∀ n code, c'.code? n = some code ↔ c.code? n = some code ∨ (n, code) ∈ texts
  returned : ∃ names, t'.returned = t.returned ++ names ∧ (succeeds → ∀ n ∈ names, c'.contains n)
  failed : ∃ names, t'.failed = t.failed ++ names ∧ (succeeds → names = []) ∧
    ∀ n ∈ names, c.functions.get? n = none ∧ c'.functions.get? n = none

namespace Progress

variable {succeeds : Bool}

/-- Doing nothing is progress. -/
theorem refl (c : Collector) (t : Trace) (succeeds : Bool) : Progress c t succeeds c t where
  kept := fun _ _ h => h
  reserved := fun _ h => h
  begun := ⟨[], (List.append_nil _).symm, List.nodup_nil, nofun⟩
  made := ⟨[], (List.append_nil _).symm, fun _ _ => (or_iff_left List.not_mem_nil).symm⟩
  returned := ⟨[], (List.append_nil _).symm, nofun⟩
  failed := ⟨[], (List.append_nil _).symm, fun _ => rfl, nofun⟩

theorem contains (h : Progress c t succeeds c' t') {n : String} (hn : c.contains n) : c'.contains n := by
  obtain ⟨entry, hentry⟩ := Option.isSome_iff_exists.1 hn
  exact Option.isSome_iff_exists.2 ⟨entry, h.kept n entry hentry⟩

/-- What was done and what is done then. Nothing can be begun again, since all that was begun is finished. -/
theorem trans (h : Progress c t true c' t') (h' : Progress c' t' succeeds c'' t'') : Progress c t succeeds c'' t'' where
  kept := fun n entry hentry => h'.kept n entry (h.kept n entry hentry)
  reserved := fun n hn => h.reserved n (h'.reserved n hn)
  begun := by
    obtain ⟨names, hnames, hnodup, hnew⟩ := h.begun
    obtain ⟨names', hnames', hnodup', hnew'⟩ := h'.begun
    have hdisjoint : names.Disjoint names' := fun n hn hn' =>
      Option.isSome_iff_ne_none.1 ((hnew n hn).2 rfl) (hnew' n hn').1
    refine ⟨names ++ names', by rw [hnames', hnames, List.append_assoc], hnodup.append hnodup' hdisjoint,
      fun n hn => ?_⟩
    obtain hn | hn := List.mem_append.1 hn
    · exact ⟨(hnew n hn).1, fun _ => h'.contains ((hnew n hn).2 rfl)⟩
    · refine ⟨Option.eq_none_iff_forall_ne_some.2 fun entry hentry => ?_, (hnew' n hn).2⟩
      cases (hnew' n hn).1.symm.trans (h.kept n entry hentry)
  made := by
    obtain ⟨texts, htexts, hcode⟩ := h.made
    obtain ⟨texts', htexts', hcode'⟩ := h'.made
    refine ⟨texts ++ texts', by rw [htexts', htexts, List.append_assoc], fun n code => ?_⟩
    rw [hcode', hcode, List.mem_append, or_assoc]
  returned := by
    obtain ⟨names, hnames, hkept⟩ := h.returned
    obtain ⟨names', hnames', hkept'⟩ := h'.returned
    refine ⟨names ++ names', by rw [hnames', hnames, List.append_assoc], fun hok n hn => ?_⟩
    obtain hn | hn := List.mem_append.1 hn
    · exact h'.contains (hkept rfl n hn)
    · exact hkept' hok n hn
  failed := by
    obtain ⟨names, hnames, hnil, -⟩ := h.failed
    obtain ⟨names', hnames', hnil', hnone'⟩ := h'.failed
    rw [hnil rfl, List.append_nil] at hnames
    refine ⟨names', by rw [hnames', hnames], hnil', fun n hn => ⟨?_, (hnone' n hn).2⟩⟩
    refine Option.eq_none_iff_forall_ne_some.2 fun entry hentry => ?_
    cases (hnone' n hn).1.symm.trans (h.kept n entry hentry)

/-- A name that is there is handed out. -/
theorem handedOut (h : c.contains name) (t : Trace) : Progress c t true c (t.finish name (.ok name)) where
  kept := fun _ _ h => h
  reserved := fun _ h => h
  begun := ⟨[], (List.append_nil _).symm, List.nodup_nil, nofun⟩
  made := ⟨[], (List.append_nil _).symm, fun _ _ => (or_iff_left List.not_mem_nil).symm⟩
  returned := ⟨[name], rfl, fun _ _ hn => List.mem_singleton.1 hn ▸ h⟩
  failed := ⟨[], (List.append_nil _).symm, fun _ => rfl, nofun⟩

/-- A name that is free again behind a failure counts as finished with a fault. -/
theorem failed_of_get?_eq_none (h : Progress c t false c' t') (hname : c.functions.get? name = none)
    (hname' : c'.functions.get? name = none) : Progress c t false c' (t'.finish name (.error fault)) where
  kept := h.kept
  reserved := h.reserved
  begun := h.begun
  made := h.made
  returned := h.returned
  failed := by
    obtain ⟨names, hnames, -, hnone⟩ := h.failed
    refine ⟨names ++ [name], by rw [Trace.finish, hnames, List.append_assoc], nofun, fun n hn => ?_⟩
    obtain hn | hn := List.mem_append.1 hn
    · exact hnone n hn
    · rw [List.mem_singleton.1 hn]
      exact ⟨hname, hname'⟩

/-- A name free beside a reserved one is another name, and was free before. -/
theorem ne_and_get?_eq_none_of_insert {n : String} (h : (c.functions.insert name none).get? n = none) :
    n ≠ name ∧ c.functions.get? n = none := by
  rw [SortedMap.get?_insert] at h
  split at h
  · cases h
  next hne => exact ⟨hne, h⟩

/-- Filling a reservation that `create` made with the text that the creator returned, or giving it up where the creator
failed, makes progress from where it was made. -/
theorem closed {result : Except Fault String} (hname : c.functions.get? name = none)
    (h : Progress ⟨c.functions.insert name none⟩ (t.begin name) result.isOk c' t')
    (hother : ∀ n, n ≠ name → c''.functions.get? n = c'.functions.get? n)
    (hown : c''.functions.get? name = result.toOption.map some) :
    Progress c t result.isOk c'' (t'.make name result) := by
  have hbefore (n : String) (hn : n ≠ name) : (c.functions.insert name none).get? n = c.functions.get? n := by
    rw [SortedMap.get?_insert, if_neg hn]
  have hfilled (hok : result.isOk) : c''.contains name := by
    rw [Collector.contains, SortedMap.contains, hown]
    cases result with
    | ok code => rfl
    | error fault => cases hok
  have hcontains (hok : result.isOk) (n : String) (hn : c'.contains n) : c''.contains n := by
    by_cases heq : n = name
    · exact heq ▸ hfilled hok
    · rwa [Collector.contains, SortedMap.contains, hother n heq]
  have hmake : (t'.make name result).begun = t'.begun ∧ (t'.make name result).returned = t'.returned ∧
      (t'.make name result).failed = t'.failed := by
    cases result <;> exact ⟨rfl, rfl, rfl⟩
  refine ⟨fun n entry hentry => ?kept, fun n hn => ?reserved, ?begun, ?made, ?returned, ?failed⟩
  case kept =>
    have hne : n ≠ name := by
      rintro rfl
      cases hname.symm.trans hentry
    rw [hother n hne]
    exact h.kept n entry ((hbefore n hne).trans hentry)
  case reserved =>
    have hne : n ≠ name := by
      rintro rfl
      rw [hown] at hn
      cases result <;> cases hn
    rw [hother n hne] at hn
    exact (hbefore n hne).symm.trans (h.reserved n hn)
  case begun =>
    obtain ⟨names, hnames, hnodup, hnew⟩ := h.begun
    have hnotMem : name ∉ names := fun hn => (ne_and_get?_eq_none_of_insert (hnew name hn).1).1 rfl
    refine ⟨name :: names, by rw [hmake.1, hnames, Trace.begin, List.append_assoc, List.singleton_append],
      List.nodup_cons.2 ⟨hnotMem, hnodup⟩, fun n hn => ?_⟩
    obtain rfl | hn := List.mem_cons.1 hn
    · exact ⟨hname, hfilled⟩
    · exact ⟨(ne_and_get?_eq_none_of_insert (hnew n hn).1).2, fun hok => hcontains hok n ((hnew n hn).2 hok)⟩
  case made =>
    obtain ⟨texts, htexts, hcode⟩ := h.made
    refine ⟨texts ++ (result.toOption.map (name, ·)).toList, ?_, fun n code => ?_⟩
    · cases result with
      | ok code => exact (congrArg (· ++ [(name, code)]) htexts).trans (List.append_assoc _ _ _)
      | error fault => exact htexts.trans (congrArg _ (List.append_nil texts).symm)
    have hinserted := hcode n code
    rw [List.mem_append]
    by_cases heq : n = name
    · subst heq
      have hreserved : c'.functions.get? n = some none :=
        h.kept n none (by rw [SortedMap.get?_insert, if_pos rfl])
      have hnew : (n, code) ∉ texts := by
        intro hmem
        have hfiled := hinserted.2 (.inr hmem)
        rw [Collector.code?, hreserved] at hfiled
        cases hfiled
      rw [Collector.code?, hown, Collector.code?, hname]
      cases result with
      | ok got => simp [hnew, Except.toOption, eq_comm]
      | error fault => simp [hnew, Except.toOption]
    · have hotherTexts : (n, code) ∉ (result.toOption.map (name, ·)).toList := by
        cases result with
        | ok got => simp [Except.toOption, heq]
        | error fault => exact List.not_mem_nil
      rw [Collector.code?, hother n heq, or_iff_left hotherTexts]
      rwa [Collector.code?, Collector.code?, hbefore n heq] at hinserted
  case returned =>
    obtain ⟨names, hnames, hkept⟩ := h.returned
    exact ⟨names, hmake.2.1.trans hnames, fun hok n hn => hcontains hok n (hkept hok n hn)⟩
  case failed =>
    obtain ⟨names, hnames, hnil, hnone⟩ := h.failed
    refine ⟨names, hmake.2.2.trans hnames, hnil, fun n hn => ?_⟩
    obtain ⟨hne, hnone'⟩ := ne_and_get?_eq_none_of_insert (hnone n hn).1
    exact ⟨hnone', (hother n hne).trans (hnone n hn).2⟩

end Progress

/-- Asking for a function makes progress if its creator does. -/
theorem Traced.progress_create (hcreator : ∀ c t result c' t', creator c t = ((result, c'), t') →
    Progress c t result.isOk c' t') {result : Except Fault String}
    (h : create name creator c t = ((result, c'), t')) : Progress c t result.isOk c' t' := by
  by_cases hcontains : c.contains name
  · rw [create_of_contains hcontains] at h
    cases h
    exact .handedOut hcontains t
  have hnone : c.functions.get? name = none := Option.not_isSome_iff_eq_none.1 hcontains
  rcases hmade : creator ⟨c.functions.insert name none⟩ (t.begin name) with ⟨⟨result', made⟩, t₁⟩
  have hprogress := hcreator _ _ _ _ _ hmade
  have hreserved : made.functions.get? name = some none := hprogress.kept name none (by simp)
  cases result' with
  | ok code =>
    have hdefine : made.define name code = .ok ⟨made.functions.insert name (some code)⟩ := by
      rw [Collector.define, hreserved]
    rw [create_of_ok hcontains hmade hdefine] at h
    cases h
    have hclosed : Progress c t (Except.isOk (.ok code : Except Fault String))
        ⟨made.functions.insert name (some code)⟩ (t₁.make name (.ok code)) := by
      refine .closed hnone hprogress (fun n hn => ?_) ?_
      · rw [SortedMap.get?_insert, if_neg hn]
      · rw [SortedMap.get?_insert, if_pos rfl]
        rfl
    have hfilled : Collector.contains ⟨made.functions.insert name (some code)⟩ name := by
      simp [Collector.contains, SortedMap.contains]
    exact hclosed.trans (.handedOut hfilled _)
  | error fault =>
    have hrelease : made.release name = ⟨made.functions.erase name⟩ := by
      rw [Collector.release, hreserved]
    rw [create_of_error hcontains hmade, hrelease] at h
    cases h
    have herased : (made.functions.erase name).get? name = none := by
      rw [SortedMap.get?_erase, if_pos rfl]
    have hclosed : Progress c t (Except.isOk (.error fault : Except Fault String))
        ⟨made.functions.erase name⟩ (t₁.make name (.error fault)) := by
      refine .closed hnone hprogress (fun n hn => ?_) herased
      rw [SortedMap.get?_erase, if_neg hn]
    exact hclosed.failed_of_get?_eq_none hnone herased

/-- What comes of asking is noted, one way or the other. -/
theorem Traced.mem_finished {result : Except Fault String} (h : create name creator c t = ((result, c'), t')) :
    (∀ got, result = .ok got → got ∈ t'.returned) ∧ ∀ fault, result = .error fault → name ∈ t'.failed := by
  unfold create at h
  generalize (Collecting.create name (noted name creator) : Traced String) c t = made at h
  obtain ⟨⟨got, made⟩, t₁⟩ := made
  cases h
  constructor <;> rintro _ rfl <;> exact List.mem_append_right _ List.mem_cons_self

theorem run_request_of_ok {maker next : Creator} (h : Traced.create name maker.run c t = ((.ok code, c'), t')) :
    (request name maker next).run c t = next.run c' t' := by
  simp only [run, bind, ExceptT.bind, ExceptT.mk, ExceptT.bindCont, StateT.bind, h]

theorem run_request_of_error {maker next : Creator}
    (h : Traced.create name maker.run c t = ((.error fault, c'), t')) :
    (request name maker next).run c t = ((.error fault, c'), t') := by
  simp only [run, bind, ExceptT.bind, ExceptT.mk, ExceptT.bindCont, StateT.bind, h]
  rfl

/-- Whatever creators ask of each other, a run makes progress. The induction is on the creator, its requests
included. -/
theorem progress_run (creator : Creator) {result : Except Fault String}
    (h : creator.run c t = ((result, c'), t')) : Progress c t result.isOk c' t' := by
  induction creator generalizing c t result c' t' with
  | finish code =>
    cases h
    exact .refl c t true
  | fail fault =>
    cases h
    exact .refl c t false
  | request name maker next ihmaker ihnext =>
    rcases hcreate : Traced.create name maker.run c t with ⟨⟨got, made⟩, t₁⟩
    have hmade := Traced.progress_create (fun _ _ _ _ _ => ihmaker) hcreate
    cases got with
    | ok code =>
      rw [run_request_of_ok hcreate] at h
      exact hmade.trans (ihnext h)
    | error fault =>
      rw [run_request_of_error hcreate] at h
      cases h
      exact hmade
  | look next ih => exact ih t.begun h

/-- However deep creators call `create` for further functions, for functions under construction as well, and wherever
they fail: what is finished stays as it is, and what is filed besides is what the creator of the function returned,
each function is begun at most once and none that is finished or reserved, a name that is handed out stands for a
finished function or for one that was reserved before, a function that cannot be made leaves nothing behind, and the
reservations are afterwards what they were. So `take` gives all texts, each once and in the order of the names, if and
only if nothing was reserved. -/
theorem create_run (c : Collector) (name : String) (creator : Creator) :
    let ((result, c'), t) := Traced.create name creator.run c {}
    (∀ n code, c.code? n = some code → c'.code? n = some code) ∧
    (∀ n code, c'.code? n = some code ↔ c.code? n = some code ∨ (n, code) ∈ t.made) ∧
    (t.begun.Nodup ∧ ∀ n ∈ t.begun, c.contains n = false) ∧
    (∀ got, result = .ok got → got ∈ t.returned ∧
      ∀ n ∈ t.returned, (c'.code? n).isSome ∨ c.functions.get? n = some none) ∧
    (∀ fault, result = .error fault → name ∈ t.failed) ∧
    (∀ n ∈ t.failed, c'.functions.get? n = c.functions.get? n) ∧
    (∀ n, c'.functions.get? n = some none ↔ c.functions.get? n = some none) ∧
    (c'.take.isOk ↔ ∀ n, c.functions.get? n ≠ some none) ∧
    ∀ text rest, c'.take = .ok (text, rest) →
      rest = {} ∧ ∃ names : List String, names.Pairwise (· < ·) ∧ (∀ n, n ∈ names ↔ (c'.code? n).isSome) ∧
        text = "\n".intercalate (names.filterMap c'.code?) := by
  rcases hcreate : Traced.create name creator.run c {} with ⟨⟨result, c'⟩, t⟩
  have hprogress := Traced.progress_create (fun _ _ _ _ _ => creator.progress_run) hcreate
  have hreserved (n : String) : c'.functions.get? n = some none ↔ c.functions.get? n = some none :=
    ⟨hprogress.reserved n, hprogress.kept n none⟩
  obtain ⟨begun, hbegun, hnodup, hnew⟩ := hprogress.begun
  obtain ⟨made, hmade, hfiled⟩ := hprogress.made
  obtain ⟨returned, hreturned, hcontains⟩ := hprogress.returned
  obtain ⟨failed, hfailed, -, hnone⟩ := hprogress.failed
  rw [List.nil_append] at hbegun hmade hreturned hfailed
  subst hbegun hmade hreturned hfailed
  obtain ⟨hhandedOut, hgivenUp⟩ := Traced.mem_finished hcreate
  refine ⟨fun n code hcode => ?_, hfiled, ⟨hnodup, fun n hn => ?_⟩, fun got hok => ⟨hhandedOut got hok, fun n hn => ?_⟩,
    hgivenUp, fun n hn => (hnone n hn).2.trans (hnone n hn).1.symm, hreserved, ?_,
    fun text rest => Collector.of_take_eq_ok⟩
  · rw [Collector.code?_eq_some_iff] at hcode ⊢
    exact hprogress.kept n _ hcode
  · rw [Collector.contains, SortedMap.contains, (hnew n hn).1]
    rfl
  · obtain ⟨entry, hentry⟩ := Option.isSome_iff_exists.1 (hcontains (hok ▸ rfl) n hn)
    cases entry with
    | none => exact .inr ((hreserved n).1 hentry)
    | some code => exact .inl (by rw [Collector.code?, hentry]; rfl)
  · rw [Collector.take_isOk_iff]
    exact forall_congr' fun n => not_congr (hreserved n)

example :
    let maker := request "helper" (request "outer" (fail (.violation .queueEmpty)) (finish "H")) (finish "O")
    let ((_, c), t) := Traced.create "outer" maker.run {} {}
    c.take.toOption.map Prod.fst = some "H\nO" ∧ t.begun = ["outer", "helper"] ∧
      t.returned = ["outer", "helper", "outer"] :=
  ⟨rfl, rfl, rfl⟩

end Creator

end YulBackend
