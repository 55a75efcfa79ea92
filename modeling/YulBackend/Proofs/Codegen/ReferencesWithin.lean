import Mathlib.Logic.Relation
import YulBackend.Proofs.Codegen.Generation

namespace YulBackend

/-- A report that refers to no functions but these. -/
def DispatchOperation.RefersWithin (functions : List Function) : DispatchOperation → Prop
  | .enqueue f => f ∈ functions
  | .collect _ f => f ∈ functions
  | .forget _ => True
  | .register _ => True
  | _ => False

/-- An operation about functions of a given list reports; it neither takes from the queue nor promotes nor consumes. -/
theorem DispatchOperation.RefersWithin.isReport {functions : List Function} {o : DispatchOperation}
    (h : o.RefersWithin functions) : o.IsReport := by
  cases o with
  | enqueue | register | collect | forget => exact trivial
  | _ => exact h.elim

/-- Something that the lowering of a body does to its context: it reports a reference, or it does what
concerns neither the queue nor the table. A name of these functions that is taken stays so. -/
inductive Context.Works (functions : List Function) : Context → Context → Prop
  | report {c : Context} {o : DispatchOperation} (h : o.RefersWithin functions) :
      Works functions c (c.operate o)
  | other {c c' : Context} (hqueue : c'.queue = c.queue) (htable : c'.table = c.table)
      (htaken : ∀ f ∈ functions, c.collector.contains f.codeName → c'.collector.contains f.codeName) :
      Works functions c c'

/-- The bodies of these functions refer to no others, and a function's own name stays reserved while its body is
lowered. -/
def Lowering.StaysWithin (lowering : Lowering) (functions : List Function) : Prop :=
  ∀ f ∈ functions, ∀ c code c', c.collector.functions.get? f.codeName = some none →
    lowering f c = (.ok code, c') →
    Relation.ReflTransGen (Context.Works functions) c c' ∧
      c'.collector.functions.get? f.codeName = some none

/-- What is queued, offered or referred to by value is among these functions. -/
structure Context.RefersWithin (functions : List Function) (c : Context) : Prop where
  queue : ∀ f ∈ c.queue.values, f ∈ functions
  candidates : ∀ members ∈ c.table.candidates.values, ∀ f ∈ members.values, f ∈ functions
  pending : ∀ f ∈ c.table.pending.values, f ∈ functions

/-- A table that some use of a fresh context leads to. -/
def DispatchTable.Used (t : DispatchTable) : Prop :=
  ∃ settings operations, t = (Context.operateAll { settings } operations).table

variable {functions : List Function}

namespace FunctionSet

variable {s : FunctionSet} {f g : Function}

/-- A set with a function added has no others besides its own. -/
theorem mem_values_of_mem_add (h : f ∈ (s.add g).values) : f ∈ s.values ∨ f = g := by
  obtain ⟨i, hi⟩ := (SortedMap.mem_values_iff _).1 h
  rw [get?_add] at hi
  split at hi
  next =>
    cases hold : s.get? g.id with
    | none =>
      rw [hold] at hi
      cases hi
      exact .inr rfl
    | some old =>
      rw [hold] at hi
      cases hi
      exact .inl ((SortedMap.mem_values_iff _).2 ⟨_, hold⟩)
  next => exact .inl ((SortedMap.mem_values_iff _).2 ⟨i, hi⟩)

/-- A set with functions added has no others besides its own. -/
theorem mem_values_of_mem_foldl_add {added : List Function}
    (h : f ∈ SortedMap.values (added.foldl FunctionSet.add s)) : f ∈ s.values ∨ f ∈ added := by
  induction added generalizing s with
  | nil => exact .inl h
  | cons g rest ih =>
    rcases ih h with hadd | hrest
    · rcases mem_values_of_mem_add hadd with hold | rfl
      · exact .inl hold
      · exact .inr List.mem_cons_self
    · exact .inr (List.mem_cons_of_mem _ hrest)

end FunctionSet

namespace DispatchTable

/-- The functions that a promotion gives were candidates or referred to by value. -/
theorem mem_candidates_or_pending_of_mem_gained {t : DispatchTable} {f : Function} (h : f ∈ t.gained) :
    (∃ members ∈ t.candidates.values, f ∈ members.values) ∨ f ∈ t.pending.values := by
  have hfiled : ∀ (references : List Function) (t : DispatchTable),
      f ∈ joined fileReference gainedReference t references → f ∈ references := by
    intro references
    induction references with
    | nil => exact fun _ hf => hf
    | cons g rest ih =>
      intro t hf
      rw [joined, List.mem_append] at hf
      rcases hf with hfirst | hrest
      · rw [gainedReference] at hfirst
        split at hfirst
        · cases hfirst
        · split at hfirst
          · cases hfirst
          · rw [List.mem_singleton.1 hfirst]
            exact List.mem_cons_self
      · exact List.mem_cons_of_mem _ (ih _ hrest)
  rw [gained, List.mem_append, joined_takeCandidates_eq t.dispatch.nodup_keys] at h
  rcases h with hmoved | hreferred
  · obtain ⟨a, _, hf⟩ := List.mem_flatMap.1 hmoved
    rw [gainedCandidates] at hf
    cases hmembers : t.candidates.get? a with
    | none =>
      rw [hmembers] at hf
      cases hf
    | some members =>
      rw [hmembers] at hf
      exact .inl ⟨members, (SortedMap.mem_values_iff _).2 ⟨a, hmembers⟩, hf⟩
  · exact .inr (hfiled _ _ hreferred)

/-- The candidates after a promotion were candidates before or referred to by value. -/
theorem mem_candidates_or_pending_of_mem_promoted {t : DispatchTable} {f : Function}
    {members : FunctionSet} (hmembers : members ∈ t.promoted.candidates.values)
    (h : f ∈ members.values) :
    (∃ members ∈ t.candidates.values, f ∈ members.values) ∨ f ∈ t.pending.values := by
  obtain ⟨a, ha⟩ := (SortedMap.mem_values_iff _).1 hmembers
  rw [get?_candidates_promoted] at ha
  split at ha
  next => cases ha
  next =>
    rw [DispatchMap.get?_foldl_file] at ha
    split at ha
    next =>
      cases ha
      rcases FunctionSet.mem_values_of_mem_foldl_add h with hold | hfiled
      · cases hcandidates : t.candidates.get? a with
        | none =>
          rw [hcandidates] at hold
          cases hold
        | some old =>
          rw [hcandidates] at hold
          exact .inl ⟨old, (SortedMap.mem_values_iff _).2 ⟨a, hcandidates⟩, hold⟩
      · exact .inr (List.mem_filter.1 hfiled).1
    next => exact .inl ⟨members, (SortedMap.mem_values_iff _).2 ⟨a, ha⟩, h⟩

end DispatchTable

namespace Context

/-- What the generator keeps: a promotion succeeds, and whatever is still to come is among these functions. -/
structure Within (functions : List Function) (c : Context) : Prop where
  consistent : c.table.Consistent
  refers : c.RefersWithin functions

variable {c c' : Context}

/-- Queueing a function queues no other, and only if its code is not there. -/
theorem mem_queue_of_mem_enqueue {f g : Function} (h : g ∈ (c.enqueue f).2.queue.values) :
    g ∈ c.queue.values ∨ g = f ∧ c.collector.contains f.codeName = false := by
  obtain ⟨i, hi⟩ := (SortedMap.mem_values_iff _).1 h
  rw [get?_queue_enqueue, Option.or_eq_some_iff] at hi
  rcases hi with hold | ⟨_, hnew⟩
  · exact .inl ((SortedMap.mem_values_iff _).2 ⟨i, hold⟩)
  · split at hnew
    next hfree =>
      cases hnew
      exact .inr ⟨rfl, hfree.1⟩
    next => cases hnew

/-- A function is queued only while its name is free. -/
theorem mem_queue_of_mem_enqueueAll {queued : List Function} {g : Function}
    (h : g ∈ (c.enqueueAll queued).queue.values) :
    g ∈ c.queue.values ∨ g ∈ queued ∧ c.collector.contains g.codeName = false := by
  induction queued generalizing c with
  | nil => exact .inl h
  | cons f rest ih =>
    rw [enqueueAll_cons] at h
    rcases ih h with hfirst | ⟨hrest, hfree⟩
    · rcases mem_queue_of_mem_enqueue hfirst with hold | ⟨rfl, hfree⟩
      · exact .inl hold
      · exact .inr ⟨List.mem_cons_self, hfree⟩
    · rw [collector_enqueue] at hfree
      exact .inr ⟨List.mem_cons_of_mem _ hrest, hfree⟩

@[simp]
theorem collector_promoted (c : Context) : c.promoted.collector = c.collector :=
  collector_enqueueAll { c with table := c.table.promoted } c.table.gained

/-- What a promotion adds to the queue has a free name. -/
theorem mem_queue_of_mem_promoted {g : Function} (h : g ∈ c.promoted.queue.values) :
    g ∈ c.queue.values ∨ g ∈ c.table.gained ∧ c.collector.contains g.codeName = false :=
  mem_queue_of_mem_enqueueAll (c := { c with table := c.table.promoted }) h

/-- Queueing one of the functions keeps the context within them. -/
theorem RefersWithin.enqueue (h : c.RefersWithin functions) {f : Function} (hf : f ∈ functions) :
    (c.enqueue f).2.RefersWithin functions := by
  have hsame := c.sameMaps_enqueue f
  refine ⟨fun g hg => ?_, ?_, ?_⟩
  · rcases mem_queue_of_mem_enqueue hg with hold | ⟨rfl, _⟩
    · exact h.queue g hold
    · exact hf
  · rw [hsame.candidates]
    exact h.candidates
  · rw [hsame.pending]
    exact h.pending

/-- Promotion keeps the context within its functions. -/
theorem RefersWithin.promoted (h : c.RefersWithin functions) : c.promoted.RefersWithin functions := by
  have hknown : ∀ f : Function, (∃ members ∈ c.table.candidates.values, f ∈ members.values) ∨
      f ∈ c.table.pending.values → f ∈ functions := by
    rintro f (⟨members, hmembers, hf⟩ | hf)
    · exact h.candidates members hmembers f hf
    · exact h.pending f hf
  have hsame := sameMaps_enqueueAll { c with table := c.table.promoted } c.table.gained
  refine ⟨fun f hf => ?_, fun members hmembers f hf => ?_, fun f hf => ?_⟩
  · rcases mem_queue_of_mem_promoted hf with hold | ⟨hgained, _⟩
    · exact h.queue f hold
    · exact hknown f (DispatchTable.mem_candidates_or_pending_of_mem_gained hgained)
  · change members ∈ (enqueueAll _ _).table.candidates.values at hmembers
    rw [hsame.candidates] at hmembers
    exact hknown f (DispatchTable.mem_candidates_or_pending_of_mem_promoted hmembers hf)
  · rw [pending_promoted] at hf
    cases hf

/-- An operation about the functions keeps the context within them. -/
theorem RefersWithin.operate (h : c.RefersWithin functions) {o : DispatchOperation}
    (ho : o.RefersWithin functions) : (c.operate o).RefersWithin functions := by
  cases o with
  | enqueue f => exact h.enqueue ho
  | collect expression f =>
    rw [operate_collect]
    split
    · exact h
    · refine ⟨h.queue, h.candidates, fun g hg => ?_⟩
      rcases SortedMap.mem_values_of_mem_insert hg with rfl | hold
      · exact ho
      · exact h.pending g hold
  | forget expression =>
    rw [operate_forget]
    split
    · exact ⟨h.queue, h.candidates, fun g hg => h.pending g (SortedMap.mem_values_of_mem_erase hg)⟩
    · exact h
  | register arity =>
    rw [operate_register]
    split <;> exact ⟨h.queue, h.candidates, h.pending⟩
  | _ => exact ho.elim

/-- Being within the functions depends only on the queue and the tables. -/
theorem Within.of_eq (h : c.Within functions) (hqueue : c'.queue = c.queue)
    (htable : c'.table = c.table) : c'.Within functions := by
  refine ⟨?_, ?_, ?_, ?_⟩
  · rw [htable]
    exact h.consistent
  · rw [hqueue]
    exact h.refers.queue
  · rw [htable]
    exact h.refers.candidates
  · rw [htable]
    exact h.refers.pending

/-- A step of work keeps the context within the functions. -/
theorem Works.within (hworks : Works functions c c') (h : c.Within functions) : c'.Within functions := by
  cases hworks with
  | report ho => exact ⟨consistent_operate h.consistent _, h.refers.operate ho⟩
  | other hqueue htable _ => exact h.of_eq hqueue htable

/-- A step of work keeps the code of the functions that is there. -/
theorem Works.contains (hworks : Works functions c c') {f : Function} (hf : f ∈ functions)
    (h : c.collector.contains f.codeName) : c'.collector.contains f.codeName := by
  cases hworks with
  | report ho =>
    rw [c.collector_operate ho.isReport]
    exact h
  | other _ _ htaken => exact htaken f hf h

/-- Operations about the functions are steps of work. -/
theorem works_operateAll {operations : List DispatchOperation}
    (h : ∀ o ∈ operations, o.RefersWithin functions) (c : Context) :
    Relation.ReflTransGen (Works functions) c (c.operateAll operations) := by
  induction operations generalizing c with
  | nil => exact .refl
  | cons o rest ih =>
    obtain ⟨ho, hrest⟩ := List.forall_mem_cons.1 h
    exact .head (.report ho) (ih hrest (c.operate o))

theorem within_of_works (hworks : Relation.ReflTransGen (Works functions) c c')
    (h : c.Within functions) : c'.Within functions := by
  induction hworks with
  | refl => exact h
  | tail _ hstep ih => exact hstep.within ih

/-- Any work keeps the code of the functions that is there. -/
theorem contains_of_works (hworks : Relation.ReflTransGen (Works functions) c c') {f : Function}
    (hf : f ∈ functions) (h : c.collector.contains f.codeName) : c'.collector.contains f.codeName := by
  induction hworks with
  | refl => exact h
  | tail _ hstep ih => exact hstep.contains hf ih

/-- What is taken from the queue was the first in it. -/
theorem values_queue_of_dequeue_eq_ok {f : Function} (h : c.dequeue = .ok (f, c')) :
    c.queue.values = f :: c'.queue.values ∧ c' = { c with queue := c'.queue } := by
  rw [dequeue] at h
  split at h
  next => cases h
  next i f' rest hentries =>
    cases h
    refine ⟨?_, rfl⟩
    rw [SortedMap.values, SortedMap.values, SortedMap.entries_erase_of_eq_cons hentries, hentries,
      List.map_cons]

/-- What is taken from the queue is one of the functions. -/
theorem Within.dequeue (h : c.Within functions) {f : Function} (hdequeue : c.dequeue = .ok (f, c')) :
    f ∈ functions ∧ c'.Within functions := by
  obtain ⟨hvalues, heq⟩ := values_queue_of_dequeue_eq_ok hdequeue
  have hqueue := h.refers.queue
  rw [hvalues] at hqueue
  obtain ⟨hf, hrest⟩ := List.forall_mem_cons.1 hqueue
  rw [heq]
  exact ⟨hf, h.consistent, hrest, h.refers.candidates, h.refers.pending⟩

theorem Within.promoted (h : c.Within functions) : c.promoted.Within functions :=
  ⟨c.partitioned_promoted.consistent, h.refers.promoted⟩

/-- A promotion that is not the end leaves something queued. -/
theorem eq_promoted_of_promoteReferences_eq_none (h : c.table.Consistent)
    (hpromote : c.promoteReferences = .ok (none, c')) :
    c' = c.promoted ∧ c'.queue.isEmpty = false := by
  rw [promoteReferences_eq_ok h] at hpromote
  split at hpromote
  next => cases hpromote
  next hqueue =>
    cases hpromote
    exact ⟨rfl, Bool.eq_false_iff.2 hqueue⟩

/-- A promotion of an empty queue fills it with functions whose names are free. -/
theorem contains_eq_false_of_mem_promoted (hqueue : c.queue.isEmpty) {f : Function}
    (hf : f ∈ c.promoted.queue.values) : c.promoted.collector.contains f.codeName = false := by
  rw [collector_promoted]
  rcases mem_queue_of_mem_promoted hf with hold | ⟨_, hfree⟩
  · rw [SortedMap.values, List.isEmpty_iff.1 hqueue] at hold
    cases hold
  · exact hfree

end Context

end YulBackend
