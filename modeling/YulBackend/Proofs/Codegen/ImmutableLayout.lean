import Mathlib.Data.List.Dedup
import YulBackend.Proofs.Codegen.Refusals

namespace YulBackend

namespace Context

variable {c : Context}

theorem exists_enqueue_eq (c : Context) (f : Function) : ∃ queue table, (c.enqueue f).2 = { c with queue, table } := by
  rw [enqueue]
  split <;> exact ⟨_, _, rfl⟩

/-- Queueing functions changes nothing but the queue and the tables. -/
theorem exists_enqueueAll_eq (c : Context) (functions : List Function) :
    ∃ queue table, c.enqueueAll functions = { c with queue, table } := by
  induction functions generalizing c with
  | nil => exact ⟨_, _, rfl⟩
  | cons f rest ih =>
    obtain ⟨queue, table, hfirst⟩ := c.exists_enqueue_eq f
    obtain ⟨queue', table', hrest⟩ := ih (c.enqueue f).2
    refine ⟨queue', table', hrest.trans ?_⟩
    rw [hfirst]

/-- Work for pointers to functions touches what is queued and the dispatch table alone. -/
theorem exists_operate_eq (hconsistent : c.table.Consistent) (operation : DispatchOperation) :
    ∃ queue table, c.operate operation = { c with queue, table } := by
  cases operation with
  | seed candidates =>
    rw [operate_seed]
    split <;> exact ⟨_, _, rfl⟩
  | collect expression f =>
    rw [operate_collect]
    split <;> exact ⟨_, _, rfl⟩
  | forget expression =>
    rw [operate_forget]
    split <;> exact ⟨_, _, rfl⟩
  | register arity => exact ⟨_, _, rfl⟩
  | enqueue f => exact c.exists_enqueue_eq f
  | dequeue =>
    rw [operate, dequeue]
    cases c.queue.entries <;> exact ⟨_, _, rfl⟩
  | promote =>
    obtain ⟨queue, table, hpromoted⟩ := exists_enqueueAll_eq { c with table := c.table.promoted } c.table.gained
    rw [operate_promote hconsistent, promoted, hpromoted]
    split <;> exact ⟨_, _, rfl⟩
  | consume fixedPoint =>
    rw [operate_consume]
    split <;> exact ⟨_, _, rfl⟩

/-- What does not register an immutable moves none; it may close the reservation. -/
theorem Becomes.layout {o : ContextOperation} {c' : Context} (h : c.Becomes o c') (hconsistent : c.table.Consistent)
    (ho : ∀ v, o ≠ .registerImmutable v) :
    c'.immutables = c.immutables ∧ (c'.reserved = c.reserved ∨ c'.reserved = none) := by
  cases h with
  | dispatch operation =>
    obtain ⟨queue, table, hoperate⟩ := exists_operate_eq hconsistent operation
    rw [hoperate]
    exact ⟨rfl, .inl rfl⟩
  | immutable => exact absurd rfl (ho _)
  | finalized => exact ⟨rfl, .inr rfl⟩
  | _ => exact ⟨rfl, .inl rfl⟩

end Context

namespace ContextOperation

/-- The declaration for which an operation reserves a word. -/
def registered? (c : Context) : ContextOperation → Option NodeId
  | registerImmutable v => if (c.registerImmutable v).toBool then some v.id else none
  | _ => none

theorem registered?_of_ne {c : Context} {o : ContextOperation} (ho : ∀ v, o ≠ registerImmutable v) :
    o.registered? c = none := by
  cases o with
  | registerImmutable v => exact absurd rfl (ho v)
  | _ => rfl

/-- The declarations for which operations reserve words, one for each registration that goes through. -/
def registrations (c : Context) : List ContextOperation → List NodeId
  | [] => []
  | o :: rest => (o.registered? c).toList ++ registrations (o.run c).2 rest

end ContextOperation

/-- The words reserved for these declarations lie one after the other. A declaration has the latest of its own. -/
structure Context.LaidOut (c : Context) (ids : List NodeId) : Prop where
  offset_iff : ∀ id offset, c.immutables.get? id = some offset ↔
    ∃ before after, ids = before ++ id :: after ∧ id ∉ after ∧ offset = 32 * before.length
  size_eq : ∀ size, c.reserved = some size → size = 32 * ids.length

section

variable {α : Type} {as : List α} {a b : α} {P : List α → Prop}

/-- The last occurrence of an element put behind a list is that one. -/
theorem exists_last_concat_self :
    (∃ before after, as ++ [a] = before ++ a :: after ∧ a ∉ after ∧ P before) ↔ P as := by
  constructor
  · rintro ⟨before, after, hsplit, hafter, hP⟩
    obtain rfl | ⟨after, last, rfl⟩ := after.eq_nil_or_concat
    · rwa [(List.append_inj' hsplit rfl).1]
    · rw [List.concat_eq_append, ← List.cons_append, ← List.append_assoc] at hsplit
      have hlast : [a] = [last] := (List.append_inj' hsplit rfl).2
      cases hlast
      simp at hafter
  · exact fun hP => ⟨as, [], rfl, List.not_mem_nil, hP⟩

/-- The last occurrence of an element is not moved by another one put behind the list. -/
theorem exists_last_concat_of_ne (hne : a ≠ b) :
    (∃ before after, as ++ [b] = before ++ a :: after ∧ a ∉ after ∧ P before) ↔
      ∃ before after, as = before ++ a :: after ∧ a ∉ after ∧ P before := by
  constructor
  · rintro ⟨before, after, hsplit, hafter, hP⟩
    obtain rfl | ⟨after, last, rfl⟩ := after.eq_nil_or_concat
    · have hlast : [b] = [a] := (List.append_inj' hsplit rfl).2
      cases hlast
      exact absurd rfl hne
    · rw [List.concat_eq_append, ← List.cons_append, ← List.append_assoc] at hsplit
      refine ⟨before, after, (List.append_inj' hsplit rfl).1, fun ha => hafter ?_, hP⟩
      simp [ha]
  · rintro ⟨before, after, rfl, hafter, hP⟩
    exact ⟨before, after ++ [b], by simp, by simp [hafter, hne], hP⟩

end

namespace Context.LaidOut

variable {c c' : Context} {ids : List NodeId}

/-- A fresh context has no immutables, and its memory for them is open. -/
theorem fresh (settings : Settings) : LaidOut { settings } [] := by
  refine ⟨fun id offset => iff_of_false nofun ?_, fun size h => ?_⟩
  · rintro ⟨before, after, hsplit, -⟩
    simp at hsplit
  · cases h
    rfl

/-- The layout depends only on the immutables and the reserved memory. -/
theorem congr (h : c.LaidOut ids) (himmutables : c'.immutables = c.immutables)
    (hreserved : c'.reserved = c.reserved ∨ c'.reserved = none) : c'.LaidOut ids := by
  refine ⟨fun id offset => himmutables ▸ h.offset_iff id offset, fun size hsize => ?_⟩
  obtain hsame | hnone := hreserved
  · exact h.size_eq size (hsame ▸ hsize)
  · cases hnone.symm.trans hsize

/-- One more word. -/
theorem register (h : c.LaidOut ids) {size : Nat} (hsize : c.reserved = some size) (id : NodeId) :
    LaidOut { c with reserved := some (size + 32), immutables := c.immutables.insert id size } (ids ++ [id]) := by
  have hlength : size = 32 * ids.length := h.size_eq size hsize
  refine ⟨fun id' offset => ?_, fun size' hsize' => ?_⟩
  · change (c.immutables.insert id size).get? id' = some offset ↔ _
    rw [SortedMap.get?_insert]
    by_cases hid : id' = id
    · subst hid
      rw [if_pos rfl, Option.some.injEq, exists_last_concat_self (P := fun before => offset = 32 * before.length),
        hlength, eq_comm]
    · rw [if_neg hid, h.offset_iff, exists_last_concat_of_ne hid (P := fun before => offset = 32 * before.length)]
  · cases hsize'
    rw [List.length_append, List.length_singleton, hlength]
    ring

/-- One more operation, which may fail. -/
theorem run (h : c.LaidOut ids) (hconsistent : c.table.Consistent) (o : ContextOperation) :
    (o.run c).2.LaidOut (ids ++ (o.registered? c).toList) := by
  by_cases ho : ∃ v, o = .registerImmutable v
  · obtain ⟨v, rfl⟩ := ho
    rw [ContextOperation.registered?, ContextOperation.run]
    cases hregister : c.registerImmutable v with
    | error fault =>
      rw [Contextual.change_of_error hregister]
      simpa [Except.toBool] using h
    | ok c' =>
      rw [Contextual.change_of_ok hregister]
      obtain ⟨-, -, size, hsize, rfl⟩ := registerImmutable_eq_ok_iff.1 hregister
      exact h.register hsize v.id
  · have hother : ∀ v, o ≠ .registerImmutable v := fun v hv => ho ⟨v, hv⟩
    obtain ⟨himmutables, hreserved⟩ := (becomes_run hconsistent o).layout hconsistent hother
    rw [ContextOperation.registered?_of_ne hother, Option.toList_none, List.append_nil]
    exact h.congr himmutables hreserved

/-- What holds after any run. -/
theorem runAll (h : c.LaidOut ids) (hconsistent : c.table.Consistent) (operations : List ContextOperation) :
    (ContextOperation.runAll c operations).LaidOut (ids ++ ContextOperation.registrations c operations) := by
  induction operations generalizing c ids with
  | nil =>
    rw [ContextOperation.registrations, List.append_nil]
    exact h
  | cons o rest ih =>
    rw [ContextOperation.registrations, ← List.append_assoc]
    exact ih (h.run hconsistent o) ((becomes_run hconsistent o).consistent hconsistent)

/-- The word of a declaration lies above those of earlier registrations. -/
theorem immutableOffset_iff (h : c.LaidOut ids) (v : Variable) (offset : Nat) :
    c.immutableOffset v = .ok offset ↔
      ∃ before after, ids = before ++ v.id :: after ∧ v.id ∉ after ∧
        offset = generalMemoryStart + 32 * before.length := by
  constructor
  · intro hoffset
    rw [immutableOffset] at hoffset
    split at hoffset
    next low hlow =>
      cases hoffset
      obtain ⟨before, after, hsplit, hafter, rfl⟩ := (h.offset_iff v.id low).1 hlow
      exact ⟨before, after, hsplit, hafter, rfl⟩
    next => cases hoffset
  · rintro ⟨before, after, hsplit, hafter, rfl⟩
    rw [immutableOffset, (h.offset_iff v.id _).2 ⟨before, after, hsplit, hafter, rfl⟩]

/-- Two declarations do not share a word. -/
theorem id_eq_of_immutableOffset_eq (h : c.LaidOut ids) {v w : Variable} {offset : Nat}
    (hv : c.immutableOffset v = .ok offset) (hw : c.immutableOffset w = .ok offset) : v.id = w.id := by
  obtain ⟨before, after, hsplit, -, rfl⟩ := (h.immutableOffset_iff v offset).1 hv
  obtain ⟨before', after', hsplit', -, hoffset⟩ := (h.immutableOffset_iff w _).1 hw
  have hlength : before.length = before'.length := by omega
  have htails : v.id :: after = w.id :: after' := (List.append_inj (hsplit.symm.trans hsplit') hlength).2
  exact (List.cons.inj htails).1

/-- A word stays where it is until its declaration is registered again. -/
theorem immutableOffset_eq_iff (h : c.LaidOut ids) {later : List NodeId} (h' : c'.LaidOut (ids ++ later)) {v : Variable}
    {offset : Nat} (hv : c.immutableOffset v = .ok offset) : c'.immutableOffset v = .ok offset ↔ v.id ∉ later := by
  obtain ⟨before, after, rfl, hafter, rfl⟩ := (h.immutableOffset_iff v offset).1 hv
  rw [h'.immutableOffset_iff]
  constructor
  · -- the word is the same, so it is the same registration that is the latest
    rintro ⟨before', after', hsplit, hafter', hoffset⟩
    have hlength : before.length = before'.length := by omega
    rw [List.append_assoc, List.cons_append] at hsplit
    obtain ⟨-, htails⟩ := List.append_inj hsplit hlength
    rw [← (List.cons.inj htails).2, List.mem_append, not_or] at hafter'
    exact hafter'.2
  · exact fun hlater => ⟨before, after ++ later, by simp, by simp [hafter, hlater], rfl⟩

/-- What is reserved is a word for each registration, and all words lie within. -/
theorem finalizeReserved (h : c.LaidOut ids) {size : Nat} (hfinalize : c.finalizeReserved = .ok (size, c')) :
    size = 32 * ids.length ∧ c' = { c with reserved := none } ∧
      ∀ v offset, c.immutableOffset v = .ok offset → offset + 32 ≤ generalMemoryStart + size := by
  rw [Context.finalizeReserved] at hfinalize
  split at hfinalize
  next reserved hreserved =>
    cases hfinalize
    refine ⟨h.size_eq size hreserved, rfl, fun v offset hv => ?_⟩
    obtain ⟨before, after, rfl, -, rfl⟩ := (h.immutableOffset_iff v offset).1 hv
    rw [h.size_eq size hreserved, List.length_append, List.length_cons]
    omega
  next => cases hfinalize

end Context.LaidOut

namespace Context

/-- Nothing opens the reservation again, and nothing is reserved meanwhile. -/
theorem closed_run {c : Context} (hconsistent : c.table.Consistent) (hclosed : c.reserved = none)
    (o : ContextOperation) : (o.run c).2.reserved = none ∧ o.registered? c = none := by
  by_cases ho : ∃ v, o = .registerImmutable v
  · obtain ⟨v, rfl⟩ := ho
    cases hregister : c.registerImmutable v with
    | error fault =>
      rw [ContextOperation.registered?, ContextOperation.run, Contextual.change_of_error hregister, hregister]
      exact ⟨hclosed, rfl⟩
    | ok c' =>
      obtain ⟨-, -, size, hsize, -⟩ := registerImmutable_eq_ok_iff.1 hregister
      cases hclosed.symm.trans hsize
  · have hother : ∀ v, o ≠ .registerImmutable v := fun v hv => ho ⟨v, hv⟩
    obtain ⟨-, hreserved⟩ := (becomes_run hconsistent o).layout hconsistent hother
    exact ⟨hreserved.elim (·.trans hclosed) id, ContextOperation.registered?_of_ne hother⟩

/-- Once the reserved memory is finalised no operation opens it, and none registers an immutable. -/
theorem closed_runAll {c : Context} (hconsistent : c.table.Consistent) (hclosed : c.reserved = none)
    (operations : List ContextOperation) :
    (ContextOperation.runAll c operations).reserved = none ∧ ContextOperation.registrations c operations = [] := by
  induction operations generalizing c with
  | nil => exact ⟨hclosed, rfl⟩
  | cons o rest ih =>
    obtain ⟨hfirst, hnone⟩ := closed_run hconsistent hclosed o
    obtain ⟨hrest, hnil⟩ := ih ((becomes_run hconsistent o).consistent hconsistent) hfirst
    refine ⟨hrest, ?_⟩
    rw [ContextOperation.registrations, hnone, hnil]
    rfl

end Context

namespace ContextOperation

/-- However a fresh context was used, failed operations included: `registerImmutable` lays the words of immutables one
after the other in the order of the registrations, and no two declarations share one. A word stays where it is if and
only if its declaration is not registered again. `finalizeReserved` closes the reservation once, with a word for each
registration, thus for each declaration if and only if none was registered twice; all words lie within, and nothing is
registered afterwards. -/
theorem immutableOffset_runAll (settings : Settings) (operations : List ContextOperation) :
    let c := runAll { settings } operations
    let ids := registrations { settings } operations
    (∀ v offset, c.immutableOffset v = .ok offset ↔
      ∃ before after, ids = before ++ v.id :: after ∧ v.id ∉ after ∧
        offset = generalMemoryStart + 32 * before.length) ∧
    (∀ v w offset, c.immutableOffset v = .ok offset → c.immutableOffset w = .ok offset → v.id = w.id) ∧
    (∀ v offset later, c.immutableOffset v = .ok offset →
      ((runAll c later).immutableOffset v = .ok offset ↔ v.id ∉ registrations c later)) ∧
    ∀ size c', c.finalizeReserved = .ok (size, c') →
      size = 32 * ids.length ∧ (size = 32 * ids.dedup.length ↔ ids.Nodup) ∧
      (∀ v offset, c.immutableOffset v = .ok offset → offset + 32 ≤ generalMemoryStart + size) ∧
      ∀ later, registrations c' later = [] ∧ ∀ result, (runAll c' later).finalizeReserved ≠ .ok result := by
  intro c ids
  have hfresh : Context.table { settings } |>.Consistent := by
    intro a members hmembers _
    cases hmembers
  have hlaid : c.LaidOut ids := (Context.LaidOut.fresh settings).runAll hfresh operations
  have hconsistent : c.table.Consistent := Context.consistent_runAll hfresh operations
  refine ⟨hlaid.immutableOffset_iff, fun v w offset => hlaid.id_eq_of_immutableOffset_eq,
    fun v offset later => hlaid.immutableOffset_eq_iff (hlaid.runAll hconsistent later), fun size c' hfinalize => ?_⟩
  obtain ⟨rfl, rfl, hwithin⟩ := hlaid.finalizeReserved hfinalize
  refine ⟨rfl, ?_, hwithin, fun later => ?_⟩
  · rw [Nat.mul_right_inj (by decide), ← List.dedup_eq_self]
    exact ⟨fun hlength => (List.dedup_sublist ids).eq_of_length hlength.symm, fun hdedup => by rw [hdedup]⟩
  · obtain ⟨hreserved, hnil⟩ := Context.closed_runAll (c := { c with reserved := none }) hconsistent rfl later
    refine ⟨hnil, fun result hresult => ?_⟩
    rw [Context.finalizeReserved, hreserved] at hresult
    cases hresult

/-- A declaration registered twice moves, and leaves a word behind that no declaration has. -/
theorem immutableOffset_registerTwice :
    let owner : Variable := { id := 1, name := "owner", type := .uint 256, mutability := .immutable }
    let once := runAll { settings := {} } [registerImmutable owner]
    let twice := runAll { settings := {} } [registerImmutable owner, registerImmutable owner]
    once.immutableOffset owner = .ok 128 ∧ twice.immutableOffset owner = .ok 160 ∧
      ∃ c', twice.finalizeReserved = .ok (64, c') :=
  ⟨rfl, rfl, _, rfl⟩

end ContextOperation

end YulBackend
