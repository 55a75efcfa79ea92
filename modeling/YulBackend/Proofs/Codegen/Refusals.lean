import YulBackend.Proofs.Codegen.ContextOperations

namespace YulBackend

/-- The uses that a context refuses, and why. -/
inductive Context.Refuses (c : Context) : ContextOperation → Fault → Prop
  | notClean {candidates : DispatchMap} (h : ¬ c.table.isClean) :
    Refuses c (.dispatch (.seed candidates)) (.violation .seedNotClean)
  | alreadyWaits {expression : NodeId} {f : Function} (h : c.table.pending.contains expression) :
    Refuses c (.dispatch (.collect expression f)) (.violation (.alreadyReferenced expression))
  | doesNotWait {expression : NodeId} (h : ¬ c.table.pending.contains expression) :
    Refuses c (.dispatch (.forget expression)) (.violation (.nothingToForget expression))
  | nothingQueued (h : c.queue.isEmpty) : Refuses c (.dispatch .dequeue) (.violation .queueEmpty)
  | queued {fixedPoint : FixedPoint} (h : ¬ c.queue.isEmpty) :
    Refuses c (.dispatch (.consume fixedPoint)) (.violation .functionsQueued)
  | pending {fixedPoint : FixedPoint} (hqueue : c.queue.isEmpty) (h : ¬ c.table.pending.isEmpty) :
    Refuses c (.dispatch (.consume fixedPoint)) (.violation .referencesPending)
  | notReady {fixedPoint : FixedPoint} (hqueue : c.queue.isEmpty) (hpending : c.table.pending.isEmpty)
    (h : c.table.phase ≠ .ready) :
    Refuses c (.dispatch (.consume fixedPoint)) (.violation .notAtFixedPoint)
  | noContract (h : c.mostDerived = none) : Refuses c .mostDerived (.violation .noContract)
  | boundTwice {v : Variable} (h : c.locals.contains v.id) :
    Refuses c (.bindLocal v) (.violation (.localBoundTwice v.name))
  | unknownLocal {v : Variable} (h : ¬ c.locals.contains v.id) :
    Refuses c (.localVariable v) (.violation (.unknownLocal v.name))
  | notImmutable {v : Variable} (h : v.mutability ≠ .immutable) :
    Refuses c (.registerImmutable v) (.violation (.notImmutable v.name))
  | notOneSlot {v : Variable} (hmutability : v.mutability = .immutable) (h : ¬ v.type.isSingleSlot) :
    Refuses c (.registerImmutable v) (.unsupported (.immutableType v.type))
  | closed {v : Variable} (hmutability : v.mutability = .immutable) (hslot : v.type.isSingleSlot)
    (h : c.reserved = none) :
    Refuses c (.registerImmutable v) (.violation .reservationClosed)
  | unknownImmutable {v : Variable} (h : ¬ c.immutables.contains v.id) :
    Refuses c (.immutableOffset v) (.violation (.unknownImmutable v.name))
  | closedTwice (h : c.reserved = none) : Refuses c .finalizeReserved (.violation .reservationClosedTwice)
  | unknownState {v : Variable} (h : ¬ c.stateVariables.contains v.id) :
    Refuses c (.storageLocation v) (.violation (.unknownStateVariable v.name))
  | request {r : CodeRequest} {fault : Fault} (h : r.Refused fault) : Refuses c (.generate r) fault
  | notReserved {name code : String} (h : c.collector.functions.get? name ≠ some none) :
    Refuses c (.define name code) (.violation (.definedWithoutReservation name))
  | reserved {name : String} (h : c.collector.functions.get? name = some none) :
    Refuses c .takeFunctions (.violation .takenWhileReserved)

/-- What a use can do to a context when it goes through. -/
inductive Context.Becomes (c : Context) : ContextOperation → Context → Prop
  | unchanged {o : ContextOperation} : Becomes c o c
  | dispatch (operation : DispatchOperation) : Becomes c (.dispatch operation) (c.operate operation)
  | mostDerived (contract : Contract) : Becomes c (.setMostDerived contract) { c with mostDerived := some contract }
  | locals {o : ContextOperation} (locals : SortedMap NodeId StackVariable) : Becomes c o { c with locals }
  | immutable {v : Variable} {reserved : Nat} (hmutability : v.mutability = .immutable) (hslot : v.type.isSingleSlot)
    (h : c.reserved = some reserved) :
    Becomes c (.registerImmutable v)
      { c with reserved := some (reserved + 32), immutables := c.immutables.insert v.id reserved }
  | finalized {reserved : Nat} (h : c.reserved = some reserved) :
    Becomes c .finalizeReserved { c with reserved := none }
  | state (v : Variable) (slot byte : Nat) : Becomes c (.registerState v slot byte) (c.registerState v slot byte)
  | temporary : Becomes c .newTemporary c.newTemporary.2
  | subObject (contract : Contract) : Becomes c (.addSubObject contract) (c.addSubObject contract)
  | collector {o : ContextOperation} (collector : Collector) : Becomes c o { c with collector }

/-- Run effect by effect, an operation leaves the context that it leaves in one step. -/
theorem DispatchOperation.run_snd (operation : DispatchOperation) (c : Context) :
    (operation.run c).2 = c.operate operation := by
  cases operation with
  | seed candidates =>
    rw [run, Contextual.change, Contextual.step, Context.operate]
    cases c.seedCandidates candidates <;> rfl
  | collect expression f =>
    rw [run, Contextual.silent, Contextual.step, Context.operate]
    cases c.collectReference expression f <;> rfl
  | forget expression =>
    rw [run, Contextual.change, Contextual.step, Context.operate]
    cases c.forgetReference expression <;> rfl
  | dequeue =>
    rw [run, Contextual.silent, Contextual.step, Context.operate]
    cases c.dequeue <;> rfl
  | promote =>
    rw [run, Contextual.silent, Contextual.step, Context.operate]
    cases c.promoteReferences <;> rfl
  | consume fixedPoint =>
    rw [run, Contextual.silent, Contextual.step, Context.operate]
    cases c.consumeDispatch fixedPoint <;> rfl
  | _ => rfl

namespace Contextual

variable {α : Type} {c c' : Context} {a : α} {fault : Fault}

theorem silent_step_of_ok {f : Context → Except Fault (α × Context)} (h : f c = .ok (a, c')) :
    silent (step f) c = (.ok (), c') := by
  rw [silent, step, h]
  rfl

theorem silent_step_of_error {f : Context → Except Fault (α × Context)} (h : f c = .error fault) :
    silent (step f) c = (.error fault, c) := by
  rw [silent, step, h]
  rfl

theorem change_of_ok {f : Context → Except Fault Context} (h : f c = .ok c') : change f c = (.ok (), c') := by
  rw [change, step, h]
  rfl

theorem change_of_error {f : Context → Except Fault Context} (h : f c = .error fault) :
    change f c = (.error fault, c) := by
  rw [change, step, h]
  rfl

theorem silent_ask_of_ok {f : Context → Except Fault α} (h : f c = .ok a) : silent (ask f) c = (.ok (), c) := by
  rw [silent, ask, h]
  rfl

theorem silent_ask_of_error {f : Context → Except Fault α} (h : f c = .error fault) :
    silent (ask f) c = (.error fault, c) := by
  rw [silent, ask, h]
  rfl

end Contextual

namespace Context

variable {c : Context} {o : ContextOperation} {fault : Fault}

/-- What is refused changes nothing. -/
theorem Refuses.run_eq (h : c.Refuses o fault) : o.run c = (.error fault, c) := by
  cases h with
  | notClean h =>
    rw [ContextOperation.run, DispatchOperation.run]
    refine Contextual.change_of_error ?_
    rw [seedCandidates, DispatchTable.seed, if_neg h]
    rfl
  | alreadyWaits h =>
    refine Contextual.silent_step_of_error ?_
    rw [collectReference, DispatchTable.collect, if_pos h]
    rfl
  | doesNotWait h =>
    rw [ContextOperation.run, DispatchOperation.run]
    refine Contextual.change_of_error ?_
    rw [forgetReference, DispatchTable.forget, if_neg h]
    rfl
  | nothingQueued h =>
    refine Contextual.silent_step_of_error ?_
    rw [dequeue, List.isEmpty_iff.1 h]
  | queued h =>
    refine Contextual.silent_step_of_error ?_
    rw [consumeDispatch, if_neg h]
    rfl
  | pending hqueue h =>
    refine Contextual.silent_step_of_error ?_
    rw [consumeDispatch, if_pos hqueue, DispatchTable.consume, if_pos (by simpa using h)]
    rfl
  | notReady hqueue hpending h =>
    refine Contextual.silent_step_of_error ?_
    rw [consumeDispatch, if_pos hqueue, DispatchTable.consume, if_neg (by simpa using hpending), if_pos h]
    rfl
  | noContract h =>
    refine Contextual.silent_ask_of_error ?_
    rw [contract, h]
  | boundTwice h => exact Contextual.silent_step_of_error (if_pos h)
  | unknownLocal h =>
    refine Contextual.silent_ask_of_error ?_
    rw [localVariable, Option.not_isSome_iff_eq_none.1 h]
  | notImmutable h => exact Contextual.change_of_error (if_pos h)
  | notOneSlot hmutability h =>
    refine Contextual.change_of_error ?_
    rw [registerImmutable, if_neg (not_not_intro hmutability), SourceType.not_isSingleSlot, if_pos (by simpa using h)]
  | closed hmutability hslot h =>
    refine Contextual.change_of_error ?_
    rw [registerImmutable, if_neg (not_not_intro hmutability), SourceType.not_isSingleSlot,
      if_neg (by simpa using hslot), h]
  | unknownImmutable h =>
    refine Contextual.silent_ask_of_error ?_
    rw [immutableOffset, Option.not_isSome_iff_eq_none.1 h]
  | closedTwice h =>
    refine Contextual.silent_step_of_error ?_
    rw [finalizeReserved, h]
  | unknownState h =>
    refine Contextual.silent_ask_of_error ?_
    rw [storageLocation, Option.not_isSome_iff_eq_none.1 h]
  | @request r _ h =>
    have hrun : r.run c = (.error fault, c) := by rw [CodeRequest.run_apply, h.work_eq]
    rw [ContextOperation.run, Contextual.silent, hrun]
    rfl
  | @notReserved name code h =>
    have hdefine : c.collector.define name code = .error (.violation (.definedWithoutReservation name)) := by
      rw [Collector.define]
      split
      next hreserved => exact absurd hreserved h
      next => rfl
    rw [ContextOperation.run, Contextual.define, Contextual.step, hdefine]
    rfl
  | @reserved name h =>
    refine Contextual.silent_step_of_error ?_
    have hunfinished : ¬ c.collector.functions.values.all Option.isSome := fun hall =>
      absurd (List.all_eq_true.1 hall none ((c.collector.functions.mem_values_iff).2 ⟨name, h⟩)) Bool.false_ne_true
    rw [Collector.take, if_neg hunfinished]
    rfl

/-- What a use for pointers to functions does, or why it is refused. -/
theorem dispatch_run_cases (hconsistent : c.table.Consistent) (operation : DispatchOperation) :
    (∃ c', operation.run c = (.ok (), c')) ∨ ∃ fault, c.Refuses (.dispatch operation) fault := by
  cases operation with
  | seed candidates =>
    by_cases h : c.table.isClean
    · obtain ⟨c', hseed⟩ := c.exists_seedCandidates_eq_ok_iff.2 h
      exact .inl ⟨c', Contextual.change_of_ok hseed⟩
    · exact .inr ⟨_, .notClean h⟩
  | collect expression f =>
    by_cases h : c.table.pending.contains expression
    · exact .inr ⟨_, .alreadyWaits h⟩
    · obtain ⟨⟨name, c'⟩, hcollect⟩ := c.exists_collectReference_eq_ok_iff.2 (Bool.eq_false_iff.2 h)
      exact .inl ⟨c', Contextual.silent_step_of_ok hcollect⟩
  | forget expression =>
    by_cases h : c.table.pending.contains expression
    · obtain ⟨c', hforget⟩ := c.exists_forgetReference_eq_ok_iff.2 h
      exact .inl ⟨c', Contextual.change_of_ok hforget⟩
    · exact .inr ⟨_, .doesNotWait h⟩
  | register arity => exact .inl ⟨_, rfl⟩
  | enqueue f => exact .inl ⟨_, rfl⟩
  | dequeue =>
    cases h : c.queue.entries with
    | nil => exact .inr ⟨_, .nothingQueued (List.isEmpty_iff.2 h)⟩
    | cons e rest => exact .inl ⟨_, Contextual.silent_step_of_ok (by rw [dequeue, h])⟩
  | promote =>
    obtain ⟨token, c', hpromote, -⟩ := exists_promoteReferences_eq_ok hconsistent
    exact .inl ⟨c', Contextual.silent_step_of_ok hpromote⟩
  | consume fixedPoint =>
    by_cases hqueue : c.queue.isEmpty
    · by_cases hpending : c.table.pending.isEmpty
      · by_cases hphase : c.table.phase = .ready
        · exact .inl ⟨_, Contextual.silent_step_of_ok (c.consumeDispatch_eq_ok_of hqueue hpending hphase fixedPoint)⟩
        · exact .inr ⟨_, .notReady hqueue hpending hphase⟩
      · exact .inr ⟨_, .pending hqueue hpending⟩
    · exact .inr ⟨_, .queued hqueue⟩

/-- An immutable of one slot takes the next word, as long as the reservation is open. -/
theorem registerImmutable_eq_ok_iff {v : Variable} {c' : Context} :
    c.registerImmutable v = .ok c' ↔ v.mutability = .immutable ∧ v.type.isSingleSlot ∧
      ∃ reserved, c.reserved = some reserved ∧
        c' = { c with reserved := some (reserved + 32), immutables := c.immutables.insert v.id reserved } := by
  rw [registerImmutable, SourceType.not_isSingleSlot]
  by_cases hmutability : v.mutability = .immutable
  · by_cases hslot : v.type.isSingleSlot
    · cases h : c.reserved <;> simp [hmutability, hslot, SourceType.headSize, eq_comm]
    · simp [hmutability, hslot]
  · simp [hmutability]

/-- A use goes through, or it is refused. Anyone's own function may fail in any way; a promotion goes through as long
as no arity with candidates has members. -/
theorem run_cases (hconsistent : c.table.Consistent) (ho : ∀ name creator, o ≠ .create name creator) :
    (∃ c', o.run c = (.ok (), c') ∧ c.Becomes o c') ∨ ∃ fault, c.Refuses o fault := by
  cases o with
  | dispatch operation =>
    obtain ⟨c', hrun⟩ | hrefused := dispatch_run_cases hconsistent operation
    · refine .inl ⟨c', hrun, ?_⟩
      have hoperate : c' = c.operate operation := by rw [← operation.run_snd, hrun]
      exact hoperate ▸ .dispatch operation
    · exact .inr hrefused
  | setMostDerived contract => exact .inl ⟨_, rfl, .mostDerived contract⟩
  | mostDerived =>
    cases h : c.mostDerived with
    | none => exact .inr ⟨_, .noContract h⟩
    | some contract => exact .inl ⟨c, Contextual.silent_ask_of_ok (by rw [Context.contract, h]), .unchanged⟩
  | bindLocal v =>
    by_cases h : c.locals.contains v.id
    · exact .inr ⟨_, .boundTwice h⟩
    · exact .inl ⟨_, Contextual.silent_step_of_ok (if_neg h), .locals _⟩
  | localVariable v =>
    cases h : c.locals.get? v.id with
    | none => exact .inr ⟨_, .unknownLocal (Option.not_isSome_iff_eq_none.2 h)⟩
    | some bound => exact .inl ⟨c, Contextual.silent_ask_of_ok (by rw [Context.localVariable, h]), .unchanged⟩
  | clearLocals => exact .inl ⟨_, rfl, .locals _⟩
  | registerImmutable v =>
    by_cases hmutability : v.mutability = .immutable
    · by_cases hslot : v.type.isSingleSlot
      · cases h : c.reserved with
        | none => exact .inr ⟨_, .closed hmutability hslot h⟩
        | some reserved =>
          have hok := registerImmutable_eq_ok_iff.2 ⟨hmutability, hslot, reserved, h, rfl⟩
          exact .inl ⟨_, Contextual.change_of_ok hok, .immutable hmutability hslot h⟩
      · exact .inr ⟨_, .notOneSlot hmutability hslot⟩
    · exact .inr ⟨_, .notImmutable hmutability⟩
  | immutableOffset v =>
    cases h : c.immutables.get? v.id with
    | none => exact .inr ⟨_, .unknownImmutable (Option.not_isSome_iff_eq_none.2 h)⟩
    | some offset => exact .inl ⟨c, Contextual.silent_ask_of_ok (by rw [Context.immutableOffset, h]), .unchanged⟩
  | finalizeReserved =>
    cases h : c.reserved with
    | none => exact .inr ⟨_, .closedTwice h⟩
    | some reserved =>
      exact .inl ⟨_, Contextual.silent_step_of_ok (by rw [Context.finalizeReserved, h]), .finalized h⟩
  | registerState v slot byte => exact .inl ⟨_, rfl, .state v slot byte⟩
  | storageLocation v =>
    cases h : c.stateVariables.get? v.id with
    | none => exact .inr ⟨_, .unknownState (Option.not_isSome_iff_eq_none.2 h)⟩
    | some location => exact .inl ⟨c, Contextual.silent_ask_of_ok (by rw [Context.storageLocation, h]), .unchanged⟩
  | newTemporary => exact .inl ⟨_, rfl, .temporary⟩
  | addSubObject contract => exact .inl ⟨_, rfl, .subObject contract⟩
  | generate r =>
    obtain ⟨name, collector, hrun⟩ | ⟨fault, hrefused⟩ := r.run_cases c
    · refine .inl ⟨_, ?_, .collector collector⟩
      rw [ContextOperation.run, Contextual.silent, hrun]
      rfl
    · exact .inr ⟨fault, .request hrefused⟩
  | reserve name =>
    refine .inl ⟨_, rfl, ?_⟩
    rw [Contextual.reserve, Contextual.perform]
    cases c.collector.reserve? name with
    | none => exact .unchanged
    | some collector => exact .collector collector
  | define name code =>
    by_cases h : c.collector.functions.get? name = some none
    · refine .inl ⟨_, ?_, .collector ⟨c.collector.functions.insert name (some code)⟩⟩
      rw [ContextOperation.run, Contextual.define, Contextual.step, Collector.define, h]
      rfl
    · exact .inr ⟨_, .notReserved h⟩
  | release name => exact .inl ⟨_, rfl, .collector _⟩
  | takeFunctions =>
    by_cases h : c.collector.functions.values.all Option.isSome
    · refine .inl ⟨_, ?_, .collector {}⟩
      rw [ContextOperation.run, Contextual.silent, Contextual.takeFunctions, Contextual.step, Collector.take, if_pos h]
      rfl
    · obtain ⟨name, hname⟩ : ∃ name, c.collector.functions.get? name = some none := by
        simpa [SortedMap.mem_values_iff] using h
      exact .inr ⟨_, .reserved hname⟩
  | create name creator => exact absurd rfl (ho name creator)

/-- A use fails if and only if it is refused. -/
theorem run_eq_error_iff_refuses (hconsistent : c.table.Consistent) (ho : ∀ name creator, o ≠ .create name creator)
    {c' : Context} : o.run c = (.error fault, c') ↔ c.Refuses o fault ∧ c' = c := by
  constructor
  · intro h
    obtain ⟨c'', hok, -⟩ | ⟨fault', hrefused⟩ := run_cases hconsistent ho
    · cases hok.symm.trans h
    · cases hrefused.run_eq.symm.trans h
      exact ⟨hrefused, rfl⟩
  · rintro ⟨hrefused, rfl⟩
    exact hrefused.run_eq

/-- On consistent tables an operation becomes what its description says, or fails and changes nothing. -/
theorem becomes_run (hconsistent : c.table.Consistent) (o : ContextOperation) : c.Becomes o (o.run c).2 := by
  by_cases ho : ∃ name creator, o = .create name creator
  · obtain ⟨name, creator, rfl⟩ := ho
    exact .collector _
  · obtain ⟨c', hok, hbecomes⟩ | ⟨fault, hrefused⟩ :=
      run_cases hconsistent fun name creator h => ho ⟨name, creator, h⟩
    · rwa [hok]
    · rw [hrefused.run_eq]
      exact .unchanged

/-- Whatever an operation makes of the context, the tables stay consistent. -/
theorem Becomes.consistent {c' : Context} (h : c.Becomes o c') (hconsistent : c.table.Consistent) :
    c'.table.Consistent := by
  cases h with
  | dispatch operation => exact consistent_operate hconsistent operation
  | _ => exact hconsistent

/-- Any operations, run effect by effect, keep the tables consistent. -/
theorem consistent_runAll (hconsistent : c.table.Consistent) (operations : List ContextOperation) :
    (ContextOperation.runAll c operations).table.Consistent := by
  induction operations generalizing c with
  | nil => exact hconsistent
  | cons o rest ih => exact ih ((becomes_run hconsistent o).consistent hconsistent)

end Context

namespace ContextOperation

/-- Whatever was done with a context before, failed uses among it, an operation run effect by effect is refused for one
of the listed reasons only, and leaves the context as it was then, although some of its parts are changed before they
are checked. -/
theorem effects_eq_error_iff (settings : Settings) (operations : List ContextOperation) {o : ContextOperation}
    (ho : ∀ name creator, o ≠ create name creator) (fault : Fault) (c' : Context) :
    let c := runAll { settings } operations
    o.effects = o.run ∧ (o.effects c = (.error fault, c') ↔ c.Refuses o fault ∧ c' = c) := by
  intro c
  have hconsistent : c.table.Consistent := by
    refine Context.consistent_runAll (fun a members hmembers _ => ?_) operations
    cases hmembers
  refine ⟨o.effects_eq, ?_⟩
  rw [o.effects_eq]
  exact Context.run_eq_error_iff_refuses hconsistent ho

/-- A reference is dropped twice. -/
theorem effects_eq_error_iff_forget :
    let pointed : Function := { id := 3, name := "pointed" }
    let c := runAll { settings := {} } [dispatch (.collect 7 pointed), newTemporary, dispatch (.forget 7)]
    (∀ name creator, dispatch (.forget 7) ≠ create name creator) ∧
      (dispatch (.forget 7)).effects c = (.error (.violation (.nothingToForget 7)), c) :=
  have hcreate : ∀ name creator, dispatch (.forget 7) ≠ create name creator := fun _ _ h => by cases h
  ⟨hcreate, (effects_eq_error_iff {} _ hcreate _ _).2.2 ⟨.doesNotWait nofun, rfl⟩⟩

end ContextOperation

end YulBackend
