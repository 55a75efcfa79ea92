import YulBackend.Codegen.Context
import YulBackend.Proofs.Codegen.Promotion

namespace YulBackend

/-- One use of a context for pointers to functions. -/
inductive DispatchOperation
  | seed (candidates : DispatchMap)
  | collect (expression : NodeId) (f : Function)
  | forget (expression : NodeId)
  | register (arity : Arity)
  | enqueue (f : Function)
  | dequeue
  | promote
  | consume (fixedPoint : FixedPoint)

namespace Context

/-- The context after a step that may fail. A step that fails changes nothing. -/
def settled {α : Type} (c : Context) : Except Fault (α × Context) → Context
  | .ok (_, c') => c'
  | .error _ => c

/-- The context after an operation, whether or not it succeeds. -/
def operate (c : Context) : DispatchOperation → Context
  | .seed candidates => (c.seedCandidates candidates).toOption.getD c
  | .collect expression f => c.settled (c.collectReference expression f)
  | .forget expression => (c.forgetReference expression).toOption.getD c
  | .register arity => (c.registerDispatch arity).2
  | .enqueue f => (c.enqueue f).2
  | .dequeue => c.settled c.dequeue
  | .promote => c.settled c.promoteReferences
  | .consume fixedPoint => c.settled (c.consumeDispatch fixedPoint)

/-- The context after operations, one after the other. -/
def operateAll (c : Context) (operations : List DispatchOperation) : Context :=
  operations.foldl operate c

/-- Queues functions one after the other. -/
def enqueueAll (c : Context) (functions : List Function) : Context :=
  functions.foldl (fun c f => (c.enqueue f).2) c

/-- The context in which a promotion has queued what became dispatchable. -/
def promoted (c : Context) : Context :=
  enqueueAll { c with table := c.table.promoted } c.table.gained

section

variable (c : Context)

/-- Seeding takes place on clean tables only. -/
theorem operate_seed (candidates : DispatchMap) :
    c.operate (.seed candidates) =
      if c.table.isClean then
        { c with table :=
          if candidates.isEmpty then { c.table with candidates }
          else { c.table with candidates, phase := .collecting } }
      else c := by
  rw [operate, seedCandidates, DispatchTable.seed]
  split
  · split <;> rfl
  · rfl

theorem operate_collect (expression : NodeId) (f : Function) :
    c.operate (.collect expression f) =
      if c.table.pending.contains expression then c
      else { c with table :=
        { c.table with pending := c.table.pending.insert expression f, phase := .collecting } } := by
  rw [operate, collectReference, DispatchTable.collect]
  split <;> rfl

theorem operate_forget (expression : NodeId) :
    c.operate (.forget expression) =
      if c.table.pending.contains expression then
        { c with table :=
          { c.table with pending := c.table.pending.erase expression, phase := .collecting } }
      else c := by
  rw [operate, forgetReference, DispatchTable.forget]
  split <;> rfl

theorem operate_register (arity : Arity) :
    c.operate (.register arity) =
      if c.table.dispatch.contains arity then c
      else { c with table :=
        { c.table with dispatch := c.table.dispatch.insert arity .empty, phase := .collecting } } := by
  rw [operate, registerDispatch, DispatchTable.register]
  split <;> rfl

@[simp]
theorem table_operate_dequeue : (c.operate .dequeue).table = c.table := by
  rw [operate, dequeue]
  split <;> rfl

section

variable (expression : NodeId) (f : Function)

@[simp]
theorem dispatch_operate_collect :
    (c.operate (.collect expression f)).table.dispatch = c.table.dispatch := by
  rw [operate_collect]
  split <;> rfl

@[simp]
theorem candidates_operate_collect :
    (c.operate (.collect expression f)).table.candidates = c.table.candidates := by
  rw [operate_collect]
  split <;> rfl

/-- Of two references that an expression makes the first stays. -/
theorem pending_operate_collect :
    (c.operate (.collect expression f)).table.pending = c.table.pending.insertIfNew expression f := by
  rw [operate_collect]
  split
  next hold => exact (SortedMap.insertIfNew_of_contains hold f).symm
  next hnew =>
    have hnone : c.table.pending.get? expression = none := by simpa [SortedMap.contains] using hnew
    refine SortedMap.ext_get? fun e => ?_
    rw [SortedMap.get?_insert, SortedMap.get?_insertIfNew, hnone, Option.getD_none]

@[simp]
theorem dispatch_operate_forget :
    (c.operate (.forget expression)).table.dispatch = c.table.dispatch := by
  rw [operate_forget]
  split <;> rfl

@[simp]
theorem candidates_operate_forget :
    (c.operate (.forget expression)).table.candidates = c.table.candidates := by
  rw [operate_forget]
  split <;> rfl

/-- Forgetting leaves nothing pending under the expression. -/
theorem pending_operate_forget :
    (c.operate (.forget expression)).table.pending = c.table.pending.erase expression := by
  rw [operate_forget]
  split
  next => rfl
  next hnew =>
    have hnone : c.table.pending.get? expression = none := by simpa [SortedMap.contains] using hnew
    refine SortedMap.ext_get? fun e => ?_
    rw [SortedMap.get?_erase]
    split
    next he => rw [he, hnone]
    next => rfl

end

/-- Candidates can be seeded when the tables are clean. -/
theorem exists_seedCandidates_eq_ok_iff {candidates : DispatchMap} :
    (∃ c', c.seedCandidates candidates = .ok c') ↔ c.table.isClean := by
  rw [seedCandidates, DispatchTable.seed]
  split
  next hclean => exact iff_of_true ⟨_, rfl⟩ hclean
  next hclean =>
    refine iff_of_false ?_ hclean
    rintro ⟨_, h⟩
    cases h

/-- A reference can be collected when its expression has none pending. -/
theorem exists_collectReference_eq_ok_iff {expression : NodeId} {f : Function} :
    (∃ result, c.collectReference expression f = .ok result) ↔
      c.table.pending.contains expression = false := by
  rw [collectReference, DispatchTable.collect]
  split
  next hold =>
    refine iff_of_false ?_ (by simp [hold])
    rintro ⟨_, h⟩
    cases h
  next hnew => exact iff_of_true ⟨_, rfl⟩ (Bool.eq_false_iff.2 hnew)

/-- A reference can be forgotten when its expression has one pending. -/
theorem exists_forgetReference_eq_ok_iff {expression : NodeId} :
    (∃ c', c.forgetReference expression = .ok c') ↔ c.table.pending.contains expression := by
  rw [forgetReference, DispatchTable.forget]
  split
  next hold => exact iff_of_true ⟨_, rfl⟩ hold
  next hnew =>
    refine iff_of_false ?_ hnew
    rintro ⟨_, h⟩
    cases h

/-- The maps are handed out if nothing is queued, no reference waits, and the phase says that they are complete. -/
theorem consumeDispatch_eq_ok_of (hqueue : c.queue.isEmpty) (hpending : c.table.pending.isEmpty)
    (hphase : c.table.phase = .ready) (evidence : FixedPoint) :
    c.consumeDispatch evidence =
      .ok ((c.table.dispatch, c.table.candidates), { c with table := {} }) := by
  rw [consumeDispatch, if_pos hqueue, DispatchTable.consume, hpending, hphase]
  rfl

/-- Consuming fails as a violation unless nothing is queued or pending and the phase is ready. -/
theorem exists_consumeDispatch_eq_error
    (h : ¬ (c.queue.isEmpty ∧ c.table.pending.isEmpty ∧ c.table.phase = .ready))
    (evidence : FixedPoint) : ∃ cause, c.consumeDispatch evidence = .error (.violation cause) := by
  rw [consumeDispatch]
  split
  next hqueue =>
    rw [DispatchTable.consume]
    split
    · exact ⟨_, rfl⟩
    next hpending =>
      split
      · exact ⟨_, rfl⟩
      next hphase =>
        refine absurd ⟨hqueue, ?_, Decidable.not_not.1 hphase⟩ h
        simpa using hpending
  next => exact ⟨_, rfl⟩

/-- Consuming succeeds when nothing is queued or pending and the phase is ready. -/
theorem consumeDispatch_eq_ok_iff (evidence : FixedPoint) :
    (∃ maps c', c.consumeDispatch evidence = .ok (maps, c')) ↔
      c.queue.isEmpty ∧ c.table.pending.isEmpty ∧ c.table.phase = .ready := by
  refine ⟨fun ⟨maps, c', hok⟩ => Decidable.byContradiction fun h => ?_, fun h => ?_⟩
  · obtain ⟨cause, herror⟩ := c.exists_consumeDispatch_eq_error h evidence
    rw [hok] at herror
    cases herror
  · exact ⟨_, _, c.consumeDispatch_eq_ok_of h.1 h.2.1 h.2.2 evidence⟩

/-- Consuming changes the phase where it succeeds, and else nothing. -/
theorem operate_consume (evidence : FixedPoint) :
    c.operate (.consume evidence) =
      if c.queue.isEmpty ∧ c.table.pending.isEmpty ∧ c.table.phase = .ready then
        { c with table := {} }
      else c := by
  split
  next h =>
    rw [operate, c.consumeDispatch_eq_ok_of h.1 h.2.1 h.2.2]
    rfl
  next h =>
    obtain ⟨cause, herror⟩ := c.exists_consumeDispatch_eq_error h evidence
    rw [operate, herror]
    rfl

end

/-- Once the maps are handed out the table starts over. -/
theorem table_of_consumeDispatch_eq_ok {c c' : Context} {evidence : FixedPoint}
    {maps : DispatchMap × DispatchMap} (h : c.consumeDispatch evidence = .ok (maps, c')) :
    c'.table = {} := by
  obtain ⟨hqueue, hpending, hphase⟩ := (c.consumeDispatch_eq_ok_iff evidence).1 ⟨maps, c', h⟩
  rw [c.consumeDispatch_eq_ok_of hqueue hpending hphase] at h
  cases h
  rfl

end Context

/-- Two tables that differ at most in whether work was recorded. -/
structure DispatchTable.SameMaps (t t' : DispatchTable) : Prop where
  dispatch : t'.dispatch = t.dispatch
  candidates : t'.candidates = t.candidates
  pending : t'.pending = t.pending

namespace DispatchTable.SameMaps

variable {t t' t'' : DispatchTable}

theorem refl : SameMaps t t := ⟨rfl, rfl, rfl⟩

theorem touch (h : SameMaps t t') : SameMaps t t'.touch := ⟨h.dispatch, h.candidates, h.pending⟩

theorem consistent (h : SameMaps t t') (ht : t.Consistent) : t'.Consistent := by
  intro a members hmembers hcandidates
  rw [h.dispatch] at hmembers
  rw [h.candidates] at hcandidates
  exact ht a members hmembers hcandidates

theorem partitioned (h : SameMaps t t') (ht : t.Partitioned) : t'.Partitioned := by
  intro a ha
  rw [h.dispatch] at ha
  rw [h.candidates]
  exact ht a ha

end DispatchTable.SameMaps

namespace Context

theorem sameMaps_enqueue (c : Context) (f : Function) :
    c.table.SameMaps (c.enqueue f).2.table := by
  rw [enqueue]
  split
  · exact .refl
  · exact .touch .refl

theorem enqueueAll_cons (c : Context) (f : Function) (rest : List Function) :
    c.enqueueAll (f :: rest) = (c.enqueue f).2.enqueueAll rest := rfl

/-- Queueing functions changes no map. -/
theorem sameMaps_enqueueAll (c : Context) (functions : List Function) :
    c.table.SameMaps (c.enqueueAll functions).table := by
  induction functions generalizing c with
  | nil => exact .refl
  | cons f rest ih =>
    have hfirst := c.sameMaps_enqueue f
    have hrest := ih (c.enqueue f).2
    exact ⟨hrest.dispatch.trans hfirst.dispatch, hrest.candidates.trans hfirst.candidates,
      hrest.pending.trans hfirst.pending⟩

/-- A promotion succeeds from every consistent table. It gives evidence that the maps are complete if and
only if nothing is queued afterwards. -/
theorem promoteReferences_eq_ok {c : Context} (h : c.table.Consistent) :
    c.promoteReferences = .ok (if c.promoted.queue.isEmpty then
      (some c.promoted.table.markReady.1,
        { c.promoted with table := c.promoted.table.markReady.2 })
      else (none, c.promoted)) := by
  rw [promoteReferences, DispatchTable.promote_eq_ok h]
  simp only [bind, Except.bind]
  change (if c.promoted.queue.isEmpty then _ else _) = _
  split <;> rfl

/-- On consistent tables promotion succeeds; the tables become ready when it leaves nothing queued. -/
theorem operate_promote {c : Context} (h : c.table.Consistent) :
    c.operate .promote =
      if c.promoted.queue.isEmpty then
        { c.promoted with table := { c.promoted.table with phase := .ready } }
      else c.promoted := by
  rw [operate, promoteReferences_eq_ok h]
  split <;> rfl

/-- On consistent tables the operation promotes the maps as `promoted` says. -/
theorem sameMaps_operate_promote {c : Context} (h : c.table.Consistent) :
    c.table.promoted.SameMaps (c.operate .promote).table := by
  obtain ⟨hdispatch, hcandidates, hpending⟩ :=
    sameMaps_enqueueAll { c with table := c.table.promoted } c.table.gained
  rw [operate_promote h]
  split <;> exact ⟨hdispatch, hcandidates, hpending⟩

theorem partitioned_promoted (c : Context) : c.promoted.table.Partitioned :=
  (sameMaps_enqueueAll _ _).partitioned c.table.partitioned_promoted

theorem pending_promoted (c : Context) : c.promoted.table.pending = .empty :=
  (sameMaps_enqueueAll _ _).pending.trans c.table.pending_promoted

/-- After a promotion no arity is in both maps and no reference waits. -/
theorem exists_promoteReferences_eq_ok {c : Context} (h : c.table.Consistent) :
    ∃ token c', c.promoteReferences = .ok (token, c') ∧ c'.table.Partitioned ∧
      c'.table.pending.isEmpty := by
  rw [promoteReferences_eq_ok h]
  split
  · refine ⟨_, _, rfl, c.partitioned_promoted, ?_⟩
    change c.promoted.table.pending.isEmpty
    rw [c.pending_promoted]
    rfl
  · refine ⟨_, _, rfl, c.partitioned_promoted, ?_⟩
    rw [c.pending_promoted]
    rfl

/-- Seeded tables are consistent. -/
theorem consistent_seed {t t' : DispatchTable} {candidates : DispatchMap}
    (hseed : t.seed candidates = .ok t') : t'.Consistent := by
  rw [DispatchTable.seed] at hseed
  split at hseed
  next hclean =>
    have hdispatch : t'.dispatch = t.dispatch := by
      cases hseed
      split <;> rfl
    intro a members hmembers _
    rw [DispatchTable.isClean, Bool.and_eq_true, Bool.and_eq_true] at hclean
    rw [hdispatch, t.dispatch.isEmpty_iff.1 hclean.1.1 a] at hmembers
    cases hmembers
  next => cases hseed

/-- Registering an arity keeps tables consistent: a new dispatcher is empty. -/
theorem consistent_register {t : DispatchTable} (h : t.Consistent) (arity : Arity) :
    (t.register arity).Consistent := by
  rw [DispatchTable.register]
  split
  · exact h
  · intro a members hmembers hcandidates
    change (t.dispatch.insert arity .empty).get? a = some members at hmembers
    rw [SortedMap.get?_insert] at hmembers
    split at hmembers
    · cases hmembers
      rfl
    · exact h a members hmembers hcandidates

/-- Every operation keeps the tables consistent, failed ones included. -/
theorem consistent_operate {c : Context} (h : c.table.Consistent) (operation : DispatchOperation) :
    (c.operate operation).table.Consistent := by
  cases operation with
  | seed candidates =>
    rw [operate, seedCandidates]
    cases hseed : c.table.seed candidates with
    | error fault => exact h
    | ok t => exact consistent_seed hseed
  | collect expression f =>
    rw [operate_collect]
    split <;> exact h
  | forget expression =>
    rw [operate_forget]
    split <;> exact h
  | register arity => exact consistent_register h arity
  | enqueue f => exact (c.sameMaps_enqueue f).consistent h
  | dequeue =>
    rw [table_operate_dequeue]
    exact h
  | promote =>
    exact (sameMaps_operate_promote h).consistent c.table.partitioned_promoted.consistent
  | consume fixedPoint =>
    rw [operate_consume]
    split
    · intro a members hmembers _
      cases hmembers
    · exact h

theorem consistent_operateAll {c : Context} (h : c.table.Consistent)
    (operations : List DispatchOperation) : (c.operateAll operations).table.Consistent := by
  induction operations generalizing c with
  | nil => exact h
  | cons operation rest ih => exact ih (consistent_operate h operation)

/-- However a fresh context was used, failed operations included, `promoteReferences` succeeds: an arity with
candidates has no members in the dispatch map by then, and right after it no arity is in both maps and no reference
waits. -/
theorem promoteReferences_operateAll (settings : Settings) (operations : List DispatchOperation) :
    let c := operateAll { settings } operations
    c.table.Consistent ∧
      ∃ token c', c.promoteReferences = .ok (token, c') ∧ c'.table.Partitioned ∧
        c'.table.pending.isEmpty := by
  have hconsistent : (operateAll { settings } operations).table.Consistent := by
    refine consistent_operateAll (fun a members hmembers _ => ?_) operations
    cases hmembers
  exact ⟨hconsistent, exists_promoteReferences_eq_ok hconsistent⟩

end Context

end YulBackend
