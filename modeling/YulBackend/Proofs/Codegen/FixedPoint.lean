import Mathlib.Data.List.Induction
import YulBackend.Proofs.Codegen.Reports

namespace YulBackend

namespace DispatchTable

/-- A promotion would find nothing to do. -/
structure Settled (t : DispatchTable) : Prop where
  partitioned : t.Partitioned
  pending : t.pending.isEmpty

section

variable {t : DispatchTable} {arities : List Arity}

theorem takeCandidates_of_get?_eq_none {arity : Arity} (h : t.candidates.get? arity = none) :
    t.takeCandidates arity = t := by
  rw [takeCandidates, h]

/-- Taking the candidates of arities that have none does nothing. -/
theorem foldl_takeCandidates_of_get?_eq_none (h : ∀ a ∈ arities, t.candidates.get? a = none) :
    arities.foldl takeCandidates t = t := by
  induction arities with
  | nil => rfl
  | cons arity rest ih =>
    obtain ⟨hfirst, hrest⟩ := List.forall_mem_cons.1 h
    rw [List.foldl_cons, takeCandidates_of_get?_eq_none hfirst, ih hrest]

/-- Arities without candidates gain none. -/
theorem joined_takeCandidates_of_get?_eq_none (h : ∀ a ∈ arities, t.candidates.get? a = none) :
    joined takeCandidates gainedCandidates t arities = [] := by
  induction arities with
  | nil => rfl
  | cons arity rest ih =>
    obtain ⟨hfirst, hrest⟩ := List.forall_mem_cons.1 h
    rw [joined, takeCandidates_of_get?_eq_none hfirst, ih hrest, gainedCandidates, hfirst]
    rfl

end

namespace Settled

variable {t : DispatchTable}

theorem values_pending (h : t.Settled) : t.pending.values = [] := by
  rw [SortedMap.values, List.isEmpty_iff.1 h.pending, List.map_nil]

theorem get?_candidates_eq_none (h : t.Settled) : ∀ a ∈ t.dispatch.keys, t.candidates.get? a = none := by
  intro a ha
  have hcontains := h.partitioned a (t.dispatch.mem_keys_iff.1 ha)
  simpa [SortedMap.contains] using hcontains

theorem promoted_eq (h : t.Settled) : t.promoted = t := by
  have hpending : t.pending = .empty := SortedMap.ext_entries (List.isEmpty_iff.1 h.pending)
  rw [promoted, h.values_pending, List.foldl_nil, taken,
    foldl_takeCandidates_of_get?_eq_none h.get?_candidates_eq_none, ← hpending]

theorem gained_eq (h : t.Settled) : t.gained = [] := by
  rw [gained, h.values_pending, joined_takeCandidates_of_get?_eq_none h.get?_candidates_eq_none]
  rfl

end Settled

theorem settled_empty : ({} : DispatchTable).Settled := by
  refine ⟨fun a ha => ?_, rfl⟩
  cases ha

end DispatchTable

namespace Context

variable {c c' : Context} {o : DispatchOperation}

/-- An operation gives more to do. -/
inductive RecordsWork (c : Context) : DispatchOperation → Prop
  /-- A function is queued that was not queued before, by itself or by a promotion. -/
  | queued {o : DispatchOperation} {id : NodeId} (hold : c.queue.contains id = false)
      (hnew : (c.operate o).queue.contains id) : RecordsWork c o
  | collected {expression : NodeId} {f : Function} {result : String × Context}
      (h : c.collectReference expression f = .ok result) : RecordsWork c (.collect expression f)
  | forgotten {expression : NodeId} {c' : Context} (h : c.forgetReference expression = .ok c') :
      RecordsWork c (.forget expression)
  | registered {arity : Arity} (h : c.table.dispatch.contains arity = false) :
      RecordsWork c (.register arity)
  | seeded {candidates : DispatchMap} {c' : Context} (hsome : candidates.isEmpty = false)
      (h : c.seedCandidates candidates = .ok c') : RecordsWork c (.seed candidates)

/-- A promotion that hands out evidence that the maps are complete. -/
def IssuesEvidence (c : Context) (o : DispatchOperation) : Prop :=
  o = .promote ∧ ∃ evidence c', c.promoteReferences = .ok (some evidence, c')

/-- An operation hands out the maps. -/
def Consumes (c : Context) (o : DispatchOperation) : Prop :=
  ∃ evidence maps c', o = .consume evidence ∧ c.consumeDispatch evidence = .ok (maps, c')

/-- Evidence stands behind operations: a promotion handed it out, and no operation since then recorded work or
handed out the maps. -/
inductive EvidenceStands (c : Context) : List DispatchOperation → Prop
  | issued {operations : List DispatchOperation} {o : DispatchOperation}
      (h : (c.operateAll operations).IssuesEvidence o) : EvidenceStands c (operations ++ [o])
  | kept {operations : List DispatchOperation} {o : DispatchOperation} (h : EvidenceStands c operations)
      (hwork : ¬ (c.operateAll operations).RecordsWork o)
      (hmaps : ¬ (c.operateAll operations).Consumes o) : EvidenceStands c (operations ++ [o])

/-- Nothing is queued and a promotion would find nothing to do. -/
structure AtRest (c : Context) : Prop where
  queue : c.queue.isEmpty
  settled : c.table.Settled

/-- Unless the phase says that work was recorded, there is nothing to do. -/
def PhaseTruthful (c : Context) : Prop := c.table.phase ≠ .collecting → c.AtRest

/-- What is queued stays queued when more is. -/
theorem contains_queue_enqueueAll {id : NodeId} (functions : List Function)
    (h : c.queue.contains id) : (c.enqueueAll functions).queue.contains id := by
  induction functions generalizing c with
  | nil => exact h
  | cons f rest ih =>
    refine ih ?_
    obtain ⟨g, hg⟩ := Option.isSome_iff_exists.1 h
    rw [SortedMap.contains, get?_queue_enqueue, hg, Option.some_or, Option.isSome_some]

/-- Queueing a function changes nothing, or the function is new in the queue and the phase says so. -/
theorem enqueue_cases (c : Context) (f : Function) :
    (c.enqueue f).2 = c ∨ (c.enqueue f).2.table.phase = .collecting ∧
      c.queue.contains f.id = false ∧ (c.enqueue f).2.queue.contains f.id := by
  rw [enqueue]
  split
  · exact .inl rfl
  next hadd =>
    rw [Bool.or_eq_true, not_or, Bool.not_eq_true, Bool.not_eq_true] at hadd
    refine .inr ⟨rfl, hadd.2, ?_⟩
    change (c.queue.add f).contains f.id
    rw [SortedMap.contains, FunctionSet.get?_add, if_pos rfl, Option.isSome_some]

/-- Queueing functions either changes nothing, or queues one and goes back to collecting. -/
theorem enqueueAll_cases (c : Context) (functions : List Function) :
    c.enqueueAll functions = c ∨ (c.enqueueAll functions).table.phase = .collecting ∧
      ∃ id, c.queue.contains id = false ∧ (c.enqueueAll functions).queue.contains id := by
  induction functions generalizing c with
  | nil => exact .inl rfl
  | cons f rest ih =>
    rw [enqueueAll_cons]
    rcases c.enqueue_cases f with hsame | ⟨hphase, hold, hnew⟩
    · rw [hsame]
      exact ih c
    · refine .inr ⟨?_, f.id, hold, contains_queue_enqueueAll rest hnew⟩
      rcases ih (c.enqueue f).2 with hsame | ⟨hphase', _⟩
      · rw [hsame]
        exact hphase
      · exact hphase'

theorem promoted_cases (c : Context) :
    c.promoted = { c with table := c.table.promoted } ∨ c.promoted.table.phase = .collecting ∧
      ∃ id, c.queue.contains id = false ∧ c.promoted.queue.contains id :=
  enqueueAll_cases { c with table := c.table.promoted } c.table.gained

/-- Evidence is issued by a promotion that leaves nothing queued, and by nothing else. -/
theorem issuesEvidence_iff (h : c.table.Consistent) :
    c.IssuesEvidence o ↔ o = .promote ∧ c.promoted.queue.isEmpty := by
  rw [IssuesEvidence, promoteReferences_eq_ok h]
  refine and_congr_right fun _ => ?_
  split
  next hempty => exact iff_of_true ⟨_, _, rfl⟩ hempty
  next hqueued => exact iff_of_false (by rintro ⟨_, _, heq⟩; cases heq) hqueued

/-- The tables are consumed when nothing is queued or pending and the phase is ready, whatever evidence is shown. -/
theorem consumes_consume_iff {evidence : FixedPoint} :
    c.Consumes (.consume evidence) ↔
      c.queue.isEmpty ∧ c.table.pending.isEmpty ∧ c.table.phase = .ready := by
  rw [← c.consumeDispatch_eq_ok_iff evidence]
  refine ⟨fun ⟨_, maps, c', heq, hok⟩ => ?_, fun ⟨maps, c', hok⟩ => ⟨evidence, maps, c', rfl, hok⟩⟩
  cases heq
  exact ⟨maps, c', hok⟩

theorem operate_of_consumes (h : c.Consumes o) : c.operate o = { c with table := {} } := by
  obtain ⟨evidence, maps, c', rfl, hok⟩ := h
  rw [operate_consume, if_pos (consumes_consume_iff.1 ⟨evidence, maps, c', rfl, hok⟩)]

theorem phase_of_issuesEvidence (hconsistent : c.table.Consistent) (h : c.IssuesEvidence o) :
    (c.operate o).table.phase = .ready := by
  obtain ⟨rfl, hempty⟩ := (issuesEvidence_iff hconsistent).1 h
  rw [operate_promote hconsistent, if_pos hempty]

/-- Only a request or a promotion brings a function into the queue. -/
theorem contains_queue_of_operate (henqueue : ∀ f, o ≠ .enqueue f) (hpromote : o ≠ .promote) {id : NodeId}
    (h : (c.operate o).queue.contains id) : c.queue.contains id := by
  cases o with
  | enqueue f => exact absurd rfl (henqueue f)
  | promote => exact absurd rfl hpromote
  | register arity =>
    rw [operate_register] at h
    split at h <;> exact h
  | seed candidates =>
    rw [operate_seed] at h
    split at h <;> exact h
  | collect expression f =>
    rw [operate_collect] at h
    split at h <;> exact h
  | forget expression =>
    rw [operate_forget] at h
    split at h <;> exact h
  | consume evidence =>
    rw [operate_consume] at h
    split at h <;> exact h
  | dequeue =>
    rw [operate, dequeue] at h
    split at h
    · exact h
    · change (c.queue.erase _).contains id at h
      rw [SortedMap.contains, SortedMap.get?_erase] at h
      split at h
      · cases h
      · exact h

/-- An operation that queues a function goes back to collecting. -/
theorem phase_of_queued (hconsistent : c.table.Consistent) {id : NodeId}
    (hold : c.queue.contains id = false) (hnew : (c.operate o).queue.contains id) :
    (c.operate o).table.phase = .collecting := by
  by_cases henqueue : ∃ f, o = .enqueue f
  · obtain ⟨f, rfl⟩ := henqueue
    rcases c.enqueue_cases f with hsame | ⟨hphase, _⟩
    · rw [operate, hsame, hold] at hnew
      cases hnew
    · exact hphase
  · by_cases hpromote : o = .promote
    · subst hpromote
      rw [operate_promote hconsistent] at hnew ⊢
      split at hnew
      next hempty =>
        change c.promoted.queue.contains id at hnew
        rw [SortedMap.contains, c.promoted.queue.isEmpty_iff.1 hempty id] at hnew
        cases hnew
      next hqueued =>
        rw [if_neg hqueued]
        rcases c.promoted_cases with hsame | ⟨hphase, _⟩
        · rw [hsame] at hnew
          exact absurd hnew (Bool.eq_false_iff.1 hold)
        · exact hphase
    · have hkept := contains_queue_of_operate (fun f heq => henqueue ⟨f, heq⟩) hpromote hnew
      exact absurd hkept (Bool.eq_false_iff.1 hold)

/-- An operation that records work, in the queue or in the tables, goes back to collecting. -/
theorem phase_of_recordsWork (hconsistent : c.table.Consistent) (h : c.RecordsWork o) :
    (c.operate o).table.phase = .collecting := by
  cases h with
  | queued hold hnew => exact phase_of_queued hconsistent hold hnew
  | collected h =>
    have hnew := c.exists_collectReference_eq_ok_iff.1 ⟨_, h⟩
    rw [operate_collect, hnew]
    rfl
  | forgotten h =>
    have hold := c.exists_forgetReference_eq_ok_iff.1 ⟨_, h⟩
    rw [operate_forget, if_pos hold]
  | registered h =>
    rw [operate_register, h]
    rfl
  | seeded hsome h =>
    have hclean := c.exists_seedCandidates_eq_ok_iff.1 ⟨_, h⟩
    rw [operate_seed, if_pos hclean, hsome]
    rfl

theorem seed_empty (hclean : c.table.isClean) {candidates : DispatchMap} (hempty : candidates.isEmpty) :
    { c.table with candidates } = c.table := by
  rw [DispatchTable.isClean, Bool.and_eq_true, Bool.and_eq_true] at hclean
  have hsame : candidates = c.table.candidates := SortedMap.ext_entries <|
    (List.isEmpty_iff.1 hempty).trans (List.isEmpty_iff.1 hclean.1.2).symm
  rw [hsame]

/-- An operation that records no work changes nothing, unless it takes a function from the queue, promotes or
hands out the maps. -/
theorem operate_of_not_recordsWork (hwork : ¬ c.RecordsWork o) :
    o = .dequeue ∨ o = .promote ∨ c.Consumes o ∨ c.operate o = c := by
  cases o with
  | dequeue => exact .inl rfl
  | promote => exact .inr (.inl rfl)
  | seed candidates =>
    refine .inr (.inr (.inr ?_))
    rw [operate_seed]
    split
    next hclean =>
      obtain ⟨c', hok⟩ := c.exists_seedCandidates_eq_ok_iff.2 hclean
      have hempty : candidates.isEmpty := by
        rw [← Bool.not_eq_false]
        exact fun hsome => hwork (.seeded hsome hok)
      rw [if_pos hempty, seed_empty hclean hempty]
    next => rfl
  | collect expression f =>
    refine .inr (.inr (.inr ?_))
    rw [operate_collect]
    split
    next => rfl
    next hnew =>
      obtain ⟨result, hok⟩ := c.exists_collectReference_eq_ok_iff.2 (Bool.eq_false_iff.2 hnew)
      exact absurd (.collected hok) hwork
  | forget expression =>
    refine .inr (.inr (.inr ?_))
    rw [operate_forget]
    split
    next hold =>
      obtain ⟨c', hok⟩ := c.exists_forgetReference_eq_ok_iff.2 hold
      exact absurd (.forgotten hok) hwork
    next => rfl
  | register arity =>
    refine .inr (.inr (.inr ?_))
    rw [operate_register]
    split
    next => rfl
    next hnew => exact absurd (.registered (Bool.eq_false_iff.2 hnew)) hwork
  | enqueue f =>
    rcases c.enqueue_cases f with hsame | ⟨_, hold, hnew⟩
    · exact .inr (.inr (.inr hsame))
    · exact absurd (.queued hold hnew) hwork
  | consume evidence =>
    by_cases hready : c.queue.isEmpty ∧ c.table.pending.isEmpty ∧ c.table.phase = .ready
    · exact .inr (.inr (.inl (consumes_consume_iff.2 hready)))
    · exact .inr (.inr (.inr (by rw [operate_consume, if_neg hready])))

/-- The phase changes only where work is recorded, or evidence or the maps are handed out. -/
theorem phase_operate_eq (hconsistent : c.table.Consistent) (hwork : ¬ c.RecordsWork o)
    (hevidence : ¬ c.IssuesEvidence o) (hmaps : ¬ c.Consumes o) :
    (c.operate o).table.phase = c.table.phase := by
  rcases operate_of_not_recordsWork hwork with rfl | rfl | hconsumes | hsame
  · rw [operate, dequeue]
    split <;> rfl
  · have hqueued : ¬ c.promoted.queue.isEmpty := fun hempty =>
      hevidence ((issuesEvidence_iff hconsistent).2 ⟨rfl, hempty⟩)
    have hoperate := operate_promote hconsistent
    rw [if_neg hqueued] at hoperate
    rw [hoperate]
    rcases c.promoted_cases with hsame | ⟨_, id, hold, hnew⟩
    · rw [hsame]
      exact c.table.phase_promoted
    · exact absurd (.queued hold (hoperate ▸ hnew)) hwork
  · exact absurd hconsumes hmaps
  · rw [hsame]

/-- The phase says that the maps are complete where evidence is handed out, and as long as no work is recorded
and the maps are not handed out. -/
theorem phase_operate_eq_ready_iff (hconsistent : c.table.Consistent) :
    (c.operate o).table.phase = .ready ↔
      c.IssuesEvidence o ∨ c.table.phase = .ready ∧ ¬ c.RecordsWork o ∧ ¬ c.Consumes o := by
  by_cases hevidence : c.IssuesEvidence o
  · exact iff_of_true (phase_of_issuesEvidence hconsistent hevidence) (.inl hevidence)
  · by_cases hwork : c.RecordsWork o
    · have hphase := phase_of_recordsWork hconsistent hwork
      simp [hphase, hevidence, hwork]
    · by_cases hmaps : c.Consumes o
      · simp [operate_of_consumes hmaps, hevidence, hmaps]
      · simp [phase_operate_eq hconsistent hwork hevidence hmaps, hevidence, hwork, hmaps]

/-- Where nothing is to be done, a promotion does nothing. -/
theorem AtRest.promoted_eq (h : c.AtRest) : c.promoted = c := by
  rw [promoted, h.settled.gained_eq, h.settled.promoted_eq]
  rfl

theorem AtRest.promoteReferences_eq_ok (h : c.AtRest) :
    ∃ evidence, c.promoteReferences =
      .ok (some evidence, { c with table := { c.table with phase := .ready } }) := by
  rw [Context.promoteReferences_eq_ok h.settled.partitioned.consistent, h.promoted_eq, if_pos h.queue]
  exact ⟨_, rfl⟩

/-- The context is at rest behind an operation that consumes the tables. -/
theorem atRest_of_consumes (h : c.Consumes o) : (c.operate o).AtRest := by
  obtain ⟨evidence, maps, c', rfl, hok⟩ := h
  have hready := consumes_consume_iff.1 ⟨evidence, maps, c', rfl, hok⟩
  rw [operate_consume, if_pos hready]
  exact ⟨hready.1, DispatchTable.settled_empty⟩

/-- The context is at rest behind an operation that issues evidence. -/
theorem atRest_of_issuesEvidence (hconsistent : c.table.Consistent) (h : c.IssuesEvidence o) :
    (c.operate o).AtRest := by
  obtain ⟨rfl, hempty⟩ := (issuesEvidence_iff hconsistent).1 h
  rw [operate_promote hconsistent, if_pos hempty]
  refine ⟨hempty, c.partitioned_promoted, ?_⟩
  change c.promoted.table.pending.isEmpty
  rw [c.pending_promoted]
  rfl

/-- A context at rest stays so unless work is recorded. -/
theorem AtRest.operate (h : c.AtRest) (hwork : ¬ c.RecordsWork o) : (c.operate o).AtRest := by
  rcases operate_of_not_recordsWork hwork with rfl | rfl | hconsumes | hsame
  · have hnone : c.queue.entries = [] := List.isEmpty_iff.1 h.queue
    rw [Context.operate, dequeue, hnone]
    exact h
  · obtain ⟨evidence, hok⟩ := h.promoteReferences_eq_ok
    exact atRest_of_issuesEvidence h.settled.partitioned.consistent ⟨rfl, evidence, _, hok⟩
  · exact atRest_of_consumes hconsumes
  · rw [hsame]
    exact h

/-- Every operation keeps the phase truthful: it is ready only while the context is at rest. -/
theorem PhaseTruthful.operate (h : c.PhaseTruthful) (hconsistent : c.table.Consistent)
    (o : DispatchOperation) : (c.operate o).PhaseTruthful := by
  intro hphase
  by_cases hwork : c.RecordsWork o
  · exact absurd (phase_of_recordsWork hconsistent hwork) hphase
  · by_cases hevidence : c.IssuesEvidence o
    · exact atRest_of_issuesEvidence hconsistent hevidence
    · by_cases hmaps : c.Consumes o
      · exact atRest_of_consumes hmaps
      · rw [phase_operate_eq hconsistent hwork hevidence hmaps] at hphase
        exact (h hphase).operate hwork

/-- The phase is truthful behind any operations. The induction is on the operations. -/
theorem PhaseTruthful.operateAll (h : c.PhaseTruthful) (hconsistent : c.table.Consistent)
    (operations : List DispatchOperation) : (c.operateAll operations).PhaseTruthful := by
  induction operations generalizing c with
  | nil => exact h
  | cons o rest ih => exact ih (h.operate hconsistent o) (consistent_operate hconsistent o)

/-- Evidence stands behind one operation more if that issues it, or if it stood before and the operation neither
records work nor consumes the tables. -/
theorem evidenceStands_append_iff {operations : List DispatchOperation} :
    c.EvidenceStands (operations ++ [o]) ↔ (c.operateAll operations).IssuesEvidence o ∨
      c.EvidenceStands operations ∧ ¬ (c.operateAll operations).RecordsWork o ∧
        ¬ (c.operateAll operations).Consumes o := by
  refine ⟨fun h => ?_, ?_⟩
  · generalize hall : operations ++ [o] = all at h
    cases h with
    | issued h =>
      obtain ⟨rfl, heq⟩ := List.append_inj' hall rfl
      cases heq
      exact .inl h
    | kept h hwork hmaps =>
      obtain ⟨rfl, heq⟩ := List.append_inj' hall rfl
      cases heq
      exact .inr ⟨h, hwork, hmaps⟩
  · rintro (h | ⟨h, hwork, hmaps⟩)
    · exact .issued h
    · exact .kept h hwork hmaps

/-- Evidence stands just if the phase says that the maps are complete. -/
theorem evidenceStands_iff (hconsistent : c.table.Consistent) (hphase : c.table.phase ≠ .ready)
    (operations : List DispatchOperation) :
    c.EvidenceStands operations ↔ (c.operateAll operations).table.phase = .ready := by
  induction operations using List.reverseRecOn with
  | nil =>
    refine iff_of_false (fun h => ?_) hphase
    generalize hall : ([] : List DispatchOperation) = all at h
    cases h <;> simp at hall
  | append_singleton operations o ih =>
    have hoperate : c.operateAll (operations ++ [o]) = (c.operateAll operations).operate o := by
      rw [operateAll, List.foldl_append]
      rfl
    rw [evidenceStands_append_iff, ih, hoperate,
      phase_operate_eq_ready_iff (consistent_operateAll hconsistent operations)]

/-- `consumeDispatch` hands out the maps as long as evidence stands, whichever piece of evidence is shown. Then nothing
is queued, no reference waits, no arity is in both maps, and one more `promoteReferences` would only hand out evidence
again. Where no evidence stands, because work was recorded or the maps were handed out since the last was, the request
is refused and changes nothing. -/
theorem consumeDispatch_operateAll (c : Context) (operations : List DispatchOperation)
    (evidence : FixedPoint) :
    let start := { c with queue := .empty, table := {} }
    let c := start.operateAll operations
    (start.EvidenceStands operations → ∃ maps c', c.consumeDispatch evidence = .ok (maps, c')) ∧
      (∀ maps c', c.consumeDispatch evidence = .ok (maps, c') →
        c.queue.isEmpty ∧ c.table.pending.isEmpty ∧ c.table.Partitioned ∧
          ∃ again, c.promoteReferences = .ok (some again, c)) ∧
      (¬ start.EvidenceStands operations →
        (∃ cause, c.consumeDispatch evidence = .error (.violation cause)) ∧
          c.operate (.consume evidence) = c) := by
  intro start c'
  have hconsistent : start.table.Consistent := DispatchTable.settled_empty.partitioned.consistent
  have htruthful : start.PhaseTruthful := fun _ => ⟨rfl, DispatchTable.settled_empty⟩
  have hphase : start.EvidenceStands operations ↔ c'.table.phase = .ready :=
    evidenceStands_iff hconsistent (fun h => nomatch h) operations
  have hatRest : c'.table.phase = .ready → c'.AtRest := fun hready =>
    htruthful.operateAll hconsistent operations (by rw [hready]; decide)
  refine ⟨fun hstands => ?_, fun maps c'' hok => ?_, fun hstale => ?_⟩
  · have hready := hphase.1 hstands
    have hrest := hatRest hready
    exact ⟨_, _, c'.consumeDispatch_eq_ok_of hrest.queue hrest.settled.pending hready evidence⟩
  · obtain ⟨hqueue, hpending, hready⟩ := consumes_consume_iff.1 ⟨evidence, maps, c'', rfl, hok⟩
    obtain ⟨again, hpromote⟩ := (hatRest hready).promoteReferences_eq_ok
    refine ⟨hqueue, hpending, (hatRest hready).settled.partitioned, again, ?_⟩
    rw [hpromote, ← hready]
  · have hnot : ¬ (c'.queue.isEmpty ∧ c'.table.pending.isEmpty ∧ c'.table.phase = .ready) :=
      fun hready => hstale (hphase.2 hready.2.2)
    exact ⟨c'.exists_consumeDispatch_eq_error hnot evidence, by rw [operate_consume, if_neg hnot]⟩

end Context

end YulBackend
