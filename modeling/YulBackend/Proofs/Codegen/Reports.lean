import YulBackend.Proofs.Codegen.Program

namespace YulBackend

/-- What a lowering does with a context to say what a body refers to. -/
def DispatchOperation.IsReport : DispatchOperation → Prop
  | .enqueue _ => True
  | .register _ => True
  | .collect _ _ => True
  | .forget _ => True
  | _ => False

namespace DispatchTable

/-- Registering an arity makes an empty dispatcher for it, if it has none. -/
theorem get?_dispatch_register (t : DispatchTable) (arity a : Arity) :
    (t.register arity).dispatch.get? a =
      (t.dispatch.get? a).or (if a = arity then some .empty else none) := by
  rw [register]
  split
  next hcontains =>
    by_cases ha : a = arity
    · obtain ⟨members, hmembers⟩ := Option.isSome_iff_exists.1 hcontains
      simp [ha, hmembers]
    · simp [ha]
  next hcontains =>
    change (t.dispatch.insert arity .empty).get? a = _
    rw [SortedMap.get?_insert]
    by_cases ha : a = arity
    · have hnone : t.dispatch.get? arity = none := by
        simpa [SortedMap.contains] using hcontains
      simp [ha, hnone]
    · simp [ha]

@[simp]
theorem candidates_register (t : DispatchTable) (arity : Arity) :
    (t.register arity).candidates = t.candidates := by
  rw [register]
  split <;> rfl

@[simp]
theorem pending_register (t : DispatchTable) (arity : Arity) :
    (t.register arity).pending = t.pending := by
  rw [register]
  split <;> rfl

end DispatchTable

namespace Context

variable (c : Context) (f : Function)

/-- Queueing a function fills the entry of its number, if that is free and its code is not there. -/
theorem get?_queue_enqueue (i : NodeId) :
    (c.enqueue f).2.queue.get? i =
      (c.queue.get? i).or (if c.collector.contains f.codeName = false ∧ i = f.id then some f else none) := by
  rw [enqueue]
  split
  next hskip =>
    rw [Bool.or_eq_true] at hskip
    by_cases hi : c.collector.contains f.codeName = false ∧ i = f.id
    · rw [hi.1] at hskip
      obtain ⟨g, hg⟩ := Option.isSome_iff_exists.1 (hskip.resolve_left Bool.false_ne_true)
      simp [hi.2, hg]
    · simp [hi]
  next hadd =>
    rw [Bool.or_eq_true, not_or] at hadd
    change (c.queue.add f).get? i = _
    have hnone : c.queue.get? f.id = none := by simpa [SortedMap.contains] using hadd.2
    rw [FunctionSet.get?_add, hnone]
    by_cases hi : i = f.id
    · simp [hi, hnone, hadd.1]
    · simp [hi]

@[simp]
theorem collector_enqueue : (c.enqueue f).2.collector = c.collector := by
  rw [enqueue]
  split <;> rfl

@[simp]
theorem collector_enqueueAll (functions : List Function) :
    (c.enqueueAll functions).collector = c.collector := by
  induction functions generalizing c with
  | nil => rfl
  | cons f rest ih => rw [enqueueAll_cons, ih, collector_enqueue]

/-- A report files no code. -/
theorem collector_operate {o : DispatchOperation} (h : o.IsReport) :
    (c.operate o).collector = c.collector := by
  cases o with
  | enqueue g => exact c.collector_enqueue g
  | register arity => rfl
  | collect expression g =>
    rw [operate_collect]
    split <;> rfl
  | forget expression =>
    rw [operate_forget]
    split <;> rfl
  | _ => exact h.elim

/-- Reports file no code. -/
theorem collector_operateAll {operations : List DispatchOperation} (h : ∀ o ∈ operations, o.IsReport) :
    (c.operateAll operations).collector = c.collector := by
  induction operations generalizing c with
  | nil => rfl
  | cons o rest ih =>
    obtain ⟨ho, hrest⟩ := List.forall_mem_cons.1 h
    exact (ih (c.operate o) hrest).trans (c.collector_operate ho)

end Context

namespace Program

variable {p : Program} {f : Function} {o : DispatchOperation} {operations : List DispatchOperation}

theorem MayReport.isReport (h : p.MayReport f o) : o.IsReport := by
  cases o with
  | enqueue | register | collect | forget => exact trivial
  | _ => exact h.elim

/-- What a function may report changes no candidates. -/
theorem candidates_operate (h : p.MayReport f o) (c : Context) :
    (c.operate o).table.candidates = c.table.candidates := by
  cases o with
  | enqueue g => exact (c.sameMaps_enqueue g).candidates
  | register arity => exact c.table.candidates_register arity
  | collect expression g => exact c.candidates_operate_collect expression g
  | forget expression => exact c.candidates_operate_forget expression
  | _ => exact h.elim

/-- What a function may report changes the pending references as `stage` says. -/
theorem pending_operate (h : p.MayReport f o) (c : Context) :
    (c.operate o).table.pending = o.stage c.table.pending := by
  cases o with
  | enqueue g => exact (c.sameMaps_enqueue g).pending
  | register arity => exact c.table.pending_register arity
  | collect expression g => exact c.pending_operate_collect expression g
  | forget expression => exact c.pending_operate_forget expression
  | _ => exact h.elim

/-- What a function may report makes a dispatcher only by registering its arity, and that is empty. -/
theorem get?_dispatch_operate_iff (h : p.MayReport f o) (c : Context) (a : Arity)
    (members : FunctionSet) :
    (c.operate o).table.dispatch.get? a = some members ↔ c.table.dispatch.get? a = some members ∨
      c.table.dispatch.get? a = none ∧ o = .register a ∧ members = .empty := by
  cases o with
  | enqueue g => simp [Context.operate, (c.sameMaps_enqueue g).dispatch]
  | register arity =>
    change (c.table.register arity).dispatch.get? a = some members ↔ _
    rw [DispatchTable.get?_dispatch_register, Option.or_eq_some_iff, DispatchOperation.register.injEq]
    by_cases ha : a = arity
    · simp [ha, eq_comm]
    · simp [ha, Ne.symm ha]
  | collect expression g => simp
  | forget expression => simp
  | _ => exact h.elim

/-- What a function may report queues a function only by `enqueue`, if its number is free and its code is not there. -/
theorem get?_queue_operate_iff (h : p.MayReport f o) (c : Context) (i : NodeId) (g : Function) :
    (c.operate o).queue.get? i = some g ↔ c.queue.get? i = some g ∨
      c.queue.get? i = none ∧ o = .enqueue g ∧ c.collector.contains g.codeName = false ∧ i = g.id := by
  cases o with
  | enqueue g' =>
    rw [Context.operate, Context.get?_queue_enqueue, Option.or_eq_some_iff,
      DispatchOperation.enqueue.injEq]
    refine or_congr_right (and_congr_right fun _ => ?_)
    constructor
    · intro hnew
      split at hnew
      next hcond =>
        cases hnew
        exact ⟨rfl, hcond⟩
      next => cases hnew
    · rintro ⟨rfl, hcond⟩
      rw [if_pos hcond]
  | register arity => simp [Context.operate, Context.registerDispatch]
  | collect expression g' =>
    rw [Context.operate_collect]
    split <;> simp
  | forget expression =>
    rw [Context.operate_forget]
    split <;> simp
  | _ => exact h.elim

theorem collector_operateAll (h : ∀ o ∈ operations, p.MayReport f o) (c : Context) :
    (c.operateAll operations).collector = c.collector :=
  c.collector_operateAll fun o ho => (h o ho).isReport

/-- The reports of a function change no candidates. -/
theorem candidates_operateAll (h : ∀ o ∈ operations, p.MayReport f o) (c : Context) :
    (c.operateAll operations).table.candidates = c.table.candidates := by
  induction operations generalizing c with
  | nil => rfl
  | cons o rest ih =>
    obtain ⟨ho, hrest⟩ := List.forall_mem_cons.1 h
    exact (ih hrest (c.operate o)).trans (candidates_operate ho c)

/-- The reports of a function change the pending references one after the other. -/
theorem pending_operateAll (h : ∀ o ∈ operations, p.MayReport f o) (c : Context) :
    (c.operateAll operations).table.pending =
      operations.foldl DispatchOperation.stage c.table.pending := by
  induction operations generalizing c with
  | nil => rfl
  | cons o rest ih =>
    obtain ⟨ho, hrest⟩ := List.forall_mem_cons.1 h
    rw [List.foldl_cons, ← pending_operate ho c]
    exact ih hrest (c.operate o)

/-- The reports of a function make just the dispatchers that they register. -/
theorem get?_dispatch_operateAll_iff (h : ∀ o ∈ operations, p.MayReport f o) (c : Context) (a : Arity)
    (members : FunctionSet) :
    (c.operateAll operations).table.dispatch.get? a = some members ↔
      c.table.dispatch.get? a = some members ∨
        c.table.dispatch.get? a = none ∧ .register a ∈ operations ∧ members = .empty := by
  induction operations generalizing c with
  | nil => simp [Context.operateAll]
  | cons o rest ih =>
    obtain ⟨ho, hrest⟩ := List.forall_mem_cons.1 h
    refine (ih hrest (c.operate o)).trans ?_
    have hstep := get?_dispatch_operate_iff ho c a
    cases hold : c.table.dispatch.get? a with
    | some old =>
      have hkept : (c.operate o).table.dispatch.get? a = some old := (hstep old).2 (.inl hold)
      simp [hkept]
    | none =>
      by_cases hregister : o = .register a
      · have hnew : (c.operate o).table.dispatch.get? a = some .empty :=
          (hstep _).2 (.inr ⟨hold, hregister, rfl⟩)
        rw [hnew]
        simp [hregister, eq_comm]
      · have hnone : (c.operate o).table.dispatch.get? a = none := by
          refine Option.eq_none_iff_forall_ne_some.2 fun members hmembers => ?_
          rcases (hstep members).1 hmembers with hsome | ⟨_, heq, _⟩
          · rw [hold] at hsome
            cases hsome
          · exact hregister heq
        simp [hnone, Ne.symm hregister]

/-- The reports of a function queue just the functions they say, as far as the numbers are free and the code is not
there. -/
theorem get?_queue_operateAll_iff (hids : IdsIdentify (.enqueue · ∈ operations))
    (h : ∀ o ∈ operations, p.MayReport f o) (c : Context) (i : NodeId) (g : Function) :
    (c.operateAll operations).queue.get? i = some g ↔ c.queue.get? i = some g ∨
      c.queue.get? i = none ∧ .enqueue g ∈ operations ∧ c.collector.contains g.codeName = false ∧
        i = g.id := by
  induction operations generalizing c with
  | nil => simp [Context.operateAll]
  | cons o rest ih =>
    obtain ⟨ho, hrest⟩ := List.forall_mem_cons.1 h
    have hids' : IdsIdentify (.enqueue · ∈ rest) := fun _ _ hg hg' =>
      hids (List.mem_cons_of_mem _ hg) (List.mem_cons_of_mem _ hg')
    refine (ih hids' hrest (c.operate o)).trans ?_
    have hstep := get?_queue_operate_iff ho c i
    rw [c.collector_operate ho.isReport]
    constructor
    · rintro (hold | ⟨hnone, hmem, hnew⟩)
      · rcases (hstep g).1 hold with hold | ⟨hnone, rfl, hnew⟩
        · exact .inl hold
        · exact .inr ⟨hnone, List.mem_cons_self, hnew⟩
      · refine .inr ⟨?_, List.mem_cons_of_mem _ hmem, hnew⟩
        refine Option.eq_none_iff_forall_ne_some.2 fun old hold => ?_
        rw [(hstep old).2 (.inl hold)] at hnone
        cases hnone
    · rintro (hold | ⟨hnone, hmem, hnew⟩)
      · exact .inl ((hstep g).2 (.inl hold))
      · rcases List.mem_cons.1 hmem with rfl | hlater
        · exact .inl ((hstep g).2 (.inr ⟨hnone, rfl, hnew⟩))
        · cases hfirst : (c.operate o).queue.get? i with
          | none => exact .inr ⟨rfl, hlater, hnew⟩
          | some g' =>
            rcases (hstep g').1 hfirst with hold | ⟨_, rfl, _, hid⟩
            · rw [hnone] at hold
              cases hold
            · rw [hids List.mem_cons_self hmem (hid.symm.trans hnew.2)]
              exact .inl rfl

/-- What a function reports of its own expressions depends only on what was pending under these. -/
theorem get?_stage_congr {pending pending' : SortedMap NodeId Function} (h : p.MayReport f o)
    (hown : ∀ e, p.owner e = f.id → pending.get? e = pending'.get? e) (e : NodeId)
    (howner : p.owner e = f.id) : (o.stage pending).get? e = (o.stage pending').get? e := by
  cases o with
  | collect expression g =>
    rw [DispatchOperation.stage, DispatchOperation.stage, SortedMap.get?_insertIfNew,
      SortedMap.get?_insertIfNew, hown e howner, hown expression h]
  | forget expression =>
    rw [DispatchOperation.stage, DispatchOperation.stage, SortedMap.get?_erase, SortedMap.get?_erase,
      hown e howner]
  | _ => exact hown e howner

/-- A function reports nothing of other functions' expressions. -/
theorem get?_stage_of_owner_ne {pending : SortedMap NodeId Function} (h : p.MayReport f o) {e : NodeId}
    (howner : p.owner e ≠ f.id) : (o.stage pending).get? e = pending.get? e := by
  cases o with
  | collect expression g =>
    have hne : e ≠ expression := fun heq => howner (heq ▸ h)
    rw [DispatchOperation.stage, SortedMap.get?_insertIfNew, if_neg hne]
  | forget expression =>
    have hne : e ≠ expression := fun heq => howner (heq ▸ h)
    rw [DispatchOperation.stage, SortedMap.get?_erase, if_neg hne]
  | _ => rfl

/-- Staging touches no reference but those of expressions in the function's own body. -/
theorem get?_foldl_stage (h : ∀ o ∈ operations, p.MayReport f o) {pending pending' : SortedMap NodeId Function}
    (hown : ∀ e, p.owner e = f.id → pending.get? e = pending'.get? e) (e : NodeId) :
    (operations.foldl DispatchOperation.stage pending).get? e =
      if p.owner e = f.id then (operations.foldl DispatchOperation.stage pending').get? e
      else pending.get? e := by
  induction operations generalizing pending pending' with
  | nil =>
    split
    next howner => exact hown e howner
    next => rfl
  | cons o rest ih =>
    obtain ⟨ho, hrest⟩ := List.forall_mem_cons.1 h
    rw [List.foldl_cons, List.foldl_cons]
    rw [ih hrest fun e howner => get?_stage_congr ho hown e howner]
    split
    next => rfl
    next howner => exact get?_stage_of_owner_ne ho howner

/-- What has changed for the queue and the table once a body is reported. -/
structure Reported (p : Program) (f : Function) (c c' : Context) : Prop where
  queue : ∀ i g, c'.queue.get? i = some g ↔ c.queue.get? i = some g ∨
    c.queue.get? i = none ∧ g ∈ (p.body f).callees ∧ c.collector.contains g.codeName = false ∧ i = g.id
  dispatch : ∀ a members, c'.table.dispatch.get? a = some members ↔
    c.table.dispatch.get? a = some members ∨
      c.table.dispatch.get? a = none ∧ a ∈ (p.body f).pointerCalls ∧ members = .empty
  candidates : c'.table.candidates = c.table.candidates
  pending : ∀ e, c'.table.pending.get? e =
    if p.owner e = f.id then (p.body f).references.get? e else c.table.pending.get? e
  owner : ∀ e g, (p.body f).references.get? e = some g → p.owner e = f.id

/-- However a body is reported, it comes to the same. -/
theorem Reports.reported (h : p.Reports f operations) (hf : p.declared f) {c : Context}
    (hfresh : ∀ e, p.owner e = f.id → c.table.pending.get? e = none) :
    p.Reported f c (c.operateAll operations) := by
  have hcallee : ∀ g, .enqueue g ∈ operations ↔ g ∈ (p.body f).callees :=
    fun g => ⟨h.mayReport _, h.callees g⟩
  have hcall : ∀ a, .register a ∈ operations ↔ a ∈ (p.body f).pointerCalls :=
    fun a => ⟨h.mayReport _, h.pointerCalls a⟩
  have hids : IdsIdentify (.enqueue · ∈ operations) := fun g g' hg hg' =>
    p.idsIdentify (p.declared_callee f g hf ((hcallee g).1 hg))
      (p.declared_callee f g' hf ((hcallee g').1 hg'))
  have hempty : ∀ e, p.owner e = f.id → c.table.pending.get? e = SortedMap.empty.get? e := hfresh
  refine ⟨fun i g => ?_, fun a members => ?_, candidates_operateAll h.mayReport c, fun e => ?_,
    fun e g hg => Decidable.byContradiction fun hother => ?_⟩
  · rw [get?_queue_operateAll_iff hids h.mayReport, hcallee]
  · rw [get?_dispatch_operateAll_iff h.mayReport, hcall]
  · rw [pending_operateAll h.mayReport, get?_foldl_stage h.mayReport hempty, h.references]
  · have hnone : (operations.foldl DispatchOperation.stage .empty).get? e = none :=
      (get?_foldl_stage h.mayReport (fun e _ => rfl) e).trans (if_neg hother)
    rw [h.references, hg] at hnone
    cases hnone

end Program

end YulBackend
