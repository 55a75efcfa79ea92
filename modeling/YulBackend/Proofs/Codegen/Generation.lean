import YulBackend.Proofs.Codegen.Closure

namespace YulBackend

/-- The context in which a function is lowered: the function is taken from the queue, its name is reserved
and no locals are known. -/
def Context.opened (c : Context) (f : Function) : Context :=
  { c with
    queue := c.queue.erase f.id
    collector := ⟨c.collector.functions.insert f.codeName none⟩
    locals := .empty }

namespace Collecting

/-- Filing a helper leaves the entries under other names. -/
theorem get?_create_pure {name other : String} (hne : other ≠ name) (code : String)
    (c : Collector) :
    ((Collecting.create name (pure code) : Helper String) c).2.functions.get? other =
      c.functions.get? other := by
  rw [Collecting.create]
  cases hreserve : c.reserve? name with
  | none => rfl
  | some reserved =>
    have hreserved : reserved.functions = c.functions.insert name none := by
      rw [Collector.reserve?] at hreserve
      split at hreserve
      · cases hreserve
      · cases hreserve
        rfl
    have hdefine : reserved.define name code = .ok ⟨reserved.functions.insert name (some code)⟩ := by
      rw [Collector.define, hreserved, SortedMap.get?_insert, if_pos rfl]
    have hcode : (pure code : Helper String) reserved = (.ok code, reserved) := rfl
    have hbind : ∀ {α β : Type} (a : α) (k : α → Id β), (bind (a : Id α) k : Id β) = k a :=
      fun _ _ => rfl
    dsimp only
    rw [hcode, hbind]
    dsimp only
    rw [hdefine]
    change (reserved.functions.insert name (some code)).get? other = _
    rw [hreserved, SortedMap.get?_insert, if_neg hne, SortedMap.get?_insert, if_neg hne]

end Collecting

namespace Contextual

/-- A sequence of effects on the context succeeds when both do, one behind the other. -/
theorem bind_eq_ok {α β : Type} {x : Contextual α} {k : α → Contextual β} {c c' : Context} {b : β} :
    (x >>= k) c = (.ok b, c') ↔ ∃ a c₁, x c = (.ok a, c₁) ∧ k a c₁ = (.ok b, c') := by
  have hbind : (x >>= k) c = ExceptT.bindCont k (x c).1 (x c).2 := rfl
  rw [hbind]
  obtain ⟨result, c₁⟩ := x c
  cases result with
  | ok a =>
    refine ⟨fun h => ⟨a, c₁, rfl, h⟩, ?_⟩
    rintro ⟨a', c₂, heq, h⟩
    cases heq
    exact h
  | error fault =>
    refine ⟨fun h => (nomatch h), ?_⟩
    rintro ⟨a', c₂, heq, _⟩
    cases heq

/-- A step of the context succeeds as its function does. -/
theorem step_eq_ok {α : Type} {f : Context → Except Fault (α × Context)} {c c' : Context} {a : α} :
    Contextual.step f c = (.ok a, c') ↔ f c = .ok (a, c') := by
  rw [step]
  cases f c with
  | ok result =>
    refine ⟨fun h => ?_, fun h => ?_⟩
    · cases h
      rfl
    · cases h
      rfl
  | error fault => exact ⟨fun h => (nomatch h), fun h => (nomatch h)⟩

/-- Work whose faults are passed on after some cleaning up succeeds only if it did so at once. -/
theorem tryCatch_throw_eq_ok {α : Type} {x : Contextual α} {cleanUp : Contextual Unit} {c c' : Context}
    {a : α} (h : (tryCatch x fun fault => do cleanUp; throw fault) c = (.ok a, c')) :
    x c = (.ok a, c') := by
  cases hx : x c with
  | mk result c₁ =>
    simp only [tryCatch, tryCatchThe, MonadExceptOf.tryCatch, ExceptT.tryCatch, ExceptT.mk, bind,
      StateT.bind, hx] at h
    cases result with
    | ok a => exact h
    | error fault =>
      obtain ⟨_, c₂, _, hthrow⟩ := bind_eq_ok.1 h
      cases hthrow

/-- Discarding a result keeps the effect. -/
theorem discard_snd {α : Type} (x : Contextual α) (c : Context) :
    ((discard x : Contextual Unit) c).2 = (x c).2 := by
  change (ExceptT.map (fun _ => ()) x c).2 = _
  cases hx : x c with
  | mk result c' =>
    simp only [ExceptT.map, ExceptT.mk, bind, StateT.bind, hx]
    cases result <;> rfl

/-- Making a dispatcher leaves every function of the program as it was. -/
theorem get?_codeName_dispatcher (c : Context) (arity : Arity) (functions : FunctionSet) (f : Function) :
    (Contextual.dispatcher arity functions c).2.collector.functions.get? f.codeName =
      c.collector.functions.get? f.codeName := by
  rw [Contextual.dispatcher, Contextual.collect]
  cases hdefinition : Dispatcher.definition arity functions with
  | ok definition =>
    exact Collecting.get?_create_pure (f.codeName_ne_dispatcherName arity) definition.code c.collector
  | error fault => rfl

end Contextual

namespace Generating

/-- A sequence of effects on the generator ends and succeeds when both do, one behind the other. -/
theorem bind_eq_ok {α β : Type} {x : Generating α} {k : α → Generating β} {g g' : Generator} {b : β} :
    (x >>= k) g = some (.ok b, g') ↔ ∃ a g₁, x g = some (.ok a, g₁) ∧ k a g₁ = some (.ok b, g') := by
  have hbind : (x >>= k) g = (x g).bind fun r => ExceptT.bindCont k r.1 r.2 := rfl
  rw [hbind]
  cases x g with
  | none =>
    refine ⟨fun h => (nomatch h), ?_⟩
    rintro ⟨a, g₁, heq, _⟩
    cases heq
  | some r =>
    obtain ⟨result, g₁⟩ := r
    cases result with
    | ok a =>
      refine ⟨fun h => ⟨a, g₁, rfl, h⟩, ?_⟩
      rintro ⟨a', g₂, heq, h⟩
      cases heq
      exact h
    | error fault =>
      refine ⟨fun h => (nomatch h), ?_⟩
      rintro ⟨a', g₂, heq, _⟩
      cases heq

/-- Work on the context succeeds in the generator as it does alone, and changes nothing but the context. -/
theorem onContext_eq_ok {α : Type} {work : Contextual α} {g g' : Generator} {a : α} :
    onContext work g = some (.ok a, g') ↔
      ∃ c, work g.context = (.ok a, c) ∧ g' = { g with context := c } := by
  rw [onContext]
  obtain ⟨result, c⟩ := work g.context
  refine ⟨fun h => ?_, ?_⟩
  · cases h
    exact ⟨c, rfl, rfl⟩
  · rintro ⟨c', heq, rfl⟩
    cases heq
    rfl

/-- If lowering a function succeeds, then its text is defined under its name. -/
theorem exists_of_lower_eq_ok {lowering : Lowering} {f : Function} {g g' : Generator}
    (h : lower lowering f g = some (.ok (), g')) :
    ∃ code c collector, lowering f g.context.clearLocals = (.ok code, c) ∧
      c.collector.define f.codeName code = .ok collector ∧
      g' = { context := { c with collector }, lowered := f :: g.lowered } := by
  rw [lower, bind_eq_ok] at h
  obtain ⟨_, g₁, hmodify, h⟩ := h
  cases hmodify
  rw [onContext_eq_ok] at h
  obtain ⟨c₁, hwork, rfl⟩ := h
  rw [Contextual.bind_eq_ok] at hwork
  obtain ⟨_, c₂, hclear, hwork⟩ := hwork
  cases hclear
  rw [Contextual.bind_eq_ok] at hwork
  obtain ⟨code, c₃, hcode, hdefine⟩ := hwork
  have hlowered := Contextual.tryCatch_throw_eq_ok hcode
  rw [Contextual.define, Contextual.step_eq_ok] at hdefine
  cases hcollector : c₃.collector.define f.codeName code with
  | ok collector =>
    rw [hcollector] at hdefine
    cases hdefine
    exact ⟨code, c₃, collector, hlowered, hcollector, rfl⟩
  | error fault =>
    rw [hcollector] at hdefine
    cases hdefine

end Generating

namespace Program

variable {p : Program} {entries : List Function} {offered : Function → Prop} {lowering : Lowering}
  {c : Context} {lowered : List Function} {f : Function}

/-- A lowering of the program does to the context what `Lowers` says of the function. -/
theorem LoweredBy.lowers (hlowering : p.LoweredBy lowering) (hgiven : p.Given entries offered)
    (h : p.Progress entries offered c lowered) (hqueued : c.queue.get? f.id = some f) {c' : Context}
    {code : String} (hlower : lowering f (c.opened f) = (.ok code, c')) {collector : Collector}
    (hdefine : c'.collector.define f.codeName code = .ok collector) :
    p.Lowers f c { c' with collector } := by
  have hdeclared := (h.queueing.queued _ _ hqueued).2.1.declared hgiven
  have hfresh : ∀ e, p.owner e = f.id → (c.opened f).table.pending.get? e = none :=
    fun e howner => h.get?_pending_eq_none hgiven hqueued howner
  -- The lowering works on a context that reserves the name and has the function off the queue.
  obtain ⟨rfl, ⟨operations, hreports, hqueue, htable⟩, hkept⟩ :=
    hlowering f (c.opened f) code c' hdeclared hlower
  have hreported := hreports.reported hdeclared hfresh
  have hcollector : collector.functions =
      c'.collector.functions.insert f.codeName (some (p.body f).code) := by
    rw [Collector.define] at hdefine
    split at hdefine
    · cases hdefine
      rfl
    · cases hdefine
  refine ⟨fun i g => ?_, ?_, fun g hg hne => ?_, fun a members => ?_, ?_, fun e => ?_, hreported.owner⟩
  · change c'.queue.get? i = some g ↔ _
    rw [hqueue, hreported.queue]
    simp only [Context.opened, SortedMap.get?_erase, Collector.contains, SortedMap.contains,
      SortedMap.get?_insert]
    by_cases hi : i = f.id
    · by_cases hname : g.codeName = f.codeName <;> simp [hi, hname]
    · by_cases hname : g.codeName = f.codeName <;> simp [hi, hname]
  · change collector.functions.get? f.codeName = _
    rw [hcollector, SortedMap.get?_insert, if_pos rfl]
  · change collector.functions.get? g.codeName = _
    rw [hcollector, SortedMap.get?_insert, if_neg hne, hkept g hg, Context.opened,
      SortedMap.get?_insert, if_neg hne]
  · change c'.table.dispatch.get? a = some members ↔ _
    rw [htable, hreported.dispatch]
    rfl
  · change c'.table.candidates = _
    rw [htable, hreported.candidates]
    rfl
  · change c'.table.pending.get? e = _
    rw [htable, hreported.pending]
    rfl

end Program

namespace Generating

variable {p : Program} {entries : List Function} {offered : Function → Prop} {lowering : Lowering}

/-- What holds once the queue stays empty. -/
structure Finished (p : Program) (entries : List Function) (offered : Function → Prop) (c : Context)
    (lowered : List Function) : Prop where
  progress : p.Progress entries offered c lowered
  queue : c.queue.isEmpty
  pending : c.table.pending = .empty
  partitioned : c.table.Partitioned

/-- Taking a function from the queue takes one that was queued. -/
theorem exists_of_dequeue_eq_ok {c c' : Context} {f : Function} (h : c.dequeue = .ok (f, c')) :
    ∃ i, c.queue.get? i = some f ∧ c' = { c with queue := c.queue.erase i } := by
  rw [Context.dequeue] at h
  split at h
  next => cases h
  next i f' rest hentries =>
    cases h
    refine ⟨i, c.queue.mem_entries_iff.1 ?_, rfl⟩
    rw [hentries]
    exact List.mem_cons_self

theorem reserve_eq_ok {c : Context} {name : String} (h : c.collector.contains name = false) :
    Contextual.reserve name c =
      (.ok true, { c with collector := ⟨c.collector.functions.insert name none⟩ }) := by
  simp [Contextual.reserve, Contextual.perform, Collector.reserve?, h]

/-- A promotion that succeeds is progress. -/
theorem progress_of_promoteReferences_eq_ok (hgiven : p.Given entries offered) {c c' : Context}
    {lowered : List Function} (h : p.Progress entries offered c lowered) {token : Option FixedPoint}
    (hpromote : c.promoteReferences = .ok (token, c')) :
    p.Progress entries offered c' lowered ∧
      (token.isSome → Finished p entries offered c' lowered) := by
  have hprogress := h.promoted hgiven
  rw [Context.promoteReferences_eq_ok h.tabling.consistent] at hpromote
  split at hpromote
  next hqueue =>
    cases hpromote
    have hready := hprogress.sameMaps
      (⟨rfl, rfl, rfl⟩ : c.promoted.table.SameMaps c.promoted.table.markReady.2)
    exact ⟨hready, fun _ => ⟨hready, hqueue, c.pending_promoted, c.partitioned_promoted⟩⟩
  next =>
    cases hpromote
    exact ⟨hprogress, fun htoken => nomatch htoken⟩

/-- What is taken out of the queue is reserved, since no text is made for it yet. -/
theorem opened_of_dequeue (hgiven : p.Given entries offered) {g g' g'' : Generator}
    {lowered : List Function} (h : p.Progress entries offered g.context lowered) {f : Function}
    {reserved : Bool} (hdequeue : onContext (.step Context.dequeue) g = some (.ok f, g'))
    (hreserve : onContext (.reserve f.codeName) g' = some (.ok reserved, g'')) :
    g.context.queue.get? f.id = some f ∧ reserved = true ∧ g''.lowered = g.lowered ∧
      g''.context.clearLocals = g.context.opened f := by
  obtain ⟨c₁, hdequeued, rfl⟩ := onContext_eq_ok.1 hdequeue
  obtain ⟨i, hqueued, rfl⟩ := exists_of_dequeue_eq_ok (Contextual.step_eq_ok.1 hdequeued)
  obtain ⟨rfl, hreached, hnotMem⟩ := h.queueing.queued i f hqueued
  obtain ⟨c₂, hreserved, rfl⟩ := onContext_eq_ok.1 hreserve
  have hfree := h.queueing.unmade f (hreached.declared hgiven) hnotMem
  have hresult := (reserve_eq_ok
    (c := { g.context with queue := g.context.queue.erase f.id }) hfree).symm.trans hreserved
  cases hresult
  exact ⟨hqueued, rfl, rfl, rfl⟩

/-- Lowering a queued function in the generator is progress with the function lowered. -/
theorem progress_of_lower (hlowering : p.LoweredBy lowering) (hgiven : p.Given entries offered)
    {c : Context} {g g' : Generator} {lowered : List Function} (h : p.Progress entries offered c lowered)
    {f : Function} (hqueued : c.queue.get? f.id = some f) (hopened : g.context.clearLocals = c.opened f)
    (hlower : lower lowering f g = some (.ok (), g')) :
    p.Progress entries offered g'.context (f :: lowered) ∧ g'.lowered = f :: g.lowered := by
  obtain ⟨code, c', collector, hcode, hdefine, rfl⟩ := exists_of_lower_eq_ok hlower
  rw [hopened] at hcode
  have hstep := hlowering.lowers hgiven h hqueued hcode hdefine
  exact ⟨h.lower hgiven hqueued hstep, rfl⟩

/-- The loop over the queue ends only when all that is reached has been lowered. The induction is on the fuel. -/
theorem generateQueued_finished (hlowering : p.LoweredBy lowering) (hgiven : p.Given entries offered)
    {before : List Function} {fuel : Nat} {g g' : Generator} {result : Nat × FixedPoint}
    {lowered : List Function} (h : p.Progress entries offered g.context lowered)
    (hlowered : g.lowered = lowered ++ before)
    (hrun : generateQueued lowering fuel g = some (.ok result, g')) :
    ∃ lowered', g'.lowered = lowered' ++ before ∧
      Finished p entries offered g'.context lowered' := by
  induction fuel generalizing g lowered result with
  | zero => cases hrun
  | succ fuel ih =>
    rw [generateQueued, bind_eq_ok] at hrun
    obtain ⟨_, _, hget, hrun⟩ := hrun
    cases hget
    split at hrun
    next hqueue =>
      rw [bind_eq_ok] at hrun
      obtain ⟨token, g₁, honContext, hrun⟩ := hrun
      obtain ⟨c₁, hpromote, rfl⟩ := onContext_eq_ok.1 honContext
      obtain ⟨hprogress, hfinished⟩ :=
        progress_of_promoteReferences_eq_ok hgiven h (Contextual.step_eq_ok.1 hpromote)
      -- The loop ends with evidence only, and evidence is issued only when nothing is due any more.
      cases token with
      | some fixedPoint =>
        cases hrun
        exact ⟨lowered, hlowered, hfinished rfl⟩
      | none => exact ih (g := { g with context := c₁ }) hprogress hlowered hrun
    next hqueue =>
      rw [bind_eq_ok] at hrun
      obtain ⟨f, g₁, hdequeue, hrun⟩ := hrun
      rw [bind_eq_ok] at hrun
      obtain ⟨reserved, g₂, hreserve, hrun⟩ := hrun
      obtain ⟨hqueued, rfl, hkept, hopened⟩ := opened_of_dequeue hgiven h hdequeue hreserve
      rw [if_pos rfl, bind_eq_ok] at hrun
      obtain ⟨_, g₃, hlower, hrun⟩ := hrun
      obtain ⟨hprogress, hlisted⟩ := progress_of_lower hlowering hgiven h hqueued hopened hlower
      rw [bind_eq_ok] at hrun
      obtain ⟨_, g₄, hrest, hrun⟩ := hrun
      cases hrun
      refine ih hprogress ?_ hrest
      rw [hlisted, hkept, hlowered]
      rfl

/-- Making dispatchers adds to the functions that are made, and changes nothing else. -/
theorem forM_dispatcher_eq_ok {entries : List (Arity × FunctionSet)} {g g' : Generator}
    (h : entries.forM (fun e => onContext do discard (Contextual.dispatcher e.1 e.2)) g =
      some (.ok (), g')) :
    ∃ collector : Collector, g' = { g with context := { g.context with collector } } ∧
      ∀ f : Function, collector.functions.get? f.codeName =
        g.context.collector.functions.get? f.codeName := by
  induction entries generalizing g with
  | nil =>
    cases h
    exact ⟨g'.context.collector, rfl, fun _ => rfl⟩
  | cons e rest ih =>
    rw [List.forM, bind_eq_ok] at h
    obtain ⟨_, g₁, hfirst, hrest⟩ := h
    obtain ⟨c, hwork, rfl⟩ := onContext_eq_ok.1 hfirst
    have hc : c = (Contextual.dispatcher e.1 e.2 g.context).2 := by
      rw [← Contextual.discard_snd, hwork]
    obtain ⟨collector, rfl, hkept⟩ := ih hrest
    refine ⟨collector, ?_, fun f => (hkept f).trans ?_⟩
    · rw [hc]
      rfl
    · change c.collector.functions.get? f.codeName = _
      rw [hc, Contextual.get?_codeName_dispatcher]

/-- The maps are handed out only if nothing is queued, and the table starts over. -/
theorem consumeDispatch_eq_ok {c c' : Context} {fixedPoint : FixedPoint}
    {maps : DispatchMap × DispatchMap} (h : c.consumeDispatch fixedPoint = .ok (maps, c')) :
    maps = (c.table.dispatch, c.table.candidates) ∧ c.queue.isEmpty ∧ c' = { c with table := {} } := by
  obtain ⟨hqueue, hpending, hphase⟩ := (c.consumeDispatch_eq_ok_iff fixedPoint).1 ⟨maps, c', h⟩
  rw [c.consumeDispatch_eq_ok_of hqueue hpending hphase] at h
  cases h
  exact ⟨rfl, hqueue, rfl⟩

/-- The dispatchers are made of the two maps as they are then. -/
theorem generateDispatchers_eq_ok {fixedPoint : FixedPoint} {g g' : Generator}
    {maps : DispatchMap × DispatchMap} (h : generateDispatchers fixedPoint g = some (.ok maps, g')) :
    maps = (g.context.table.dispatch, g.context.table.candidates) ∧ g.context.queue.isEmpty ∧
      ∃ collector : Collector, g' = { g with context := { g.context with table := {}, collector } } ∧
        ∀ f : Function, collector.functions.get? f.codeName =
          g.context.collector.functions.get? f.codeName := by
  rw [generateDispatchers, bind_eq_ok] at h
  obtain ⟨maps', g₁, honContext, h⟩ := h
  obtain ⟨c, hconsume, rfl⟩ := onContext_eq_ok.1 honContext
  rw [bind_eq_ok] at h
  obtain ⟨_, g₂, hdispatchers, h⟩ := h
  cases h
  obtain ⟨hmaps, hqueue, rfl⟩ := consumeDispatch_eq_ok (Contextual.step_eq_ok.1 hconsume)
  obtain ⟨collector, rfl, hkept⟩ := forM_dispatcher_eq_ok hdispatchers
  exact ⟨hmaps, hqueue, collector, rfl, hkept⟩

/-- Queueing functions one by one in the generator queues them all in the context. -/
theorem forM_enqueue (functions : List Function) (g : Generator) :
    functions.forM (fun f => onContext do discard (Contextual.perform (·.enqueue f))) g =
      some (.ok (), { g with context := g.context.enqueueAll functions }) := by
  induction functions generalizing g with
  | nil => rfl
  | cons f rest ih =>
    rw [List.forM]
    exact ih { g with context := (g.context.enqueue f).2 }

/-- Taking the functions hands over the collector's code and empties it. -/
theorem takeFunctions_eq_ok {c c' : Context} {code : String}
    (h : Contextual.takeFunctions c = (.ok code, c')) :
    c.collector.take = .ok (code, {}) ∧ c' = { c with collector := {} } := by
  rw [Contextual.takeFunctions, Contextual.step_eq_ok] at h
  cases htake : c.collector.take with
  | ok result =>
    rw [htake] at h
    cases h
    have hrest : result.2 = {} := by
      rw [Collector.take] at htake
      split at htake <;> cases htake
      rfl
    rw [← hrest]
    exact ⟨rfl, rfl⟩
  | error fault =>
    rw [htake] at h
    cases h

variable {c c' : Context} {lowered : List Function}

/-- From a fresh context, queueing the entries is the progress to begin with. -/
theorem progress_start (hfresh : p.Fresh c) (hentries : ∀ f ∈ entries, p.declared f) :
    p.Progress entries c.table.candidates.Holds (c.enqueueAll entries) [] := by
  have hgiven : p.Given entries c.table.candidates.Holds :=
    ⟨hentries, fun f hf => hfresh.candidates.declared_of_holds hf⟩
  have hdispatch : ∀ a, c.table.dispatch.get? a = none := c.table.dispatch.isEmpty_iff.1 hfresh.dispatch
  have hpending : ∀ e, c.table.pending.get? e = none := c.table.pending.isEmpty_iff.1 hfresh.pending
  have hqueue : ∀ i, c.queue.get? i = none := c.queue.isEmpty_iff.1 hfresh.queue
  have hcollector : ∀ name, c.collector.functions.get? name = none :=
    c.collector.functions.isEmpty_iff.1 hfresh.collector
  have hsame := c.sameMaps_enqueueAll entries
  have hqueueing : p.Queueing entries c.table.candidates.Holds (fun _ => False) c [] := by
    refine ⟨.nil, fun f hf => (nomatch hf), fun f hf => (nomatch hf), fun f _ _ => ?_, fun i f hf => ?_,
      fun f hf => hf.elim⟩
    · rw [Collector.contains, SortedMap.contains, hcollector, Option.isSome_none]
    · rw [hqueue] at hf
      cases hf
  refine ⟨(hqueueing.enqueueAll hgiven fun f hf => .entry hf).mono fun f hdue => ?_, ?_⟩
  · rcases hdue with hentry | ⟨h, hmem, _⟩ | ⟨members, hmembers, _⟩
    · exact .inr hentry
    · cases hmem
    · rw [hsame.dispatch, hdispatch] at hmembers
      cases hmembers
  · refine Program.Tabling.sameMaps ⟨fun a => ?_, fun f => ?_, fun e he => ?_, ⟨fun a members hmembers => ?_,
      hfresh.candidates, fun f hf => ?_⟩, hfresh.inhabited, fun a members hmembers _ => ?_⟩ hsame
    · simp [SortedMap.contains, hdispatch]
    · simp [DispatchMap.Holds, hdispatch, SortedMap.mem_values_iff, hpending]
    · rw [SortedMap.contains, hpending] at he
      cases he
    · rw [hdispatch] at hmembers
      cases hmembers
    · obtain ⟨e, he⟩ := c.table.pending.mem_values_iff.1 hf
      rw [hpending] at he
      cases he
    · rw [hdispatch] at hmembers
      cases hmembers

/-- At the end the maps hold what was offered and what is referred to by value. -/
theorem Finished.holds_iff (h : Finished p entries offered c lowered) (f : Function) :
    c.table.dispatch.Holds f ∨ c.table.candidates.Holds f ↔
      offered f ∨ ∃ h ∈ lowered, f ∈ (p.body h).references.values := by
  have hknown := h.progress.tabling.known f
  have hempty : f ∉ (SortedMap.empty : SortedMap NodeId Function).values := List.not_mem_nil
  rw [h.pending] at hknown
  simpa only [hempty, or_false] using hknown

theorem Finished.mem_lowered_iff (h : Finished p entries offered c lowered) (f : Function) :
    f ∈ lowered ↔ p.Reached entries offered f :=
  ⟨h.progress.queueing.reached f,
    fun hf => h.progress.mem_lowered_of_reached h.queue h.pending h.partitioned hf⟩

/-- When all is done, the collected code and the maps are the closure of the entries. -/
theorem Finished.closure (h : Finished p entries offered c lowered)
    {name code : String} {collector rest : Collector} (htake : collector.take = .ok (code, rest))
    (hkept : ∀ f : Function, collector.functions.get? f.codeName = c.collector.functions.get? f.codeName) :
    p.Closure entries offered
      { name, code, dispatch := c.table.dispatch, leftover := c.table.candidates } lowered := by
  have hreached : ∀ f, f ∈ lowered ↔ p.Reached entries offered f := h.mem_lowered_iff
  have hcalled : ∀ a, c.table.dispatch.contains a ↔ p.Called entries offered a := by
    intro a
    simp only [h.progress.tabling.called, hreached, Program.Called]
  have hpointed : ∀ f, c.table.dispatch.Holds f ∨ c.table.candidates.Holds f ↔
      p.Pointed entries offered f := by
    intro f
    simp only [h.holds_iff, hreached, Program.Pointed]
  have hfiled := h.progress.tabling.wellFiled
  have hapart : ∀ a, c.table.dispatch.contains a → ¬ c.table.candidates.contains a :=
    fun a ha => Bool.eq_false_iff.1 (h.partitioned a ha)
  refine ⟨h.progress.queueing.nodup, hreached, hcalled, fun a members hmembers f => ?_, fun a => ?_,
    fun a candidates hcandidates f => ?_, collector, rest, htake, fun f hf => ⟨fun hf' => ?_, fun hf' => ?_⟩⟩
  · rw [hfiled.dispatch.mem_values_iff hmembers, ← hpointed]
    refine and_congr_left fun harity => ⟨.inl, fun hf => hf.resolve_right fun hcandidate => ?_⟩
    refine hapart a ?_ (harity ▸ hcandidate.contains)
    rw [SortedMap.contains, hmembers, Option.isSome_some]
  · rw [← hcalled]
    refine ⟨fun ha => ⟨?_, fun hdispatched => hapart a hdispatched ha⟩, ?_⟩
    · obtain ⟨f, hf, harity⟩ := h.progress.tabling.inhabited a ha
      exact ⟨f, (hpointed f).1 (.inr hf), harity⟩
    · rintro ⟨⟨f, hf, rfl⟩, hnot⟩
      rcases (hpointed f).2 hf with hmember | hcandidate
      · exact absurd hmember.contains hnot
      · exact hcandidate.contains
  · rw [hfiled.candidates.mem_values_iff hcandidates, ← hpointed]
    refine and_congr_left fun harity => ⟨.inr, fun hf => hf.resolve_left fun hmember => ?_⟩
    refine hapart a (harity ▸ hmember.contains) ?_
    rw [SortedMap.contains, hcandidates, Option.isSome_some]
  · rw [Collector.code?, hkept, h.progress.queueing.made f ((hreached f).2 hf')]
    rfl
  · rw [Collector.contains, SortedMap.contains, hkept]
    exact h.progress.queueing.unmade f hf fun hmem => hf' ((hreached f).1 hmem)

/-- An object is what was made of it when the queue was found empty and the maps were handed out. -/
theorem exists_of_generateObject_eq_ok {lowering : Lowering} {fuel : Nat} {name : String}
    {entries : List Function} {g g' : Generator} {object : GeneratedObject}
    (h : generateObject lowering fuel name entries g = some (.ok object, g')) :
    ∃ result g₁, generateQueued lowering fuel { g with context := g.context.enqueueAll entries } =
        some (.ok result, g₁) ∧ g₁.context.queue.isEmpty ∧
      g' = { g₁ with context := { g₁.context with table := {}, collector := {} } } ∧
      ∃ collector : Collector, collector.take = .ok (object.code, {}) ∧
        object = { name, code := object.code, dispatch := g₁.context.table.dispatch
                   leftover := g₁.context.table.candidates } ∧
        ∀ f : Function, collector.functions.get? f.codeName =
          g₁.context.collector.functions.get? f.codeName := by
  rw [generateObject, bind_eq_ok] at h
  obtain ⟨_, g₁, henqueue, h⟩ := h
  rw [forM_enqueue] at henqueue
  cases henqueue
  rw [bind_eq_ok] at h
  obtain ⟨⟨count, fixedPoint⟩, g₂, hqueued, h⟩ := h
  rw [bind_eq_ok] at h
  obtain ⟨maps, g₃, hdispatchers, h⟩ := h
  obtain ⟨rfl, hqueue, collector, rfl, hkept⟩ := generateDispatchers_eq_ok hdispatchers
  rw [bind_eq_ok] at h
  obtain ⟨code, g₄, honContext, h⟩ := h
  obtain ⟨c, htake, rfl⟩ := onContext_eq_ok.1 honContext
  obtain ⟨htaken, rfl⟩ := takeFunctions_eq_ok htake
  cases h
  exact ⟨_, g₂, hqueued, hqueue, rfl, collector, htaken, rfl, hkept⟩

/-- When an object is handed out, its maps are those of a queue that stays empty, and its code has what was
made until then. -/
theorem finished_of_generateObject_eq_ok {lowering : Lowering} (hlowering : p.LoweredBy lowering)
    {g g' : Generator} (hfresh : p.Fresh g.context) (hentries : ∀ f ∈ entries, p.declared f) {fuel : Nat}
    {name : String} {object : GeneratedObject}
    (h : generateObject lowering fuel name entries g = some (.ok object, g')) :
    ∃ c lowered, Finished p entries g.context.table.candidates.Holds c lowered ∧
      g'.lowered = lowered ++ g.lowered ∧
      ∃ collector : Collector, collector.take = .ok (object.code, {}) ∧
        object = { name, code := object.code, dispatch := c.table.dispatch, leftover := c.table.candidates } ∧
        ∀ f : Function, collector.functions.get? f.codeName = c.collector.functions.get? f.codeName := by
  have hgiven : p.Given entries g.context.table.candidates.Holds :=
    ⟨hentries, fun f hf => hfresh.candidates.declared_of_holds hf⟩
  obtain ⟨result, g₁, hqueued, _, rfl, hmade⟩ := exists_of_generateObject_eq_ok h
  obtain ⟨lowered, hlowered, hfinished⟩ := generateQueued_finished hlowering hgiven
    (progress_start hfresh hentries) (List.nil_append _).symm hqueued
  exact ⟨g₁.context, lowered, hfinished, hlowered, hmade⟩

/-- Whatever order a lowering reports things in, what `generateObject` hands over holds exactly what the entries can
reach: the code of these functions, each lowered once, their dispatchers, and in the maps that are left the functions
referred to by value. -/
theorem closure_of_generateObject_eq_ok (p : Program) {lowering : Lowering}
    (hlowering : p.LoweredBy lowering) {g g' : Generator} (hfresh : p.Fresh g.context)
    {entries : List Function} (hentries : ∀ f ∈ entries, p.declared f) {fuel : Nat} {name : String}
    {object : GeneratedObject}
    (h : generateObject lowering fuel name entries g = some (.ok object, g')) :
    ∃ lowered, g'.lowered = lowered ++ g.lowered ∧
      p.Closure entries g.context.table.candidates.Holds object lowered := by
  obtain ⟨c, lowered, hfinished, hlowered, collector, htaken, hobject, hkept⟩ :=
    finished_of_generateObject_eq_ok hlowering hfresh hentries h
  refine ⟨lowered, hlowered, ?_⟩
  rw [hobject]
  exact hfinished.closure htaken hkept

end Generating

namespace Callback

def main : Function := { id := 1, name := "main" }

def direct : Function := { id := 2, name := "direct" }

def pointed : Function := { id := 3, name := "pointed" }

def program : Program where
  declared f := f ∈ [main, direct, pointed]
  body f :=
    if f.id = 1 then
      { code := "main", callees := [direct], references := SortedMap.empty.insert 10 pointed
        pointerCalls := [⟨0, 0⟩] }
    else { code := f.name, callees := [], references := .empty, pointerCalls := [] }
  owner _ := 1
  idsIdentify f g hf hg h := by
    simp only [List.mem_cons, List.not_mem_nil, or_false] at hf hg
    rcases hf with rfl | rfl | rfl <;> rcases hg with rfl | rfl | rfl <;> first | rfl | cases h
  declared_callee f g _ hg := by
    split at hg
    · rw [List.mem_singleton.1 hg]
      exact .tail _ (.head _)
    · cases hg
  declared_reference f g _ hg := by
    split at hg
    · rw [List.mem_singleton.1 hg]
      exact .tail _ (.tail _ (.head _))
    · cases hg

/-- The reports of the lowering, some of them made twice and one of them taken back. -/
def reports (f : Function) : List DispatchOperation :=
  if f.id = 1 then
    [.collect 11 direct, .enqueue direct, .register ⟨0, 0⟩, .forget 11, .collect 10 pointed,
      .enqueue direct]
  else []

def lowering : Lowering := fun f c => (.ok (program.body f).code, c.operateAll (reports f))

/-- The lowering of this program lowers it as its bodies say. -/
theorem loweredBy_lowering : program.LoweredBy lowering := by
  intro f c code c' hf h
  cases h
  have hreports : program.Reports f (reports f) := by
    by_cases hmain : f.id = 1
    · have hbody : program.body f = ⟨"main", [direct], SortedMap.empty.insert 10 pointed, [⟨0, 0⟩]⟩ :=
        if_pos hmain
      rw [reports, if_pos hmain]
      refine ⟨fun o ho => ?_, fun g hg => ?_, ?_, fun a ha => ?_⟩
      · simp only [List.mem_cons, List.not_mem_nil, or_false] at ho
        rcases ho with rfl | rfl | rfl | rfl | rfl | rfl <;>
          simp [Program.MayReport, hmain, program]
      · rw [hbody] at hg
        rw [List.mem_singleton.1 hg]
        exact .tail _ (.head _)
      · rw [hbody]
        rfl
      · rw [hbody] at ha
        rw [List.mem_singleton.1 ha]
        exact .tail _ (.tail _ (.head _))
    · have hbody : program.body f = ⟨f.name, [], .empty, []⟩ := if_neg hmain
      rw [reports, if_neg hmain]
      refine ⟨fun o ho => (nomatch ho), fun g hg => ?_, ?_, fun a ha => ?_⟩
      · rw [hbody] at hg
        cases hg
      · rw [hbody]
        rfl
      · rw [hbody] at ha
        cases ha
  refine ⟨rfl, ⟨reports f, hreports, rfl, rfl⟩, fun g _ => ?_⟩
  rw [Program.collector_operateAll hreports.mayReport]

/-- The object of the program is generated, so it holds exactly what its entries can reach. -/
theorem exists_generateObject_eq_ok :
    ∃ object g', Generating.generateObject lowering 8 "Test_4" [main] { context := { settings := {} } } =
        some (.ok object, g') ∧
      ∃ lowered, g'.lowered = lowered ++ [] ∧
        program.Closure [main] (DispatchMap.Holds .empty) object lowered := by
  have hfresh : program.Fresh { settings := {} } :=
    ⟨rfl, rfl, rfl, rfl, DispatchMap.wellFiled_empty, fun a h => absurd h Bool.false_ne_true⟩
  have hrun : (Generating.generateObject lowering 8 "Test_4" [main]
      { context := { settings := {} } }).any (·.1.isOk) := by decide +kernel
  obtain ⟨⟨result, g'⟩, hok, hresult⟩ := (Option.any_eq_true _ _).1 hrun
  cases result with
  | error fault => cases hresult
  | ok object =>
    exact ⟨object, g', hok, Generating.closure_of_generateObject_eq_ok program loweredBy_lowering
      hfresh (fun f hf => List.mem_singleton.1 hf ▸ .head _) hok⟩

end Callback

end YulBackend
