import YulBackend.Proofs.Codegen.Generation

namespace YulBackend

namespace Context

/-- The context in which the body of a function is lowered, once the function is taken from the queue. -/
def reserving (c : Context) (f : Function) : Context :=
  { c with collector := ⟨c.collector.functions.insert f.codeName none⟩, locals := .empty }

theorem get?_reserving (c : Context) (f : Function) :
    (c.reserving f).collector.functions.get? f.codeName = some none := by
  rw [reserving, SortedMap.get?_insert, if_pos rfl]

theorem contains_reserving (c : Context) (f : Function) (name : String) :
    (c.reserving f).collector.contains name = (name = f.codeName || c.collector.contains name) :=
  SortedMap.contains_alter _ _ _ _

end Context

namespace Contextual

variable {α β : Type} {x : Contextual α} {c c' : Context}

/-- Effects on the context go on behind a part that succeeded. -/
theorem bind_of_eq_ok {a : α} (h : x c = (.ok a, c')) (k : α → Contextual β) :
    (x >>= k) c = k a c' := by
  change ExceptT.bindCont k (x c).1 (x c).2 = _
  rw [h]
  rfl

/-- Effects on the context stop at a part that failed. -/
theorem bind_of_eq_error {fault : Fault} (h : x c = (.error fault, c')) (k : α → Contextual β) :
    (x >>= k) c = (.error fault, c') := by
  change ExceptT.bindCont k (x c).1 (x c).2 = _
  rw [h]
  rfl

/-- A handler is not asked when there is no fault. -/
theorem tryCatch_of_eq_ok {a : α} (h : x c = (.ok a, c')) (handle : Fault → Contextual α) :
    tryCatch x handle c = (.ok a, c') := by
  simp only [tryCatch, tryCatchThe, MonadExceptOf.tryCatch, ExceptT.tryCatch, ExceptT.mk, bind,
    StateT.bind, h]
  rfl

theorem tryCatch_of_eq_error {fault : Fault} (h : x c = (.error fault, c'))
    (handle : Fault → Contextual α) : tryCatch x handle c = handle fault c' := by
  simp only [tryCatch, tryCatchThe, MonadExceptOf.tryCatch, ExceptT.tryCatch, ExceptT.mk, bind,
    StateT.bind, h]

end Contextual

namespace Generating

section

variable {α β : Type} {x : Generating α} {g g' : Generator}

/-- Effects on the generator go on behind a part that succeeded. -/
theorem bind_of_eq_ok {a : α} (h : x g = some (.ok a, g')) (k : α → Generating β) :
    (x >>= k) g = k a g' := by
  change (x g).bind (fun r => ExceptT.bindCont k r.1 r.2) = _
  rw [h]
  rfl

/-- Effects on the generator stop at a part that failed. -/
theorem bind_of_eq_error {fault : Fault} (h : x g = some (.error fault, g'))
    (k : α → Generating β) : (x >>= k) g = some (.error fault, g') := by
  change (x g).bind (fun r => ExceptT.bindCont k r.1 r.2) = _
  rw [h]
  rfl

/-- Effects on the generator do not end if a part does not. -/
theorem bind_of_eq_none (h : x g = none) (k : α → Generating β) : (x >>= k) g = none := by
  change (x g).bind (fun r => ExceptT.bindCont k r.1 r.2) = _
  rw [h]
  rfl

theorem onContext_of_eq {work : Contextual α} {result : Except Fault α} {c : Context}
    (h : work g.context = (result, c)) : onContext work g = some (result, { g with context := c }) := by
  rw [onContext, h]

end

/-- What the generator does before it looks at the queue again. -/
inductive Round
  | lower (f : Function)
  /-- The name of a queued function was taken meanwhile. -/
  | skip (f : Function)
  /-- The queue was empty, and references were promoted; whether that was the end. -/
  | promote (complete : Bool)

/-- The functions whose lowering is started in some rounds, earliest first. -/
def Round.lowered (rounds : List Round) : List Function :=
  rounds.filterMap fun
    | .lower f => some f
    | .skip _ => none
    | .promote _ => none

@[simp]
theorem Round.lowered_cons_lower (f : Function) (rounds : List Round) :
    lowered (.lower f :: rounds) = f :: lowered rounds := rfl

theorem Round.lowered_append (rounds rounds' : List Round) :
    lowered (rounds ++ rounds') = lowered rounds ++ lowered rounds' := List.filterMap_append

variable {lowering : Lowering} {g g' g'' : Generator} {round : Round}

/-- A round after which the generator goes on. -/
inductive Takes (lowering : Lowering) : Generator → Round → Generator → Prop
  | promote {g : Generator} {c : Context} (hqueue : g.context.queue.isEmpty)
      (hpromote : g.context.promoteReferences = .ok (none, c)) :
      Takes lowering g (.promote false) { g with context := c }
  | skip {g : Generator} {f : Function} {c : Context} (hdequeue : g.context.dequeue = .ok (f, c))
      (htaken : c.collector.contains f.codeName) : Takes lowering g (.skip f) { g with context := c }
  | lower {g : Generator} {f : Function} {c c' : Context} {code : String} {collector : Collector}
      (hdequeue : g.context.dequeue = .ok (f, c))
      (hfree : c.collector.contains f.codeName = false)
      (hlower : lowering f (c.reserving f) = (.ok code, c'))
      (hdefine : c'.collector.define f.codeName code = .ok collector) :
      Takes lowering g (.lower f) { context := { c' with collector }, lowered := f :: g.lowered }

/-- The last round: nothing is left to lower, or a lowering fails. -/
inductive Ends (lowering : Lowering) : Generator → Round → Except Fault FixedPoint → Generator → Prop
  | complete {g : Generator} {c : Context} {fixedPoint : FixedPoint} (hqueue : g.context.queue.isEmpty)
      (hpromote : g.context.promoteReferences = .ok (some fixedPoint, c)) :
      Ends lowering g (.promote true) (.ok fixedPoint) { g with context := c }
  | fault {g : Generator} {f : Function} {c c' : Context} {fault : Fault}
      (hdequeue : g.context.dequeue = .ok (f, c))
      (hfree : c.collector.contains f.codeName = false)
      (hlower : lowering f (c.reserving f) = (.error fault, c')) :
      Ends lowering g (.lower f) (.error fault)
        { context := { c' with collector := c'.collector.release f.codeName }
          lowered := f :: g.lowered }

/-- Rounds up to the last one. -/
inductive Runs (lowering : Lowering) :
    Generator → List Round → Except Fault FixedPoint → Generator → Prop
  | last {g g' : Generator} {round : Round} {outcome : Except Fault FixedPoint}
      (hends : Ends lowering g round outcome g') : Runs lowering g [round] outcome g'
  | cons {g g' g'' : Generator} {round : Round} {rounds : List Round}
      {outcome : Except Fault FixedPoint} (htakes : Takes lowering g round g')
      (hruns : Runs lowering g' rounds outcome g'') : Runs lowering g (round :: rounds) outcome g''

/-- A function can be taken only from a queue that is not empty. -/
theorem isEmpty_queue_of_dequeue_eq_ok {c c' : Context} {f : Function} (h : c.dequeue = .ok (f, c')) :
    c.queue.isEmpty = false := by
  rw [Context.dequeue] at h
  split at h
  next => cases h
  next hentries => rw [SortedMap.isEmpty, hentries, List.isEmpty_cons]

private theorem started (f : Function) (g : Generator) :
    (modify fun g => { g with lowered := f :: g.lowered } : Generating Unit) g =
      some (.ok (), { g with lowered := f :: g.lowered }) := rfl

private theorem cleared (c : Context) :
    Contextual.perform (fun c => ((), c.clearLocals)) c = (.ok (), c.clearLocals) := rfl

/-- Lowering a function clears the local variables, runs the lowering and files the code. -/
theorem lower_of_eq_ok {f : Function} {code : String} {c' : Context} {collector : Collector}
    (hlower : lowering f g.context.clearLocals = (.ok code, c'))
    (hdefine : c'.collector.define f.codeName code = .ok collector) :
    lower lowering f g =
      some (.ok (), { context := { c' with collector }, lowered := f :: g.lowered }) := by
  rw [lower, bind_of_eq_ok (started f g)]
  refine onContext_of_eq ?_
  rw [Contextual.bind_of_eq_ok (cleared _), Contextual.bind_of_eq_ok (Contextual.tryCatch_of_eq_ok hlower _)]
  refine Contextual.step_eq_ok.2 ?_
  rw [hdefine]
  rfl

/-- Lowering a function fails with the fault of the lowering. -/
theorem lower_of_eq_error {f : Function} {fault : Fault} {c' : Context}
    (hlower : lowering f g.context.clearLocals = (.error fault, c')) :
    lower lowering f g = some (.error fault,
      { context := { c' with collector := c'.collector.release f.codeName }
        lowered := f :: g.lowered }) := by
  rw [lower, bind_of_eq_ok (started f g)]
  refine onContext_of_eq ?_
  rw [Contextual.bind_of_eq_ok (cleared _)]
  exact Contextual.bind_of_eq_error (Contextual.tryCatch_of_eq_error hlower _) _

/-- On an empty queue the loop promotes, and ends if that leaves the queue empty. -/
theorem generateQueued_of_isEmpty (hqueue : g.context.queue.isEmpty) {token : Option FixedPoint}
    {c : Context} (hpromote : g.context.promoteReferences = .ok (token, c)) (fuel : Nat) :
    generateQueued lowering (fuel + 1) g =
      match token with
      | some fixedPoint => some (.ok (0, fixedPoint), { g with context := c })
      | none => generateQueued lowering fuel { g with context := c } := by
  rw [generateQueued, bind_of_eq_ok (a := g) rfl, if_pos hqueue,
    bind_of_eq_ok (onContext_of_eq (Contextual.step_eq_ok.2 hpromote))]
  cases token <;> rfl

/-- The loop passes by a queued function whose code is there. -/
theorem generateQueued_of_taken {f : Function} {c : Context} (hdequeue : g.context.dequeue = .ok (f, c))
    (htaken : c.collector.contains f.codeName) (fuel : Nat) :
    generateQueued lowering (fuel + 1) g = generateQueued lowering fuel { g with context := c } := by
  have hqueue : ¬ g.context.queue.isEmpty := by simp [isEmpty_queue_of_dequeue_eq_ok hdequeue]
  have hreserve : Contextual.reserve f.codeName c = (.ok false, c) := by
    simp [Contextual.reserve, Contextual.perform, Collector.reserve?, htaken]
  rw [generateQueued, bind_of_eq_ok (a := g) rfl, if_neg hqueue,
    bind_of_eq_ok (onContext_of_eq (Contextual.step_eq_ok.2 hdequeue)),
    bind_of_eq_ok (onContext_of_eq hreserve)]
  rfl

/-- The loop lowers a queued function whose code is not there, and goes on. -/
theorem generateQueued_of_free {f : Function} {c : Context} (hdequeue : g.context.dequeue = .ok (f, c))
    (hfree : c.collector.contains f.codeName = false) (fuel : Nat) :
    generateQueued lowering (fuel + 1) g =
      (lower lowering f >>= fun _ => do
        let (count, fixedPoint) ← generateQueued lowering fuel
        return (count + 1, fixedPoint))
        { g with context := { c with collector := ⟨c.collector.functions.insert f.codeName none⟩ } } := by
  have hqueue : ¬ g.context.queue.isEmpty := by simp [isEmpty_queue_of_dequeue_eq_ok hdequeue]
  rw [generateQueued, bind_of_eq_ok (a := g) rfl, if_neg hqueue,
    bind_of_eq_ok (onContext_of_eq (Contextual.step_eq_ok.2 hdequeue)),
    bind_of_eq_ok (onContext_of_eq (reserve_eq_ok hfree))]
  rfl

/-- What a generator gives after some rounds: the number of functions lowered in them is added. -/
def counted (rounds : List Round) (outcome : Except Fault FixedPoint) :
    Except Fault (Nat × FixedPoint) :=
  outcome.map fun fixedPoint => ((Round.lowered rounds).length, fixedPoint)

/-- The generator takes one step for each round. -/
theorem Runs.generateQueued_eq {rounds : List Round} {outcome : Except Fault FixedPoint}
    (h : Runs lowering g rounds outcome g') (fuel : Nat) :
    generateQueued lowering fuel g =
      if rounds.length ≤ fuel then some (counted rounds outcome, g') else none := by
  induction h generalizing fuel with
  | @last g g' round outcome hends =>
    cases fuel with
    | zero => rfl
    | succ fuel =>
      rw [if_pos (by simp)]
      cases hends with
      | complete hqueue hpromote =>
        rw [generateQueued_of_isEmpty hqueue hpromote]
        rfl
      | fault hdequeue hfree hlower =>
        rw [generateQueued_of_free hdequeue hfree, bind_of_eq_error (lower_of_eq_error hlower)]
        rfl
  | @cons g g' g'' round rounds outcome htakes hruns ih =>
    cases fuel with
    | zero => rfl
    | succ fuel =>
      simp only [List.length_cons, Nat.add_le_add_iff_right]
      cases htakes with
      | promote hqueue hpromote =>
        rw [generateQueued_of_isEmpty hqueue hpromote]
        exact ih fuel
      | skip hdequeue htaken =>
        rw [generateQueued_of_taken hdequeue htaken]
        exact ih fuel
      | lower hdequeue hfree hlower hdefine =>
        rw [generateQueued_of_free hdequeue hfree, bind_of_eq_ok (lower_of_eq_ok hlower hdefine)]
        have hrest := ih fuel
        split at hrest
        next hfuel =>
          rw [if_pos hfuel]
          cases outcome with
          | ok fixedPoint => rw [bind_of_eq_ok hrest]; rfl
          | error fault => rw [bind_of_eq_error hrest]; rfl
        next hfuel =>
          rw [if_neg hfuel, bind_of_eq_none hrest]

/-- The generator keeps a list of the functions lowered, latest first. -/
theorem Runs.lowered_eq {rounds : List Round} {outcome : Except Fault FixedPoint}
    (h : Runs lowering g rounds outcome g') :
    g'.lowered = (Round.lowered rounds).reverse ++ g.lowered := by
  induction h with
  | last hends => cases hends <;> rfl
  | cons htakes _ ih =>
    rw [ih]
    cases htakes with
    | promote hqueue hpromote => rfl
    | skip hdequeue htaken => rfl
    | lower hdequeue hfree hlower hdefine =>
      rw [Round.lowered_cons_lower, List.reverse_cons, List.append_assoc, List.singleton_append]

end Generating

end YulBackend
