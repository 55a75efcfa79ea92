import Mathlib.Data.Finset.Card
import Mathlib.Data.Prod.Lex
import YulBackend.Proofs.Codegen.ReferencesWithin
import YulBackend.Proofs.Codegen.Rounds

namespace YulBackend

variable {functions : List Function}

namespace Context

variable {c c' : Context}

/-- The names of these functions that are not taken. -/
def free (functions : List Function) (c : Context) : Finset String :=
  {name ∈ (functions.map Function.codeName).toFinset | c.collector.contains name = false}

/-- The queued functions whose names are taken. -/
def stale (c : Context) : List Function := c.queue.values.filter (c.collector.contains ·.codeName)

/-- What every round makes less: the free names, or else the queued functions whose names are taken. An empty
queue counts for more than one without such functions, so that a promotion may fill it. -/
def weight (functions : List Function) (c : Context) : ℕ ×ₗ ℕ :=
  toLex ((c.free functions).card, 2 * c.stale.length + if c.queue.isEmpty then 1 else 0)

theorem mem_free_iff {f : Function} (hf : f ∈ functions) :
    f.codeName ∈ c.free functions ↔ c.collector.contains f.codeName = false := by
  rw [free, Finset.mem_filter, List.mem_toFinset]
  exact and_iff_right (List.mem_map_of_mem hf)

/-- A function whose code comes to be there leaves fewer free ones. -/
theorem free_ssubset (hkept : ∀ f ∈ functions, c.collector.contains f.codeName →
    c'.collector.contains f.codeName) {f : Function} (hf : f ∈ functions)
    (hfree : c.collector.contains f.codeName = false) (htaken : c'.collector.contains f.codeName) :
    c'.free functions ⊂ c.free functions := by
  have hsubset : c'.free functions ⊆ c.free functions := by
    intro name hname
    obtain ⟨hmem, hname⟩ := Finset.mem_filter.1 hname
    obtain ⟨g, hg, rfl⟩ := List.mem_map.1 (List.mem_toFinset.1 hmem)
    refine (mem_free_iff hg).2 (Bool.eq_false_iff.2 fun hold => ?_)
    rw [hkept g hg hold] at hname
    cases hname
  refine (Finset.ssubset_iff_of_subset hsubset).2 ⟨f.codeName, (mem_free_iff hf).2 hfree, ?_⟩
  rw [mem_free_iff hf, htaken]
  exact Bool.noConfusion

/-- The weight goes down when the code of a free function comes to be there, whatever happens to the queue. -/
theorem weight_lt_of_taken (hkept : ∀ f ∈ functions, c.collector.contains f.codeName →
    c'.collector.contains f.codeName) {f : Function} (hf : f ∈ functions)
    (hfree : c.collector.contains f.codeName = false) (htaken : c'.collector.contains f.codeName) :
    c'.weight functions < c.weight functions :=
  Prod.Lex.toLex_lt_toLex.2 (.inl (Finset.card_lt_card (free_ssubset hkept hf hfree htaken)))

theorem weight_lt_of_stale (hcollector : c'.collector = c.collector)
    (h : 2 * c'.stale.length + (if c'.queue.isEmpty then 1 else 0) <
      2 * c.stale.length + if c.queue.isEmpty then 1 else 0) :
    c'.weight functions < c.weight functions := by
  refine Prod.Lex.toLex_lt_toLex.2 (.inr ⟨?_, h⟩)
  rw [free, free, hcollector]

/-- The weight goes down when a promotion queues something on an empty queue. -/
theorem weight_promoted_lt (hqueue : c.queue.isEmpty) (hpromoted : c.promoted.queue.isEmpty = false) :
    c.promoted.weight functions < c.weight functions := by
  have hstale : c.promoted.stale = [] := by
    refine List.filter_eq_nil_iff.2 fun f hf => ?_
    rw [contains_eq_false_of_mem_promoted hqueue hf]
    exact Bool.false_ne_true
  refine weight_lt_of_stale c.collector_promoted ?_
  rw [hstale, hpromoted, hqueue, List.length_nil]
  simp

/-- The weight goes down when a stale entry is taken from the queue. -/
theorem weight_dequeue_lt {f : Function} (hdequeue : c.dequeue = .ok (f, c'))
    (htaken : c'.collector.contains f.codeName) : c'.weight functions < c.weight functions := by
  obtain ⟨hvalues, heq⟩ := values_queue_of_dequeue_eq_ok hdequeue
  have hcollector : c'.collector = c.collector := by rw [heq]
  have hstale : c.stale.length = c'.stale.length + 1 := by
    rw [hcollector] at htaken
    rw [stale, stale, hcollector, hvalues, List.filter_cons, if_pos htaken, List.length_cons]
  refine weight_lt_of_stale hcollector ?_
  split <;> omega

end Context

/-- Defining a name takes that name and no other. -/
theorem Collector.contains_of_define_eq_ok {collector collector' : Collector} {name code : String}
    (h : collector.define name code = .ok collector') (other : String) :
    collector'.contains other = (other = name || collector.contains other) := by
  rw [Collector.define] at h
  split at h
  · cases h
    exact SortedMap.contains_alter _ _ _ _
  · cases h

theorem Collector.exists_define_eq_ok {collector : Collector} {name : String}
    (h : collector.functions.get? name = some none) (code : String) :
    ∃ collector', collector.define name code = .ok collector' := by
  rw [Collector.define, h]
  exact ⟨_, rfl⟩

namespace Generating

variable {lowering : Lowering} {g g' : Generator} {round : Round} {rounds : List Round}
  {outcome : Except Fault FixedPoint}

/-- What lowering a function keeps and what it changes. -/
structure Lowers (functions : List Function) (f : Function) (c c' : Context) : Prop where
  mem : f ∈ functions
  within : c'.Within functions
  free : c.collector.contains f.codeName = false
  taken : c'.collector.contains f.codeName
  kept : ∀ h ∈ functions, c.collector.contains h.codeName → c'.collector.contains h.codeName

/-- A lowering that stays within the functions, and succeeds, files the code of the function taken and only works on
within them. -/
theorem lowers_of_lower_eq_ok (hlowering : lowering.StaysWithin functions) {c c₁ c' : Context}
    (h : c.Within functions) {f : Function} (hdequeue : c.dequeue = .ok (f, c₁))
    (hfree : c₁.collector.contains f.codeName = false) {code : String}
    (hlower : lowering f (c₁.reserving f) = (.ok code, c')) {collector : Collector}
    (hdefine : c'.collector.define f.codeName code = .ok collector) :
    Lowers functions f c { c' with collector } := by
  obtain ⟨hf, hwithin⟩ := h.dequeue hdequeue
  obtain ⟨_, heq⟩ := Context.values_queue_of_dequeue_eq_ok hdequeue
  have hcollector : c₁.collector = c.collector := by rw [heq]
  have hopened : (c₁.reserving f).Within functions := hwithin.of_eq rfl rfl
  obtain ⟨hworks, _⟩ := hlowering f hf _ _ _ (c₁.get?_reserving f) hlower
  refine ⟨hf, (Context.within_of_works hworks hopened).of_eq rfl rfl, ?_, ?_, fun h hh hold => ?_⟩
  · rw [← hcollector]
    exact hfree
  · change collector.contains f.codeName = true
    rw [Collector.contains_of_define_eq_ok hdefine]
    simp
  · change collector.contains h.codeName = true
    have hreserved : (c₁.reserving f).collector.contains h.codeName := by
      rw [Context.contains_reserving, hcollector, hold, Bool.or_true]
    rw [Collector.contains_of_define_eq_ok hdefine, Context.contains_of_works hworks hh hreserved,
      Bool.or_true]

/-- A round keeps the context within the functions. -/
theorem Takes.within (hlowering : lowering.StaysWithin functions) (htakes : Takes lowering g round g')
    (h : g.context.Within functions) : g'.context.Within functions := by
  cases htakes with
  | promote hqueue hpromote =>
    rw [(Context.eq_promoted_of_promoteReferences_eq_none h.consistent hpromote).1]
    exact h.promoted
  | skip hdequeue htaken => exact (h.dequeue hdequeue).2
  | lower hdequeue hfree hlower hdefine =>
    exact (lowers_of_lower_eq_ok hlowering h hdequeue hfree hlower hdefine).within

/-- A round keeps the code of the functions that is there. -/
theorem Takes.contains (hlowering : lowering.StaysWithin functions) (htakes : Takes lowering g round g')
    (h : g.context.Within functions) {f : Function} (hf : f ∈ functions)
    (hold : g.context.collector.contains f.codeName) : g'.context.collector.contains f.codeName := by
  cases htakes with
  | promote hqueue hpromote =>
    rw [(Context.eq_promoted_of_promoteReferences_eq_none h.consistent hpromote).1,
      Context.collector_promoted]
    exact hold
  | skip hdequeue htaken =>
    rw [(Context.values_queue_of_dequeue_eq_ok hdequeue).2]
    exact hold
  | lower hdequeue hfree hlower hdefine =>
    exact (lowers_of_lower_eq_ok hlowering h hdequeue hfree hlower hdefine).kept f hf hold

/-- Every round makes the weight smaller, and so there are finitely many. -/
theorem Takes.weight_lt (hlowering : lowering.StaysWithin functions) (htakes : Takes lowering g round g')
    (h : g.context.Within functions) : g'.context.weight functions < g.context.weight functions := by
  cases htakes with
  | promote hqueue hpromote =>
    obtain ⟨rfl, hpromoted⟩ := Context.eq_promoted_of_promoteReferences_eq_none h.consistent hpromote
    exact Context.weight_promoted_lt hqueue hpromoted
  | skip hdequeue htaken => exact Context.weight_dequeue_lt hdequeue htaken
  | lower hdequeue hfree hlower hdefine =>
    have hlowers := lowers_of_lower_eq_ok hlowering h hdequeue hfree hlower hdefine
    exact Context.weight_lt_of_taken hlowers.kept hlowers.mem hlowers.free hlowers.taken

/-- From a queue that is not empty a function can be taken. -/
theorem exists_dequeue_eq_ok {c : Context} (h : c.queue.isEmpty = false) :
    ∃ f c', c.dequeue = .ok (f, c') := by
  rw [Context.dequeue]
  split
  next hentries =>
    rw [SortedMap.isEmpty, hentries] at h
    cases h
  next => exact ⟨_, _, rfl⟩

/-- There is always a next round. -/
theorem exists_takes_or_ends (hlowering : lowering.StaysWithin functions)
    (h : g.context.Within functions) :
    (∃ round g', Takes lowering g round g') ∨ ∃ round outcome g', Ends lowering g round outcome g' := by
  cases hqueue : g.context.queue.isEmpty with
  | true =>
    have hpromote := Context.promoteReferences_eq_ok h.consistent
    split at hpromote
    · exact .inr ⟨_, _, _, .complete hqueue hpromote⟩
    · exact .inl ⟨_, _, .promote hqueue hpromote⟩
  | false =>
    obtain ⟨f, c, hdequeue⟩ := exists_dequeue_eq_ok hqueue
    cases hfree : c.collector.contains f.codeName with
    | true => exact .inl ⟨_, _, .skip hdequeue hfree⟩
    | false =>
      cases hlower : lowering f (c.reserving f) with
      | mk result c' =>
        cases result with
        | error fault => exact .inr ⟨_, _, _, .fault hdequeue hfree hlower⟩
        | ok code =>
          obtain ⟨_, hreserved⟩ :=
            hlowering f (h.dequeue hdequeue).1 _ _ _ (c.get?_reserving f) hlower
          obtain ⟨collector, hdefine⟩ := Collector.exists_define_eq_ok hreserved code
          exact .inl ⟨_, _, .lower hdequeue hfree hlower hdefine⟩

/-- Every round makes the weight less, so there is a last one. -/
theorem exists_runs (hlowering : lowering.StaysWithin functions) (h : g.context.Within functions) :
    ∃ rounds outcome g', Runs lowering g rounds outcome g' := by
  induction hweight : g.context.weight functions using WellFoundedLT.induction generalizing g with
  | _ weight ih =>
    rcases exists_takes_or_ends hlowering h with ⟨round, g₁, htakes⟩ | ⟨round, outcome, g', hends⟩
    · obtain ⟨rounds, outcome, g', hruns⟩ :=
        ih _ (hweight ▸ htakes.weight_lt hlowering h) (htakes.within hlowering h) rfl
      exact ⟨_, _, _, .cons htakes hruns⟩
    · exact ⟨_, _, _, .last hends⟩

/-- A round that lowers a function does to the context what `Lowers` says. -/
theorem Takes.lowers (hlowering : lowering.StaysWithin functions) {f : Function}
    (htakes : Takes lowering g (.lower f) g') (h : g.context.Within functions) :
    Lowers functions f g.context g'.context := by
  cases htakes with
  | lower hdequeue hfree hlower hdefine =>
    exact lowers_of_lower_eq_ok hlowering h hdequeue hfree hlower hdefine

/-- A round that fails in a lowering was about one of the functions, whose code was not there. -/
theorem Ends.mem_and_free {f : Function} (hends : Ends lowering g (.lower f) outcome g')
    (h : g.context.Within functions) :
    f ∈ functions ∧ g.context.collector.contains f.codeName = false := by
  cases hends with
  | fault hdequeue hfree hlower =>
    rw [(Context.values_queue_of_dequeue_eq_ok hdequeue).2] at hfree
    exact ⟨(h.dequeue hdequeue).1, hfree⟩

/-- Only functions whose names were free at the start are lowered. -/
theorem Runs.mem_and_free (hlowering : lowering.StaysWithin functions)
    (hruns : Runs lowering g rounds outcome g') (h : g.context.Within functions) :
    ∀ f ∈ Round.lowered rounds, f ∈ functions ∧ g.context.collector.contains f.codeName = false := by
  induction hruns with
  | @last g g' round outcome hends =>
    intro f hf
    cases round with
    | lower f' =>
      obtain rfl := List.mem_singleton.1 hf
      exact hends.mem_and_free h
    | skip | promote => cases hf
  | @cons g g' g'' round rounds outcome htakes hruns ih =>
    have hrest : ∀ f ∈ Round.lowered rounds,
        f ∈ functions ∧ g.context.collector.contains f.codeName = false := by
      intro f hf
      obtain ⟨hmem, hfree⟩ := ih (htakes.within hlowering h) f hf
      refine ⟨hmem, Bool.eq_false_iff.2 fun hold => ?_⟩
      rw [htakes.contains hlowering h hmem hold] at hfree
      cases hfree
    intro f hf
    cases round with
    | lower f' =>
      rcases List.mem_cons.1 hf with rfl | hf
      · exact ⟨(htakes.lowers hlowering h).mem, (htakes.lowers hlowering h).free⟩
      · exact hrest f hf
    | skip | promote => exact hrest f hf

/-- A name is taken once it is lowered, so none is lowered again. -/
theorem Runs.nodup_lowered (hlowering : lowering.StaysWithin functions)
    (hruns : Runs lowering g rounds outcome g') (h : g.context.Within functions) :
    ((Round.lowered rounds).map Function.codeName).Nodup := by
  induction hruns with
  | @last g g' round outcome hends =>
    cases round with
    | lower f => exact List.nodup_singleton _
    | skip | promote => exact List.nodup_nil
  | @cons g g' g'' round rounds outcome htakes hruns ih =>
    have hwithin := htakes.within hlowering h
    cases round with
    | lower f =>
      refine List.nodup_cons.2 ⟨fun hmem => ?_, ih hwithin⟩
      obtain ⟨f', hf', hname⟩ := List.mem_map.1 hmem
      have hfree := (hruns.mem_and_free hlowering hwithin f' hf').2
      rw [hname, (htakes.lowers hlowering h).taken] at hfree
      cases hfree
    | skip | promote => exact ih hwithin

/-- If every queued function has a free name then the first of them is lowered. -/
theorem Runs.exists_eq_lower_cons (hruns : Runs lowering g rounds outcome g')
    (hqueue : g.context.queue.isEmpty = false)
    (hfree : ∀ f ∈ g.context.queue.values, g.context.collector.contains f.codeName = false) :
    ∃ f rest, rounds = .lower f :: rest := by
  cases hruns with
  | last hends =>
    cases hends with
    | complete hempty _ =>
      rw [hqueue] at hempty
      cases hempty
    | fault => exact ⟨_, _, rfl⟩
  | cons htakes hruns =>
    cases htakes with
    | promote hempty _ =>
      rw [hqueue] at hempty
      cases hempty
    | skip hdequeue htaken =>
      obtain ⟨hvalues, heq⟩ := Context.values_queue_of_dequeue_eq_ok hdequeue
      rw [hvalues] at hfree
      rw [heq, hfree _ List.mem_cons_self] at htaken
      cases htaken
    | lower => exact ⟨_, _, rfl⟩

/-- A promotion that is not the end is followed by the lowering of a function. -/
theorem Runs.exists_lower_of_promote (hlowering : lowering.StaysWithin functions)
    (hruns : Runs lowering g rounds outcome g') (h : g.context.Within functions)
    {before after : List Round} (hrounds : rounds = before ++ .promote false :: after) :
    ∃ f rest, after = .lower f :: rest := by
  induction hruns generalizing before with
  | last hends =>
    cases before with
    | nil =>
      cases hrounds
      cases hends
    | cons first rest => cases rest <;> cases hrounds
  | cons htakes hruns ih =>
    cases before with
    | nil =>
      cases hrounds
      cases htakes with
      | promote hqueue hpromote =>
        obtain ⟨rfl, hpromoted⟩ :=
          Context.eq_promoted_of_promoteReferences_eq_none h.consistent hpromote
        exact hruns.exists_eq_lower_cons hpromoted fun f hf =>
          Context.contains_eq_false_of_mem_promoted hqueue hf
    | cons first rest =>
      cases hrounds
      exact ih (htakes.within hlowering h) rfl

/-- A run fails only where a lowering does. -/
theorem Runs.exists_lowering_eq_error (hruns : Runs lowering g rounds outcome g') {fault : Fault}
    (hfault : outcome = .error fault) :
    ∃ before f c c', rounds = before ++ [.lower f] ∧ lowering f c = (.error fault, c') := by
  induction hruns with
  | last hends =>
    cases hends with
    | complete => cases hfault
    | fault _ _ hlower =>
      cases hfault
      exact ⟨[], _, _, _, rfl, hlower⟩
  | cons _ _ ih =>
    obtain ⟨before, f, c, c', rfl, hlower⟩ := ih hfault
    exact ⟨_ :: before, f, c, c', rfl, hlower⟩

/-- A run of the generator that comes to an end. -/
structure FiniteRun (lowering : Lowering) (functions : List Function) (g : Generator)
    (rounds : List Round) (outcome : Except Fault FixedPoint) (g' : Generator) : Prop where
  runs : Runs lowering g rounds outcome g'
  /-- As many steps are enough as there are rounds, and no fewer. -/
  result : ∀ fuel, generateQueued lowering fuel g =
    if rounds.length ≤ fuel then some (counted rounds outcome, g') else none
  lowered : g'.lowered = (Round.lowered rounds).reverse ++ g.lowered
  /-- No function is lowered twice, nor one whose name is taken from the start. -/
  once : ((Round.lowered rounds).map Function.codeName).Nodup
  free : ∀ f ∈ Round.lowered rounds,
    f ∈ functions ∧ g.context.collector.contains f.codeName = false
  /-- The only faults are those of the lowering, and the first of them is the last thing that happens. -/
  fault : ∀ fault, outcome = .error fault →
    ∃ before f c c', rounds = before ++ [.lower f] ∧ lowering f c = (.error fault, c')
  /-- After a promotion that is not the end a function is lowered that was not lowered before. -/
  sweep : ∀ before after, rounds = before ++ .promote false :: after →
    ∃ f rest, after = .lower f :: rest ∧ f.codeName ∉ (Round.lowered before).map Function.codeName

/-- Wherever `generateQueued` starts, it comes to an end if all functions it can meet refer to finitely many functions.
Every round of the loop makes the context's weight smaller: either one more function has its code, or there is less
that is stale in the queue. -/
theorem exists_finiteRun (lowering : Lowering) (functions : List Function)
    (hlowering : lowering.StaysWithin functions) (g : Generator) (hused : g.context.table.Used)
    (hrefers : g.context.RefersWithin functions) :
    ∃ rounds outcome g', FiniteRun lowering functions g rounds outcome g' := by
  obtain ⟨settings, operations, htable⟩ := hused
  have hwithin : g.context.Within functions := by
    refine ⟨?_, hrefers⟩
    rw [htable]
    refine Context.consistent_operateAll (fun a members hmembers _ => ?_) operations
    cases hmembers
  obtain ⟨rounds, outcome, g', hruns⟩ := exists_runs hlowering hwithin
  have honce := hruns.nodup_lowered hlowering hwithin
  refine ⟨rounds, outcome, g', hruns, hruns.generateQueued_eq, hruns.lowered_eq, honce,
    hruns.mem_and_free hlowering hwithin, fun fault hfault => hruns.exists_lowering_eq_error hfault,
    fun before after hrounds => ?_⟩
  obtain ⟨f, rest, rfl⟩ := hruns.exists_lower_of_promote hlowering hwithin hrounds
  refine ⟨f, rest, rfl, fun hmem => ?_⟩
  rw [hrounds, Round.lowered_append, List.map_append] at honce
  exact (List.nodup_append.1 honce).2.2 _ hmem _ List.mem_cons_self rfl

end Generating

namespace Callback

/-- A generator that has only the entry queued. -/
def started : Generator := { context := Context.operate { settings := {} } (.enqueue main) }

/-- From there each function of the program is lowered in turn, the last of them after a promotion. -/
theorem exists_finiteRun_length_eq_five :
    lowering.StaysWithin [main, direct, pointed] ∧
      ∃ rounds outcome g',
        Generating.FiniteRun lowering [main, direct, pointed] started rounds outcome g' ∧
        rounds.length = 5 ∧ (Generating.Round.lowered rounds).map (·.id) = [1, 2, 3] := by
  have hlowering : lowering.StaysWithin [main, direct, pointed] := by
    intro f hf c code c' hreserved h
    have hreports : ∀ o ∈ reports f, o.RefersWithin [main, direct, pointed] := by
      rw [reports]
      split <;> simp [DispatchOperation.RefersWithin]
    cases h
    refine ⟨c.works_operateAll hreports, ?_⟩
    rw [c.collector_operateAll fun o ho => (hreports o ho).isReport]
    exact hreserved
  refine ⟨hlowering, ?_⟩
  obtain ⟨rounds, outcome, g', hrun⟩ := Generating.exists_finiteRun lowering [main, direct, pointed]
    hlowering started ⟨{}, [.enqueue main], rfl⟩ ⟨fun f hf => List.mem_singleton.1 hf ▸ .head _,
      fun _ hmembers => absurd hmembers List.not_mem_nil, fun _ hf => absurd hf List.not_mem_nil⟩
  have hfive : ((Generating.generateQueued lowering 5 started).map (·.2.lowered.map (·.id))) =
      some [3, 2, 1] := by decide +kernel
  have hfour : (Generating.generateQueued lowering 4 started).isNone := by decide +kernel
  rw [hrun.result] at hfive hfour
  split at hfive
  next hle =>
    refine ⟨rounds, outcome, g', hrun, ?_, ?_⟩
    · split at hfour
      next => cases hfour
      next hlt => omega
    · rw [Option.map_some, hrun.lowered, started, List.append_nil, List.map_reverse] at hfive
      exact List.reverse_eq_iff.1 (Option.some.inj hfive)
  next => cases hfive

end Callback

end YulBackend
