import YulBackend.Proofs.Codegen.Reports

namespace YulBackend

namespace Program

variable {p : Program} {entries : List Function} {offered : Function → Prop}

/-- The entries and the functions that another object offers are those of the program. -/
structure Given (p : Program) (entries : List Function) (offered : Function → Prop) : Prop where
  entries : ∀ f ∈ entries, p.declared f
  offered : ∀ f, offered f → p.declared f

/-- Every function that is reached is declared. -/
theorem Reached.declared (h : p.Given entries offered) {f : Function}
    (hf : p.Reached entries offered f) : p.declared f := by
  induction hf with
  | entry hmem => exact h.entries _ hmem
  | callee _ hmem ih => exact p.declared_callee _ _ ih hmem
  | referenced _ hmem _ _ ih _ => exact p.declared_reference _ _ ih hmem
  | offered hoffered _ _ _ => exact h.offered _ hoffered

/-- A function that is lowered, or waits for it. -/
def Handled (c : Context) (lowered : List Function) (f : Function) : Prop :=
  f ∈ lowered ∨ c.queue.get? f.id = some f

/-- What is lowered and what waits for it: only what has to be lowered, each function in one place. The
functions of `due` are all there. -/
structure Queueing (p : Program) (entries : List Function) (offered due : Function → Prop)
    (c : Context) (lowered : List Function) : Prop where
  nodup : lowered.Nodup
  reached : ∀ f ∈ lowered, p.Reached entries offered f
  made : ∀ f ∈ lowered, c.collector.functions.get? f.codeName = some (some (p.body f).code)
  unmade : ∀ f, p.declared f → f ∉ lowered → c.collector.contains f.codeName = false
  queued : ∀ i f, c.queue.get? i = some f →
    f.id = i ∧ p.Reached entries offered f ∧ f ∉ lowered
  handled : ∀ f, due f → Handled c lowered f

/-- What the table knows of: the calls through pointers and the references of what is lowered, and what
was offered. -/
structure Tabling (p : Program) (offered : Function → Prop) (t : DispatchTable)
    (lowered : List Function) : Prop where
  called : ∀ a, t.dispatch.contains a ↔ ∃ f ∈ lowered, a ∈ (p.body f).pointerCalls
  known : ∀ f, t.dispatch.Holds f ∨ t.candidates.Holds f ∨ f ∈ t.pending.values ↔
    offered f ∨ ∃ h ∈ lowered, f ∈ (p.body h).references.values
  owned : ∀ e, t.pending.contains e → ∃ f ∈ lowered, p.owner e = f.id
  wellFiled : t.WellFiled p.declared
  inhabited : t.candidates.Inhabited
  consistent : t.Consistent

/-- What is due once these functions are lowered. -/
def Due (p : Program) (entries : List Function) (t : DispatchTable) (lowered : List Function)
    (f : Function) : Prop :=
  f ∈ entries ∨ (∃ h ∈ lowered, f ∈ (p.body h).callees) ∨ t.dispatch.Holds f

/-- The invariant between two steps. -/
structure Progress (p : Program) (entries : List Function) (offered : Function → Prop) (c : Context)
    (lowered : List Function) : Prop where
  queueing : p.Queueing entries offered (p.Due entries c.table lowered) c lowered
  tabling : p.Tabling offered c.table lowered

variable {due : Function → Prop} {c : Context} {lowered : List Function}

/-- A declared function whose name is in the collector has been lowered. -/
theorem Queueing.mem_lowered_of_contains (h : p.Queueing entries offered due c lowered) {f : Function}
    (hf : p.declared f) (hcontains : c.collector.contains f.codeName) : f ∈ lowered := by
  refine Classical.byContradiction fun hmem => ?_
  rw [h.unmade f hf hmem] at hcontains
  cases hcontains

theorem Queueing.mono {due' : Function → Prop} (h : p.Queueing entries offered due c lowered)
    (hdue : ∀ f, due' f → due f) : p.Queueing entries offered due' c lowered :=
  { h with handled := fun f hf => h.handled f (hdue f hf) }

theorem Queueing.withTable (h : p.Queueing entries offered due c lowered) (t : DispatchTable) :
    p.Queueing entries offered due { c with table := t } lowered :=
  ⟨h.nodup, h.reached, h.made, h.unmade, h.queued, h.handled⟩

/-- A queued function has the place of its identity to itself. -/
theorem Queueing.eq_of_queue (hgiven : p.Given entries offered)
    (h : p.Queueing entries offered due c lowered) {f g : Function} (hf : p.declared f)
    (hg : c.queue.get? f.id = some g) : g = f := by
  obtain ⟨hid, hreached, _⟩ := h.queued _ _ hg
  exact p.idsIdentify (hreached.declared hgiven) hf hid

/-- Queueing a reached function keeps the queue in order, and the function is due from then on. -/
theorem Queueing.enqueue (hgiven : p.Given entries offered)
    (h : p.Queueing entries offered due c lowered) {f : Function}
    (hf : p.Reached entries offered f) :
    p.Queueing entries offered (fun g => due g ∨ g = f) (c.enqueue f).2 lowered := by
  have hdeclared := hf.declared hgiven
  refine ⟨h.nodup, h.reached, ?_, ?_, ?_, ?_⟩
  · rw [c.collector_enqueue]
    exact h.made
  · rw [c.collector_enqueue]
    exact h.unmade
  · intro i g hg
    rw [c.get?_queue_enqueue, Option.or_eq_some_iff] at hg
    rcases hg with hg | ⟨_, hg⟩
    · exact h.queued i g hg
    · split at hg
      next hcond =>
        cases hg
        refine ⟨hcond.2.symm, hf, fun hmem => ?_⟩
        rw [Collector.contains, SortedMap.contains, h.made _ hmem] at hcond
        cases hcond.1
      next => cases hg
  · rintro g (hg | rfl)
    · refine (h.handled g hg).imp_right fun hqueued => ?_
      rw [c.get?_queue_enqueue, hqueued, Option.some_or]
    · by_cases hcontains : c.collector.contains g.codeName
      · exact .inl (h.mem_lowered_of_contains hdeclared hcontains)
      · refine .inr ?_
        rw [c.get?_queue_enqueue]
        cases hqueued : c.queue.get? g.id with
        | none => rw [Option.none_or, if_pos ⟨Bool.eq_false_iff.2 hcontains, rfl⟩]
        | some g' => rw [h.eq_of_queue hgiven hdeclared hqueued, Option.some_or]

/-- Queueing reached functions keeps the queue in order, and all of them are due from then on. -/
theorem Queueing.enqueueAll (hgiven : p.Given entries offered) {functions : List Function}
    (h : p.Queueing entries offered due c lowered)
    (hfunctions : ∀ f ∈ functions, p.Reached entries offered f) :
    p.Queueing entries offered (fun g => due g ∨ g ∈ functions) (c.enqueueAll functions) lowered := by
  induction functions generalizing c due with
  | nil => exact h.mono fun f hf => hf.resolve_right List.not_mem_nil
  | cons f rest ih =>
    obtain ⟨hf, hrest⟩ := List.forall_mem_cons.1 hfunctions
    refine (ih (h.enqueue hgiven hf) hrest).mono fun g hg => ?_
    rw [List.mem_cons] at hg
    rwa [or_assoc]

/-- Tables with the same maps are in order for the same functions. -/
theorem Tabling.sameMaps {t t' : DispatchTable} (h : p.Tabling offered t lowered)
    (hsame : t.SameMaps t') : p.Tabling offered t' lowered := by
  obtain ⟨hcalled, hknown, howned, hfiled, hinhabited, hconsistent⟩ := h
  rw [← hsame.dispatch] at hcalled hknown
  rw [← hsame.candidates] at hknown hinhabited
  rw [← hsame.pending] at hknown howned
  refine ⟨hcalled, hknown, howned, ⟨?_, ?_, ?_⟩, hinhabited, hsame.consistent hconsistent⟩
  · rw [hsame.dispatch]
    exact hfiled.dispatch
  · rw [hsame.candidates]
    exact hfiled.candidates
  · rw [hsame.pending]
    exact hfiled.pending

theorem Progress.sameMaps (h : p.Progress entries offered c lowered) {t : DispatchTable}
    (hsame : c.table.SameMaps t) : p.Progress entries offered { c with table := t } lowered := by
  refine ⟨(h.queueing.withTable t).mono fun f hf => ?_, h.tabling.sameMaps hsame⟩
  rwa [Due, ← hsame.dispatch]

/-- Promotion keeps the tables in order: what was pending or a candidate is dispatched where its arity is called. -/
theorem Tabling.promoted {t : DispatchTable} (h : p.Tabling offered t lowered) :
    p.Tabling offered t.promoted lowered := by
  refine ⟨fun a => ?_, fun f => ?_, fun e he => ?_, h.wellFiled.promoted,
    h.wellFiled.inhabited_promoted p.idsIdentify h.inhabited, t.partitioned_promoted.consistent⟩
  · rw [t.contains_dispatch_promoted, h.called]
  · rw [← h.known, h.wellFiled.holds_dispatch_promoted_iff p.idsIdentify h.consistent,
      h.wellFiled.holds_candidates_promoted_iff p.idsIdentify, t.pending_promoted]
    have hholds : t.dispatch.Holds f → t.dispatch.contains f.arity := DispatchMap.Holds.contains
    have hempty : f ∉ (SortedMap.empty : SortedMap NodeId Function).values := List.not_mem_nil
    by_cases hcontains : t.dispatch.contains f.arity
    · simp [hcontains, hempty]
    · simp [hcontains, hempty, mt hholds hcontains]
  · rw [t.pending_promoted] at he
    cases he

/-- What is in the dispatch map has to be lowered. -/
theorem Tabling.reached_of_holds {t : DispatchTable} (h : p.Tabling offered t lowered)
    (hlowered : ∀ f ∈ lowered, p.Reached entries offered f) {f : Function} (hf : t.dispatch.Holds f) :
    p.Reached entries offered f := by
  obtain ⟨caller, hcaller, hcall⟩ := (h.called f.arity).1 hf.contains
  rcases (h.known f).1 (.inl hf) with hoffered | ⟨user, huser, href⟩
  · exact .offered hoffered (hlowered caller hcaller) hcall
  · exact .referenced (hlowered user huser) href (hlowered caller hcaller) hcall

/-- Promotion is progress, the promoted functions being queued. -/
theorem Progress.promoted (hgiven : p.Given entries offered)
    (h : p.Progress entries offered c lowered) : p.Progress entries offered c.promoted lowered := by
  have htable := h.tabling.promoted
  have hsame := Context.sameMaps_enqueueAll { c with table := c.table.promoted } c.table.gained
  have hgained := h.tabling.wellFiled.mem_gained_iff p.idsIdentify h.tabling.consistent
  have hqueueing := (h.queueing.withTable c.table.promoted).enqueueAll hgiven fun f hf =>
    htable.reached_of_holds h.queueing.reached ((hgained f).1 hf).1
  refine ⟨hqueueing.mono fun f hf => ?_, htable.sameMaps hsame⟩
  rw [Due, Context.promoted, hsame.dispatch] at hf
  rcases hf with hentry | hcallee | hmember
  · exact .inl (.inl hentry)
  · exact .inl (.inr (.inl hcallee))
  · by_cases hold : c.table.dispatch.Holds f
    · exact .inl (.inr (.inr hold))
    · exact .inr ((hgained f).2 ⟨hmember, hold⟩)

/-- When a promotion queues nothing, everything that has to be lowered is. -/
theorem Progress.mem_lowered_of_reached
    (h : p.Progress entries offered c lowered) (hqueue : c.queue.isEmpty)
    (hpending : c.table.pending = .empty) (hpartitioned : c.table.Partitioned) {f : Function}
    (hf : p.Reached entries offered f) : f ∈ lowered := by
  have hdone : ∀ f, p.Due entries c.table lowered f → f ∈ lowered := by
    intro f hdue
    refine (h.queueing.handled f hdue).resolve_right fun hqueued => ?_
    rw [c.queue.isEmpty_iff.1 hqueue] at hqueued
    cases hqueued
  have hpointer : ∀ f caller, (offered f ∨ ∃ h ∈ lowered, f ∈ (p.body h).references.values) →
      caller ∈ lowered → f.arity ∈ (p.body caller).pointerCalls → f ∈ lowered := by
    intro f caller hknown hcaller hcall
    have hcalled := (h.tabling.called f.arity).2 ⟨caller, hcaller, hcall⟩
    rcases (h.tabling.known f).2 hknown with hmember | hcandidate | hwaiting
    · exact hdone f (.inr (.inr hmember))
    · have hcandidates := hcandidate.contains
      rw [hpartitioned _ hcalled] at hcandidates
      cases hcandidates
    · rw [hpending] at hwaiting
      cases hwaiting
  induction hf with
  | entry hmem => exact hdone _ (.inl hmem)
  | callee _ hmem ih => exact hdone _ (.inr (.inl ⟨_, ih, hmem⟩))
  | referenced _ href _ hcall ihuser ihcaller => exact hpointer _ _ (.inr ⟨_, ihuser, href⟩) ihcaller hcall
  | offered hoffered _ hcall ihcaller => exact hpointer _ _ (.inl hoffered) ihcaller hcall

/-- From the context in which a function is queued to the one in which its text is defined. In between the
function is taken from the queue, its name is reserved and its body is reported. -/
structure Lowers (p : Program) (f : Function) (c c' : Context) : Prop where
  queue : ∀ i g, c'.queue.get? i = some g ↔ i ≠ f.id ∧ c.queue.get? i = some g ∨
    (i = f.id ∨ c.queue.get? i = none) ∧ g ∈ (p.body f).callees ∧
      c.collector.contains g.codeName = false ∧ g.codeName ≠ f.codeName ∧ i = g.id
  own : c'.collector.functions.get? f.codeName = some (some (p.body f).code)
  others : ∀ g, p.declared g → g.codeName ≠ f.codeName →
    c'.collector.functions.get? g.codeName = c.collector.functions.get? g.codeName
  dispatch : ∀ a members, c'.table.dispatch.get? a = some members ↔
    c.table.dispatch.get? a = some members ∨
      c.table.dispatch.get? a = none ∧ a ∈ (p.body f).pointerCalls ∧ members = .empty
  candidates : c'.table.candidates = c.table.candidates
  pending : ∀ e, c'.table.pending.get? e =
    if p.owner e = f.id then (p.body f).references.get? e else c.table.pending.get? e
  owner : ∀ e g, (p.body f).references.get? e = some g → p.owner e = f.id

variable {f : Function} {c' : Context}

theorem Lowers.contains_dispatch (h : p.Lowers f c c') (a : Arity) :
    c'.table.dispatch.contains a ↔ c.table.dispatch.contains a ∨ a ∈ (p.body f).pointerCalls := by
  simp only [SortedMap.contains, Option.isSome_iff_exists, h.dispatch]
  cases c.table.dispatch.get? a <;> simp

/-- Lowering a function files no function under a dispatcher; that is left to promotion. -/
theorem Lowers.holds_dispatch (h : p.Lowers f c c') (g : Function) :
    c'.table.dispatch.Holds g ↔ c.table.dispatch.Holds g := by
  refine exists_congr fun members => ?_
  rw [h.dispatch]
  refine ⟨?_, fun ⟨hmembers, hg⟩ => ⟨.inl hmembers, hg⟩⟩
  rintro ⟨hmembers | ⟨_, _, rfl⟩, hg⟩
  · exact ⟨hmembers, hg⟩
  · cases hg

/-- Lowering a function leaves pending the references that were so before and those of its body. -/
theorem Lowers.mem_pending (h : p.Lowers f c c')
    (hfresh : ∀ e, p.owner e = f.id → c.table.pending.get? e = none) (g : Function) :
    g ∈ c'.table.pending.values ↔
      g ∈ c.table.pending.values ∨ g ∈ (p.body f).references.values := by
  simp only [SortedMap.mem_values_iff, h.pending]
  constructor
  · rintro ⟨e, he⟩
    split at he
    · exact .inr ⟨e, he⟩
    · exact .inl ⟨e, he⟩
  · rintro (⟨e, he⟩ | ⟨e, he⟩)
    · refine ⟨e, ?_⟩
      rw [if_neg, he]
      intro howner
      rw [hfresh e howner] at he
      cases he
    · exact ⟨e, by rw [if_pos (h.owner e g he), he]⟩

/-- Lowering a declared function keeps the tables in order with that function lowered. -/
theorem Tabling.lower (h : p.Tabling offered c.table lowered) (hf : p.declared f)
    (hfresh : ∀ e, p.owner e = f.id → c.table.pending.get? e = none) (hstep : p.Lowers f c c') :
    p.Tabling offered c'.table (f :: lowered) := by
  refine ⟨fun a => ?_, fun g => ?_, fun e he => ?_, ⟨fun a members hmembers => ?_, ?_, fun g hg => ?_⟩,
    ?_, fun a members hmembers hcandidates => ?_⟩
  · simp only [hstep.contains_dispatch, h.called, List.mem_cons, exists_eq_or_imp]
    exact or_comm
  · have hknown := h.known g
    simp only [hstep.holds_dispatch, hstep.candidates, hstep.mem_pending hfresh, List.mem_cons,
      exists_eq_or_imp]
    grind
  · rw [SortedMap.contains, hstep.pending] at he
    split at he
    next howner => exact ⟨f, List.mem_cons_self, howner⟩
    next =>
      obtain ⟨g, hg, howner⟩ := h.owned e he
      exact ⟨g, List.mem_cons_of_mem _ hg, howner⟩
  · rcases (hstep.dispatch a members).1 hmembers with hold | ⟨_, _, rfl⟩
    · exact h.wellFiled.dispatch a members hold
    · exact FunctionSet.of_empty
  · rw [hstep.candidates]
    exact h.wellFiled.candidates
  · rcases (hstep.mem_pending hfresh g).1 hg with hold | hnew
    · exact h.wellFiled.pending g hold
    · exact p.declared_reference f g hf hnew
  · rw [hstep.candidates]
    exact h.inhabited
  · rw [hstep.candidates] at hcandidates
    rcases (hstep.dispatch a members).1 hmembers with hold | ⟨_, _, rfl⟩
    · exact h.consistent a members hold hcandidates
    · rfl

/-- No expression of a function that is still queued has a reference that waits. -/
theorem Progress.get?_pending_eq_none (hgiven : p.Given entries offered)
    (h : p.Progress entries offered c lowered) (hqueued : c.queue.get? f.id = some f) {e : NodeId}
    (howner : p.owner e = f.id) : c.table.pending.get? e = none := by
  obtain ⟨_, hreached, hnotMem⟩ := h.queueing.queued _ _ hqueued
  refine Option.eq_none_iff_forall_ne_some.2 fun g hg => hnotMem ?_
  have hcontains : c.table.pending.contains e := by
    rw [SortedMap.contains, hg, Option.isSome_some]
  obtain ⟨f', hmem, howner'⟩ := h.tabling.owned e hcontains
  have hsame : f' = f :=
    p.idsIdentify ((h.queueing.reached f' hmem).declared hgiven) (hreached.declared hgiven)
      (howner'.symm.trans howner)
  rwa [← hsame]

/-- Lowering a queued function keeps the queue in order, the callees of the function being due as well. -/
theorem Queueing.lower (hgiven : p.Given entries offered)
    (h : p.Queueing entries offered due c lowered) (hqueued : c.queue.get? f.id = some f)
    (hstep : p.Lowers f c c') :
    p.Queueing entries offered (fun g => due g ∨ g ∈ (p.body f).callees) c' (f :: lowered) := by
  obtain ⟨_, hreached, hnotMem⟩ := h.queued _ _ hqueued
  have hdeclared := hreached.declared hgiven
  have hname : ∀ g, p.declared g → g ≠ f → g.codeName ≠ f.codeName := fun g hg hne hname =>
    hne (p.idsIdentify hg hdeclared (Function.id_eq_of_codeName_eq hname))
  refine ⟨List.nodup_cons.2 ⟨hnotMem, h.nodup⟩, List.forall_mem_cons.2 ⟨hreached, h.reached⟩,
    List.forall_mem_cons.2 ⟨hstep.own, fun g hg => ?_⟩, fun g hg hnew => ?_, fun i g hg => ?_,
    fun g hg => ?_⟩
  · have hne : g ≠ f := fun heq => hnotMem (heq ▸ hg)
    have hdeclared' := (h.reached g hg).declared hgiven
    rw [hstep.others g hdeclared' (hname g hdeclared' hne), h.made g hg]
  · rw [List.mem_cons, not_or] at hnew
    rw [Collector.contains, SortedMap.contains, hstep.others g hg (hname g hg hnew.1)]
    exact h.unmade g hg hnew.2
  -- What is queued now was queued before, or is a callee that has no code yet.
  · rcases (hstep.queue i g).1 hg with ⟨hne, hold⟩ | ⟨_, hcallee, hunmade, hother, hid⟩
    · obtain ⟨hid, hreached', hnotMem'⟩ := h.queued i g hold
      refine ⟨hid, hreached', fun hmem => (List.mem_cons.1 hmem).elim (fun heq => hne ?_) hnotMem'⟩
      rw [← hid, heq]
    · refine ⟨hid.symm, .callee hreached hcallee, fun hmem => ?_⟩
      rcases List.mem_cons.1 hmem with rfl | hmem
      · exact hother rfl
      · rw [Collector.contains, SortedMap.contains, h.made g hmem] at hunmade
        cases hunmade
  · by_cases hself : g = f
    · exact .inl (hself ▸ List.mem_cons_self)
    · rcases hg with hdue | hcallee
      · rcases h.handled g hdue with hmem | hold
        · exact .inl (List.mem_cons_of_mem _ hmem)
        · refine .inr ((hstep.queue g.id g).2 (.inl ⟨fun hid => hself ?_, hold⟩))
          exact p.idsIdentify (((h.queued _ _ hold).2.1).declared hgiven) hdeclared hid
      · have hdeclared' := p.declared_callee f g hdeclared hcallee
        by_cases hcontains : c.collector.contains g.codeName
        · exact .inl (List.mem_cons_of_mem _ (h.mem_lowered_of_contains hdeclared' hcontains))
        · refine .inr ((hstep.queue g.id g).2 ?_)
          have hid : g.id ≠ f.id := fun hid => hself (p.idsIdentify hdeclared' hdeclared hid)
          cases hold : c.queue.get? g.id with
          | none =>
            exact .inr ⟨.inr rfl, hcallee, Bool.eq_false_iff.2 hcontains,
              hname g hdeclared' hself, rfl⟩
          | some g' => exact .inl ⟨hid, by rw [h.eq_of_queue hgiven hdeclared' hold]⟩

/-- Lowering a queued function is progress. The queue and the tables each keep their part. -/
theorem Progress.lower (hgiven : p.Given entries offered) (h : p.Progress entries offered c lowered)
    (hqueued : c.queue.get? f.id = some f) (hstep : p.Lowers f c c') :
    p.Progress entries offered c' (f :: lowered) := by
  have hdeclared := (h.queueing.queued _ _ hqueued).2.1.declared hgiven
  have hfresh : ∀ e, p.owner e = f.id → c.table.pending.get? e = none :=
    fun e howner => h.get?_pending_eq_none hgiven hqueued howner
  refine ⟨(h.queueing.lower hgiven hqueued hstep).mono fun g hg => ?_,
    h.tabling.lower hdeclared hfresh hstep⟩
  simp only [Due, hstep.holds_dispatch, List.mem_cons, exists_eq_or_imp] at hg
  rcases hg with hentry | (hcallee | hcallee) | hmember
  · exact .inl (.inl hentry)
  · exact .inr hcallee
  · exact .inl (.inr (.inl hcallee))
  · exact .inl (.inr (.inr hmember))

end Program

end YulBackend
