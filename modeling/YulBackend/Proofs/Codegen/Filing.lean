import Mathlib.Data.List.Nodup
import YulBackend.Proofs.Codegen.Reports

namespace YulBackend

/-- A reference that waits is kept: its expression is not forgotten before the next promotion files it. -/
def KeepsReference (expression : NodeId) : List DispatchOperation → Prop
  | [] => True
  | .promote :: _ => True
  | .forget other :: rest => other ≠ expression ∧ KeepsReference expression rest
  | _ :: rest => KeepsReference expression rest

/-- An operation between two times that the maps are handed out. The functions that it offers are filed under
their arities, in sets that are not empty. -/
def DispatchOperation.IsAdmissible (declared : Function → Prop) : DispatchOperation → Prop
  | .seed candidates => candidates.WellFiled declared ∧ candidates.Inhabited
  | .collect _ f => declared f
  | .consume _ => False
  | _ => True

namespace Context

/-- A function that operations offer, or that they collect a reference to which is not forgotten.
Operations that fail do neither. -/
inductive Gathers (f : Function) : Context → List DispatchOperation → Prop
  | offered {c c' : Context} {candidates : DispatchMap} {rest : List DispatchOperation}
      (h : c.seedCandidates candidates = .ok c') (hf : candidates.Holds f) :
      Gathers f c (.seed candidates :: rest)
  | referenced {c : Context} {expression : NodeId} {result : String × Context}
      {rest : List DispatchOperation} (h : c.collectReference expression f = .ok result)
      (hkept : KeepsReference expression rest) : Gathers f c (.collect expression f :: rest)
  | later {c : Context} {o : DispatchOperation} {rest : List DispatchOperation}
      (h : Gathers f (c.operate o) rest) : Gathers f c (o :: rest)

/-- A context that knows of no pointers: a new one, or one whose maps were just handed out. -/
inductive StartsOver : Context → Prop
  | new {c : Context} (h : c.table = {}) : StartsOver c
  | consumed {c c' : Context} {evidence : FixedPoint} {maps : DispatchMap × DispatchMap}
      (h : c.consumeDispatch evidence = .ok (maps, c')) : StartsOver c'

end Context

/-- The maps of a table hold just these functions, each under its own arity: in the dispatch map if the arity
is called, and else among the candidates. -/
structure DispatchTable.Files (t : DispatchTable) (known : Function → Prop) (called : Arity → Prop) :
    Prop where
  dispatched : ∀ a, t.dispatch.contains a ↔ called a
  members : ∀ a members, t.dispatch.get? a = some members →
    ∀ i f, members.get? i = some f ↔ f.id = i ∧ f.arity = a ∧ known f
  leftover : ∀ a, t.candidates.contains a ↔ (∃ f, f.arity = a ∧ known f) ∧ ¬ called a
  candidates : ∀ a candidates, t.candidates.get? a = some candidates →
    ∀ i f, candidates.get? i = some f ↔ f.id = i ∧ f.arity = a ∧ known f

namespace DispatchTable

variable {declared known : Function → Prop} {called : Arity → Prop} {t t' : DispatchTable}

/-- Maps with the same arities, and the same functions under each, are the same. -/
theorem eq_of_members {m m' : DispatchMap} {P : Arity → NodeId → Function → Prop}
    (hcontains : ∀ a, m'.contains a ↔ m.contains a)
    (h : ∀ a members, m.get? a = some members → ∀ i f, members.get? i = some f ↔ P a i f)
    (h' : ∀ a members, m'.get? a = some members → ∀ i f, members.get? i = some f ↔ P a i f) :
    m' = m := by
  refine SortedMap.ext_get? fun a => ?_
  have hsome := hcontains a
  rw [SortedMap.contains, SortedMap.contains] at hsome
  cases hm : m.get? a with
  | none =>
    rw [hm] at hsome
    simpa using hsome
  | some members =>
    rw [hm] at hsome
    obtain ⟨members', hm'⟩ := Option.isSome_iff_exists.1 (hsome.2 rfl)
    have hsame : members' = members := SortedMap.ext_get? fun i => by
      refine Option.ext fun f => ?_
      rw [h' a members' hm', h a members hm]
    rw [hm', hsame]

theorem Files.unique (h : t.Files known called) (h' : t'.Files known called) :
    t'.dispatch = t.dispatch ∧ t'.candidates = t.candidates :=
  ⟨eq_of_members (fun a => (h'.dispatched a).trans (h.dispatched a).symm) h.members h'.members,
    eq_of_members (fun a => (h'.leftover a).trans (h.leftover a).symm) h.candidates h'.candidates⟩

/-- The tables depend only on which functions are known and which arities are called. -/
theorem Files.congr {known' : Function → Prop} {called' : Arity → Prop} (h : t.Files known called)
    (hknown : ∀ f, known' f ↔ known f) (hcalled : ∀ a, called' a ↔ called a) :
    t.Files known' called' := by
  have hknown' : known' = known := funext fun f => propext (hknown f)
  have hcalled' : called' = called := funext fun a => propext (hcalled a)
  rwa [hknown', hcalled']

/-- What holds of a table between operations: functions are filed under their own arities, no set of candidates
is empty, and an arity with candidates has no members. -/
structure Sound (t : DispatchTable) (declared : Function → Prop) : Prop where
  wellFiled : t.WellFiled declared
  inhabited : t.candidates.Inhabited
  consistent : t.Consistent

/-- Empty tables are sound. -/
theorem sound_empty : ({} : DispatchTable).Sound declared := by
  refine ⟨⟨DispatchMap.wellFiled_empty, DispatchMap.wellFiled_empty, fun f hf => ?_⟩, fun a ha => ?_,
    fun a members hmembers _ => ?_⟩
  · cases hf
  · cases ha
  · cases hmembers

/-- Tables with the maps of sound ones are sound. -/
theorem Sound.sameMaps (h : t.Sound declared) (hsame : t.SameMaps t') : t'.Sound declared := by
  obtain ⟨⟨hdispatch, hcandidates, hpending⟩, hinhabited, hconsistent⟩ := h
  refine ⟨⟨?_, ?_, ?_⟩, ?_, hsame.consistent hconsistent⟩
  · rwa [hsame.dispatch]
  · rwa [hsame.candidates]
  · rwa [hsame.pending]
  · rwa [hsame.candidates]

theorem Sound.promoted (hids : IdsIdentify declared) (h : t.Sound declared) :
    t.promoted.Sound declared :=
  ⟨h.wellFiled.promoted, h.wellFiled.inhabited_promoted hids h.inhabited,
    t.partitioned_promoted.consistent⟩

/-- The maps of a table, no arity of which is in both, hold what it knows but for waiting references. -/
theorem Sound.files (h : t.Sound declared) (hpartitioned : t.Partitioned) :
    t.Files (fun f => t.dispatch.Holds f ∨ t.candidates.Holds f) (t.dispatch.contains ·) := by
  have hone : ∀ {f}, t.dispatch.contains f.arity → ¬ t.candidates.Holds f := by
    intro f hcontains hf
    have hnot := hpartitioned _ hcontains
    rw [hf.contains] at hnot
    cases hnot
  refine ⟨fun a => Iff.rfl, fun a members hmembers i f => ?_, fun a => ⟨fun ha => ?_, ?_⟩,
    fun a candidates hcandidates i f => ?_⟩
  · have hcontains : t.dispatch.contains a := by rw [SortedMap.contains, hmembers, Option.isSome_some]
    refine ⟨fun hf => ?_, ?_⟩
    · obtain ⟨rfl, harity, _⟩ := h.wellFiled.dispatch a members hmembers i f hf
      exact ⟨rfl, harity, .inl ((h.wellFiled.dispatch.get?_eq_some_iff hmembers f).1 hf).1⟩
    · rintro ⟨rfl, rfl, hf⟩
      have hf := hf.resolve_right (hone hcontains)
      exact (h.wellFiled.dispatch.get?_eq_some_iff hmembers f).2 ⟨hf, rfl⟩
  · obtain ⟨f, hf, rfl⟩ := h.inhabited a ha
    exact ⟨⟨f, rfl, .inr hf⟩, fun hcontains => hone hcontains hf⟩
  · rintro ⟨⟨f, rfl, hf⟩, hcontains⟩
    exact (hf.resolve_left fun hf => hcontains hf.contains).contains
  · refine ⟨fun hf => ?_, ?_⟩
    · obtain ⟨rfl, harity, _⟩ := h.wellFiled.candidates a candidates hcandidates i f hf
      exact ⟨rfl, harity, .inr ((h.wellFiled.candidates.get?_eq_some_iff hcandidates f).1 hf).1⟩
    · rintro ⟨rfl, rfl, hf⟩
      have hf : t.candidates.Holds f := by
        refine hf.resolve_left fun hmember => ?_
        have hnot := hpartitioned _ hmember.contains
        rw [SortedMap.contains, hcandidates] at hnot
        cases hnot
      exact (h.wellFiled.candidates.get?_eq_some_iff hcandidates f).2 ⟨hf, rfl⟩

end DispatchTable

namespace Context

variable {declared : Function → Prop} {c : Context} {o : DispatchOperation}
  {rest operations : List DispatchOperation}

/-- Seeding gathers the seeded candidates where the tables are clean, and the operations after it what they gather. -/
theorem gathers_seed_iff {f : Function} {candidates : DispatchMap} :
    Gathers f c (.seed candidates :: rest) ↔
      (c.table.isClean ∧ candidates.Holds f) ∨ Gathers f (c.operate (.seed candidates)) rest := by
  constructor
  · intro h
    cases h with
    | offered h hf => exact .inl ⟨c.exists_seedCandidates_eq_ok_iff.1 ⟨_, h⟩, hf⟩
    | later h => exact .inr h
  · rintro (⟨hclean, hf⟩ | h)
    · obtain ⟨c', hok⟩ := c.exists_seedCandidates_eq_ok_iff.2 hclean
      exact .offered hok hf
    · exact .later h

/-- Collecting gathers the reference if its expression was not collected yet and nothing forgets it later. -/
theorem gathers_collect_iff {f g : Function} {expression : NodeId} :
    Gathers f c (.collect expression g :: rest) ↔
      (c.table.pending.contains expression = false ∧ KeepsReference expression rest ∧ g = f) ∨
        Gathers f (c.operate (.collect expression g)) rest := by
  constructor
  · intro h
    cases h with
    | referenced h hkept =>
      exact .inl ⟨c.exists_collectReference_eq_ok_iff.1 ⟨_, h⟩, hkept, rfl⟩
    | later h => exact .inr h
  · rintro (⟨hnew, hkept, rfl⟩ | h)
    · obtain ⟨result, hok⟩ := c.exists_collectReference_eq_ok_iff.2 hnew
      exact .referenced hok hkept
    · exact .later h

/-- Any other operation gathers nothing itself. -/
theorem gathers_cons_iff {f : Function} (hseed : ∀ candidates, o ≠ .seed candidates)
    (hcollect : ∀ expression g, o ≠ .collect expression g) :
    Gathers f c (o :: rest) ↔ Gathers f (c.operate o) rest := by
  refine ⟨fun h => ?_, .later⟩
  cases h with
  | offered _ _ => exact absurd rfl (hseed _)
  | referenced _ _ => exact absurd rfl (hcollect _ _)
  | later h => exact h

/-- The functions that the maps will hold once these operations and a promotion are done: those that the table
has already, but for references that are still to be forgotten, and those that the operations gather. -/
def Knows (c : Context) (operations : List DispatchOperation) (f : Function) : Prop :=
  c.table.dispatch.Holds f ∨ c.table.candidates.Holds f ∨
    (∃ expression, c.table.pending.get? expression = some f ∧ KeepsReference expression operations) ∨
    Gathers f c operations

/-- Filing stays sound whatever is done between two times that the maps are handed out. -/
theorem sound_operate (hids : IdsIdentify declared) (h : c.table.Sound declared)
    (ho : o.IsAdmissible declared) : (c.operate o).table.Sound declared := by
  obtain ⟨hdispatch, hcandidates, hpending⟩ := h.wellFiled
  suffices (c.operate o).table.WellFiled declared ∧ (c.operate o).table.candidates.Inhabited from
    ⟨this.1, this.2, consistent_operate h.consistent o⟩
  cases o with
  | seed candidates =>
    rw [operate_seed]
    split
    · split <;> exact ⟨⟨hdispatch, ho.1, hpending⟩, ho.2⟩
    · exact ⟨h.wellFiled, h.inhabited⟩
  | collect expression g =>
    rw [operate_collect]
    split
    · exact ⟨h.wellFiled, h.inhabited⟩
    · refine ⟨⟨hdispatch, hcandidates, fun f hf => ?_⟩, h.inhabited⟩
      rcases SortedMap.mem_values_of_mem_insert hf with rfl | hf
      · exact ho
      · exact hpending f hf
  | forget expression =>
    rw [operate_forget]
    split
    · refine ⟨⟨hdispatch, hcandidates, fun f hf => ?_⟩, h.inhabited⟩
      exact hpending f (SortedMap.mem_values_of_mem_erase hf)
    · exact ⟨h.wellFiled, h.inhabited⟩
  | register arity =>
    rw [operate_register]
    split
    · exact ⟨h.wellFiled, h.inhabited⟩
    · refine ⟨⟨fun a members hmembers => ?_, hcandidates, hpending⟩, h.inhabited⟩
      rw [SortedMap.get?_insert] at hmembers
      split at hmembers
      · cases hmembers
        exact FunctionSet.of_empty
      · exact hdispatch a members hmembers
  | enqueue g =>
    have hsound := h.sameMaps (c.sameMaps_enqueue g)
    exact ⟨hsound.wellFiled, hsound.inhabited⟩
  | dequeue =>
    rw [table_operate_dequeue]
    exact ⟨h.wellFiled, h.inhabited⟩
  | promote =>
    have hsound := (h.promoted hids).sameMaps (sameMaps_operate_promote h.consistent)
    exact ⟨hsound.wellFiled, hsound.inhabited⟩
  | consume evidence => exact ho.elim

/-- Admissible operations keep sound tables sound. -/
theorem sound_operateAll (hids : IdsIdentify declared) (h : c.table.Sound declared)
    (hoperations : ∀ o ∈ operations, o.IsAdmissible declared) :
    (c.operateAll operations).table.Sound declared := by
  induction operations generalizing c with
  | nil => exact h
  | cons o rest ih =>
    obtain ⟨ho, hrest⟩ := List.forall_mem_cons.1 hoperations
    exact ih (sound_operate hids h ho) hrest

/-- Registering an arity files no function. -/
theorem holds_dispatch_register_iff (t : DispatchTable) (arity : Arity) (f : Function) :
    (t.register arity).dispatch.Holds f ↔ t.dispatch.Holds f := by
  rw [DispatchMap.Holds, DispatchMap.Holds, DispatchTable.get?_dispatch_register]
  cases t.dispatch.get? f.arity with
  | some members => rw [Option.some_or]
  | none =>
    rw [Option.none_or]
    refine iff_of_false ?_ ?_
    · rintro ⟨members, hmembers, hf⟩
      split at hmembers
      · cases hmembers
        cases hf
      · cases hmembers
    · rintro ⟨_, hmembers, _⟩
      cases hmembers

/-- A promotion files what waits, and loses nothing. -/
theorem holds_promoted_iff (hids : IdsIdentify declared) {t : DispatchTable} (h : t.Sound declared)
    (f : Function) :
    t.promoted.dispatch.Holds f ∨ t.promoted.candidates.Holds f ↔
      t.dispatch.Holds f ∨ t.candidates.Holds f ∨ f ∈ t.pending.values := by
  rw [h.wellFiled.holds_dispatch_promoted_iff hids h.consistent,
    h.wellFiled.holds_candidates_promoted_iff hids]
  by_cases hcontains : t.dispatch.contains f.arity
  · simp [hcontains]
  · have hnot : ¬ t.dispatch.Holds f := fun hf => hcontains hf.contains
    simp [hcontains, hnot]

/-- Clean tables have no candidates and nothing pending. -/
theorem candidates_and_pending_of_isClean (hclean : c.table.isClean) (f : Function) :
    ¬ c.table.candidates.Holds f ∧ ∀ e, c.table.pending.get? e = none := by
  rw [DispatchTable.isClean, Bool.and_eq_true, Bool.and_eq_true] at hclean
  refine ⟨?_, c.table.pending.isEmpty_iff.1 hclean.2⟩
  rintro ⟨_, hcandidates, _⟩
  rw [c.table.candidates.isEmpty_iff.1 hclean.1.2] at hcandidates
  cases hcandidates

/-- The references that wait and are kept, once an expression made one more. -/
theorem waits_insertIfNew_iff (pending : SortedMap NodeId Function) (expression : NodeId)
    (f g : Function) :
    (∃ e, (pending.insertIfNew expression g).get? e = some f ∧ KeepsReference e rest) ↔
      (∃ e, pending.get? e = some f ∧ KeepsReference e rest) ∨
        (pending.contains expression = false ∧ KeepsReference expression rest ∧ g = f) := by
  by_cases hold : pending.contains expression
  · rw [SortedMap.insertIfNew_of_contains hold]
    simp [hold]
  · have hnone : pending.get? expression = none := by simpa [SortedMap.contains] using hold
    simp only [SortedMap.get?_insertIfNew, hnone, Option.getD_none]
    constructor
    · rintro ⟨e, he, hkept⟩
      split at he
      next heq =>
        cases he
        exact .inr ⟨Bool.eq_false_iff.2 hold, heq ▸ hkept, rfl⟩
      next => exact .inl ⟨e, he, hkept⟩
    · rintro (⟨e, he, hkept⟩ | ⟨_, hkept, rfl⟩)
      · have hne : e ≠ expression := by
          rintro rfl
          rw [hnone] at he
          cases he
        exact ⟨e, by rw [if_neg hne, he], hkept⟩
      · exact ⟨expression, if_pos rfl, hkept⟩

/-- What will be known is the same before and after an operation. -/
theorem knows_operate_iff (hids : IdsIdentify declared) (h : c.table.Sound declared)
    (ho : o.IsAdmissible declared) (f : Function) :
    (c.operate o).Knows rest f ↔ c.Knows (o :: rest) f := by
  rw [Knows, Knows]
  cases o with
  | seed candidates =>
    rw [gathers_seed_iff]
    by_cases hclean : c.table.isClean
    · have hmaps : (c.operate (.seed candidates)).table.dispatch = c.table.dispatch ∧
          (c.operate (.seed candidates)).table.candidates = candidates ∧
          (c.operate (.seed candidates)).table.pending = c.table.pending := by
        rw [operate_seed, if_pos hclean]
        split <;> exact ⟨rfl, rfl, rfl⟩
      obtain ⟨hcandidates, hpending⟩ := candidates_and_pending_of_isClean hclean f
      rw [hmaps.1, hmaps.2.1, hmaps.2.2]
      simp [hclean, hcandidates, hpending]
    · have hsame : c.operate (.seed candidates) = c := by rw [operate_seed, if_neg hclean]
      rw [hsame]
      simp [hclean, KeepsReference]
  | collect expression g =>
    rw [gathers_collect_iff, dispatch_operate_collect, candidates_operate_collect,
      pending_operate_collect]
    rw [waits_insertIfNew_iff, or_assoc]
    rfl
  | forget expression =>
    rw [gathers_cons_iff (by simp) (by simp), dispatch_operate_forget, candidates_operate_forget,
      pending_operate_forget]
    refine or_congr_right (or_congr_right (or_congr_left (exists_congr fun e => ?_)))
    rw [SortedMap.get?_erase, KeepsReference]
    by_cases heq : e = expression
    · simp [heq]
    · simp [heq, Ne.symm heq]
  | register arity =>
    rw [gathers_cons_iff (by simp) (by simp)]
    change (c.table.register arity).dispatch.Holds f ∨ (c.table.register arity).candidates.Holds f ∨
      (∃ e, (c.table.register arity).pending.get? e = some f ∧ _) ∨ _ ↔ _
    rw [holds_dispatch_register_iff, DispatchTable.candidates_register, DispatchTable.pending_register]
    rfl
  | enqueue g =>
    obtain ⟨hdispatch, hcandidates, hpending⟩ := c.sameMaps_enqueue g
    rw [gathers_cons_iff (by simp) (by simp)]
    change (c.enqueue g).2.table.dispatch.Holds f ∨ (c.enqueue g).2.table.candidates.Holds f ∨
      (∃ e, (c.enqueue g).2.table.pending.get? e = some f ∧ _) ∨ _ ↔ _
    rw [hdispatch, hcandidates, hpending]
    rfl
  | dequeue =>
    rw [gathers_cons_iff (by simp) (by simp), table_operate_dequeue]
    rfl
  | promote =>
    -- Promotion only moves functions from what waits to the two maps.
    obtain ⟨hdispatch, hcandidates, hpending⟩ := sameMaps_operate_promote h.consistent
    rw [gathers_cons_iff (by simp) (by simp), hdispatch, hcandidates, hpending,
      DispatchTable.pending_promoted, ← or_assoc, holds_promoted_iff hids h, SortedMap.mem_values_iff]
    simp [KeepsReference, or_assoc]
  | consume evidence => exact ho.elim

/-- What is known behind operations is what was known before and what these gather. -/
theorem knows_operateAll_iff (hids : IdsIdentify declared) (h : c.table.Sound declared)
    (hoperations : ∀ o ∈ operations, o.IsAdmissible declared) (f : Function) :
    (c.operateAll operations).Knows [] f ↔ c.Knows operations f := by
  induction operations generalizing c with
  | nil => rfl
  | cons o rest ih =>
    obtain ⟨ho, hrest⟩ := List.forall_mem_cons.1 hoperations
    exact (ih (sound_operate hids h ho) hrest).trans (knows_operate_iff hids h ho f)

/-- Only a call brings an arity into the dispatch map. -/
theorem contains_dispatch_operate_iff (h : c.table.Consistent) (ho : o.IsAdmissible declared)
    (a : Arity) :
    (c.operate o).table.dispatch.contains a ↔ c.table.dispatch.contains a ∨ o = .register a := by
  cases o with
  | seed candidates =>
    rw [operate_seed]
    split
    · split <;> simp
    · simp
  | collect expression f => simp
  | forget expression => simp
  | register arity =>
    rw [operate_register]
    split
    next hold =>
      refine ⟨.inl, ?_⟩
      rintro (ha | ha)
      · exact ha
      · cases ha
        exact hold
    next =>
      rw [SortedMap.contains, SortedMap.contains, SortedMap.get?_insert]
      by_cases ha : a = arity
      · simp [ha]
      · simp [ha, Ne.symm ha]
  | enqueue f =>
    rw [operate, (c.sameMaps_enqueue f).dispatch]
    simp
  | dequeue => simp
  | promote =>
    rw [(sameMaps_operate_promote h).dispatch, DispatchTable.contains_dispatch_promoted]
    simp
  | consume evidence => exact ho.elim

/-- An arity is dispatched behind operations when it was before or one of them registers it. -/
theorem contains_dispatch_operateAll_iff (h : c.table.Consistent)
    (hoperations : ∀ o ∈ operations, o.IsAdmissible declared) (a : Arity) :
    (c.operateAll operations).table.dispatch.contains a ↔
      c.table.dispatch.contains a ∨ .register a ∈ operations := by
  induction operations generalizing c with
  | nil => simp [operateAll]
  | cons o rest ih =>
    obtain ⟨ho, hrest⟩ := List.forall_mem_cons.1 hoperations
    rw [operateAll, List.foldl_cons, ← operateAll, ih (consistent_operate h o) hrest,
      contains_dispatch_operate_iff h ho, List.mem_cons, or_assoc, eq_comm (a := o)]

theorem StartsOver.table_eq (h : c.StartsOver) : c.table = {} := by
  cases h with
  | new h => exact h
  | consumed h => exact table_of_consumeDispatch_eq_ok h

/-- At first the maps know nothing but what is to come. -/
theorem StartsOver.knows_iff (h : c.StartsOver) (f : Function) :
    c.Knows operations f ↔ Gathers f c operations := by
  rw [Knows, h.table_eq]
  refine ⟨?_, fun h => .inr (.inr (.inr h))⟩
  rintro (⟨_, h, _⟩ | ⟨_, h, _⟩ | ⟨_, h, _⟩ | h)
  · cases h
  · cases h
  · cases h
  · exact h

theorem StartsOver.sound (h : c.StartsOver) : c.table.Sound declared := by
  rw [h.table_eq]
  exact DispatchTable.sound_empty

theorem operateAll_append_promote (c : Context) (operations : List DispatchOperation) :
    c.operateAll (operations ++ [.promote]) = (c.operateAll operations).operate .promote := by
  rw [operateAll, List.foldl_append]
  rfl

/-- The maps after a promotion hold just what the operations gathered. -/
theorem StartsOver.files (hids : IdsIdentify declared) (hc : c.StartsOver)
    (hoperations : ∀ o ∈ operations, o.IsAdmissible declared) :
    (c.operateAll (operations ++ [.promote])).table.Files
      (Gathers · c (operations ++ [.promote])) (.register · ∈ operations) := by
  have hall : ∀ o ∈ operations ++ [.promote], o.IsAdmissible declared := by
    simpa [or_imp, forall_and, DispatchOperation.IsAdmissible] using hoperations
  have hfirst : c.table.Sound declared := hc.sound
  have hbefore := sound_operateAll hids hfirst hoperations
  have hafter := sound_operateAll hids hfirst hall
  have hsame := sameMaps_operate_promote hbefore.consistent
  rw [← operateAll_append_promote] at hsame
  refine (hafter.files (hsame.partitioned (DispatchTable.partitioned_promoted _))).congr
    (fun f => ?_) (fun a => ?_)
  · have hpending : (c.operateAll (operations ++ [.promote])).table.pending = .empty := by
      rw [hsame.pending, DispatchTable.pending_promoted]
    rw [← hc.knows_iff, ← knows_operateAll_iff hids hfirst hall, Knows, hpending]
    refine ⟨?_, Or.imp_right .inl⟩
    rintro (h | h | ⟨_, h, _⟩ | h)
    · exact .inl h
    · exact .inr h
    · cases h
    · cases h
  · rw [contains_dispatch_operateAll_iff hfirst.consistent hall, hc.table_eq]
    simp [SortedMap.contains]

/-- Between two times that `consumeDispatch` hands out the maps, whatever the operations and their order: the maps
after a promotion hold just the functions offered or referenced, under their arities, in the dispatch map for an arity
that is called and else among the candidates. `promoteReferences` gives, each once, the functions that it brings into
the dispatch map. And all operations that gather the same functions and call the same arities end with the same maps,
wherever else they promote. -/
theorem files_operateAll (hids : IdsIdentify declared) (hc : c.StartsOver)
    (hoperations : ∀ o ∈ operations, o.IsAdmissible declared) :
    let before := (c.operateAll operations).table
    let after := (c.operateAll (operations ++ [.promote])).table
    after.Files (Gathers · c (operations ++ [.promote])) (.register · ∈ operations) ∧
      (∃ functions t, before.promote = .ok (functions, t) ∧ t.SameMaps after ∧
        (functions.map (·.id)).Nodup ∧
        ∀ f, f ∈ functions ↔ after.dispatch.Holds f ∧ ¬ before.dispatch.Holds f) ∧
      ∀ (c' : Context) (operations' : List DispatchOperation), c'.StartsOver →
        (∀ o ∈ operations', o.IsAdmissible declared) →
        (∀ f, Gathers f c' (operations' ++ [.promote]) ↔ Gathers f c (operations ++ [.promote])) →
        (∀ a, .register a ∈ operations' ↔ .register a ∈ operations) →
        let other := (c'.operateAll (operations' ++ [.promote])).table
        other.dispatch = after.dispatch ∧ other.candidates = after.candidates := by
  have hfiles := hc.files hids hoperations
  have hbefore := sound_operateAll hids hc.sound hoperations
  refine ⟨hfiles, ⟨_, _, DispatchTable.promote_eq_ok hbefore.consistent, ?_, ?_, fun f => ?_⟩,
    fun c' operations' hc' hoperations' hgathers hcalls => ?_⟩
  · rw [operateAll_append_promote]
    exact sameMaps_operate_promote hbefore.consistent
  · exact hbefore.wellFiled.nodup_gained hids hbefore.consistent
  · rw [operateAll_append_promote, (sameMaps_operate_promote hbefore.consistent).dispatch]
    exact hbefore.wellFiled.mem_gained_iff hids hbefore.consistent f
  · exact hfiles.unique ((hc'.files hids hoperations').congr (fun f => (hgathers f).symm)
      (fun a => (hcalls a).symm))

end Context

namespace LateCall

def pointed : Function := { id := 1, name := "pointed" }

def direct : Function := { id := 2, name := "direct" }

/-- A pointer to a function waits and becomes a candidate before its arity is called, and another one is taken
back. -/
def operations : List DispatchOperation :=
  [.collect 10 pointed, .collect 11 direct, .forget 11, .promote, .register ⟨0, 0⟩]

def start : Context := { settings := {} }

end LateCall

open LateCall in
/-- Of the two functions only the one whose pointer stays reaches the dispatch map. -/
theorem Context.files_operateAll_lateCall :
    ∃ members, (start.operateAll (operations ++ [.promote])).table.dispatch.get? ⟨0, 0⟩ = some members ∧
      members.get? pointed.id = some pointed ∧ members.get? direct.id ≠ some direct := by
  have hids : IdsIdentify (· ∈ [pointed, direct]) := by
    intro f g hf hg h
    simp only [List.mem_cons, List.not_mem_nil, or_false] at hf hg
    rcases hf with rfl | rfl <;> rcases hg with rfl | rfl <;> first | rfl | cases h
  have hoperations : ∀ o ∈ operations, o.IsAdmissible (· ∈ [pointed, direct]) := by
    simp [operations, DispatchOperation.IsAdmissible]
  obtain ⟨hfiles, _⟩ := files_operateAll hids (.new rfl : start.StartsOver) hoperations
  obtain ⟨members, hmembers⟩ := Option.isSome_iff_exists.1
    ((hfiles.dispatched ⟨0, 0⟩).2 (by simp [operations]))
  refine ⟨members, hmembers, ?_, ?_⟩
  · exact (hfiles.members _ members hmembers _ _).2 ⟨rfl, rfl, .referenced rfl (by simp [KeepsReference])⟩
  · rw [Ne, hfiles.members _ members hmembers]
    rintro ⟨-, -, h⟩
    rcases gathers_collect_iff.1 h with ⟨-, -, heq⟩ | h
    · cases heq
    rcases gathers_collect_iff.1 h with ⟨-, hkept, -⟩ | h
    · exact hkept.1 rfl
    -- nothing else that is done collects a reference
    · repeat cases h with | later h
      cases h

end YulBackend
