import Mathlib.Data.List.Nodup
import YulBackend.Proofs.Codegen.Promotion

namespace YulBackend

/-- Different functions of a program have different identities. -/
def IdsIdentify (declared : Function → Prop) : Prop :=
  ∀ ⦃f g⦄, declared f → declared g → f.id = g.id → f = g

namespace FunctionSet

/-- Every function is under its own identity, and the predicate holds of it. -/
def Of (s : FunctionSet) (P : Function → Prop) : Prop := ∀ i f, s.get? i = some f → f.id = i ∧ P f

variable {P : Function → Prop} {s : FunctionSet}

theorem of_empty : Of .empty P := by
  intro i f h
  cases h

theorem get?_add (s : FunctionSet) (f : Function) (i : NodeId) :
    (s.add f).get? i = if i = f.id then some ((s.get? f.id).getD f) else s.get? i :=
  SortedMap.get?_insertIfNew s f.id f i

/-- What holds of a set and of a function holds of the set with the function added. -/
theorem Of.add (hs : s.Of P) {f : Function} (hf : P f) : (s.add f).Of P := by
  intro i g hg
  rw [get?_add] at hg
  split at hg
  next hi =>
    cases hold : s.get? f.id with
    | none =>
      rw [hold] at hg
      cases hg
      exact ⟨hi.symm, hf⟩
    | some old =>
      rw [hold] at hg
      cases hg
      rw [hi]
      exact hs _ _ hold
  next => exact hs i g hg

/-- Where numbers identify functions, a set with a function added holds that one besides its own. -/
theorem Of.get?_add_iff (hids : IdsIdentify P) (hs : s.Of P) {f : Function} (hf : P f) (g : Function) :
    (s.add f).get? g.id = some g ↔ s.get? g.id = some g ∨ g = f := by
  rw [get?_add]
  split
  next hid =>
    cases hold : s.get? f.id with
    | none =>
      rw [hid, hold]
      simp [eq_comm]
    | some old =>
      have hsame : old = f := hids (hs _ _ hold).2 hf (hs _ _ hold).1
      rw [hid, hold, hsame]
      simp [eq_comm]
  next hid =>
    refine ⟨.inl, ?_⟩
    rintro (h | rfl)
    · exact h
    · exact absurd rfl hid

section

variable {functions : List Function}

/-- What holds of a set and of functions holds of the set with these added. -/
theorem Of.foldl_add (hs : s.Of P) (hfunctions : ∀ f ∈ functions, P f) :
    Of (functions.foldl FunctionSet.add s) P := by
  induction functions generalizing s with
  | nil => exact hs
  | cons f rest ih =>
    obtain ⟨hf, hrest⟩ := List.forall_mem_cons.1 hfunctions
    exact ih (hs.add hf) hrest

/-- Where numbers identify functions, a set with functions added holds these besides its own. -/
theorem Of.get?_foldl_add_iff (hids : IdsIdentify P) (hs : s.Of P) (hfunctions : ∀ f ∈ functions, P f)
    (g : Function) :
    SortedMap.get? (functions.foldl FunctionSet.add s) g.id = some g ↔
      s.get? g.id = some g ∨ g ∈ functions := by
  induction functions generalizing s with
  | nil => simp
  | cons f rest ih =>
    obtain ⟨hf, hrest⟩ := List.forall_mem_cons.1 hfunctions
    rw [List.foldl_cons, ih (hs.add hf) hrest, hs.get?_add_iff hids hf, List.mem_cons, or_assoc]

end

theorem Of.nodup_values (hs : s.Of P) : s.values.Nodup := by
  refine s.nodup_entries.map_on fun e he e' he' hsame => Prod.ext ?_ hsame
  rw [← (hs _ _ (s.mem_entries_iff.1 he)).1, ← (hs _ _ (s.mem_entries_iff.1 he')).1, hsame]

end FunctionSet

namespace DispatchMap

/-- A function is filed under its own arity. -/
def Holds (m : DispatchMap) (f : Function) : Prop :=
  ∃ members, m.get? f.arity = some members ∧ members.get? f.id = some f

/-- Every function is filed under its own arity. -/
def WellFiled (m : DispatchMap) (declared : Function → Prop) : Prop :=
  ∀ a members, m.get? a = some members → members.Of fun f => f.arity = a ∧ declared f

variable {declared : Function → Prop} {m : DispatchMap}

theorem Holds.contains {f : Function} (h : m.Holds f) : m.contains f.arity := by
  obtain ⟨members, hmembers, _⟩ := h
  rw [SortedMap.contains, hmembers, Option.isSome_some]

theorem wellFiled_empty : WellFiled .empty declared := by
  intro a members h
  cases h

/-- The functions of one arity are those that are filed and have it. -/
theorem WellFiled.get?_eq_some_iff (h : m.WellFiled declared) {a : Arity} {members : FunctionSet}
    (hmembers : m.get? a = some members) (f : Function) :
    members.get? f.id = some f ↔ m.Holds f ∧ f.arity = a := by
  refine ⟨fun hf => ?_, ?_⟩
  · obtain ⟨_, harity, _⟩ := h a members hmembers _ _ hf
    exact ⟨⟨members, by rw [harity, hmembers], hf⟩, harity⟩
  · rintro ⟨⟨members', hmembers', hf⟩, rfl⟩
    rw [hmembers] at hmembers'
    cases hmembers'
    exact hf

/-- The members of an arity's entry are the functions that are filed and have the arity. -/
theorem WellFiled.mem_values_iff (h : m.WellFiled declared) {a : Arity} {members : FunctionSet}
    (hmembers : m.get? a = some members) (f : Function) :
    f ∈ members.values ↔ m.Holds f ∧ f.arity = a := by
  rw [SortedMap.mem_values_iff, ← h.get?_eq_some_iff hmembers]
  refine ⟨fun ⟨i, hi⟩ => ?_, fun hf => ⟨_, hf⟩⟩
  rw [(h a members hmembers i f hi).1, hi]

theorem WellFiled.declared_of_holds (h : m.WellFiled declared) {f : Function} (hf : m.Holds f) :
    declared f := by
  obtain ⟨members, hmembers, hf⟩ := hf
  exact (h _ _ hmembers _ _ hf).2.2

/-- Every arity has a function. -/
def Inhabited (m : DispatchMap) : Prop := ∀ a, m.contains a → ∃ f, m.Holds f ∧ f.arity = a

/-- Filing a declared function keeps a map well filed. -/
theorem WellFiled.file (h : m.WellFiled declared) {f : Function} (hf : declared f) :
    (m.file f).WellFiled declared := by
  intro a members hmembers
  rw [get?_file] at hmembers
  split at hmembers
  next ha =>
    cases hmembers
    refine FunctionSet.Of.add ?_ ⟨ha.symm, hf⟩
    cases hold : m.get? a with
    | none => exact FunctionSet.of_empty
    | some old => exact h a old hold
  next => exact h a members hmembers

/-- Filing a declared function files it and no other. -/
theorem WellFiled.holds_file_iff (hids : IdsIdentify declared) (h : m.WellFiled declared)
    {f : Function} (hf : declared f) (g : Function) : (m.file f).Holds g ↔ m.Holds g ∨ g = f := by
  have hids' : IdsIdentify fun g => g.arity = f.arity ∧ declared g :=
    fun _ _ hg hg' => hids hg.2 hg'.2
  by_cases harity : g.arity = f.arity
  · cases hold : m.get? f.arity with
    | none =>
      have hadd := FunctionSet.of_empty.get?_add_iff hids' ⟨rfl, hf⟩ g
      simpa [Holds, get?_file, harity, hold] using hadd
    | some old =>
      have hadd := (h _ old hold).get?_add_iff hids' ⟨rfl, hf⟩ g
      simpa [Holds, get?_file, harity, hold] using hadd
  · have hne : g ≠ f := fun heq => harity (heq ▸ rfl)
    simp [Holds, get?_file, harity, hne]

/-- Filing functions leaves no entry without members. -/
theorem WellFiled.inhabited_file (hids : IdsIdentify declared) (h : m.WellFiled declared)
    (hinhabited : m.Inhabited) {f : Function} (hf : declared f) : (m.file f).Inhabited := by
  intro a ha
  rw [contains_file, Bool.or_eq_true, decide_eq_true_eq] at ha
  rcases ha with rfl | ha
  · exact ⟨f, (h.holds_file_iff hids hf f).2 (.inr rfl), rfl⟩
  · obtain ⟨g, hg, harity⟩ := hinhabited a ha
    exact ⟨g, (h.holds_file_iff hids hf g).2 (.inl hg), harity⟩

section

variable {functions : List Function}

/-- Filing declared functions keeps a map well filed. -/
theorem WellFiled.foldl_file (h : m.WellFiled declared) (hfunctions : ∀ f ∈ functions, declared f) :
    WellFiled (functions.foldl DispatchMap.file m) declared := by
  induction functions generalizing m with
  | nil => exact h
  | cons f rest ih =>
    obtain ⟨hf, hrest⟩ := List.forall_mem_cons.1 hfunctions
    exact ih (h.file hf) hrest

/-- Filing declared functions files these and no others. -/
theorem WellFiled.holds_foldl_file_iff (hids : IdsIdentify declared) (h : m.WellFiled declared)
    (hfunctions : ∀ f ∈ functions, declared f) (g : Function) :
    Holds (functions.foldl DispatchMap.file m) g ↔ m.Holds g ∨ g ∈ functions := by
  induction functions generalizing m with
  | nil => simp
  | cons f rest ih =>
    obtain ⟨hf, hrest⟩ := List.forall_mem_cons.1 hfunctions
    rw [List.foldl_cons, ih (h.file hf) hrest, h.holds_file_iff hids hf, List.mem_cons, or_assoc]

/-- Filing declared functions leaves no entry without members. -/
theorem WellFiled.inhabited_foldl_file (hids : IdsIdentify declared) (h : m.WellFiled declared)
    (hinhabited : m.Inhabited) (hfunctions : ∀ f ∈ functions, declared f) :
    Inhabited (functions.foldl DispatchMap.file m) := by
  induction functions generalizing m with
  | nil => exact hinhabited
  | cons f rest ih =>
    obtain ⟨hf, hrest⟩ := List.forall_mem_cons.1 hfunctions
    exact ih (h.file hf) (h.inhabited_file hids hinhabited hf) hrest

end

end DispatchMap

namespace DispatchTable

/-- Every function that a table knows is declared and filed under its own arity. -/
structure WellFiled (t : DispatchTable) (declared : Function → Prop) : Prop where
  dispatch : t.dispatch.WellFiled declared
  candidates : t.candidates.WellFiled declared
  pending : ∀ f ∈ t.pending.values, declared f

variable {declared : Function → Prop} {t : DispatchTable}

theorem Consistent.get?_eq_none (h : t.Consistent) {a : Arity} {members candidates : FunctionSet}
    (hmembers : t.dispatch.get? a = some members) (hcandidates : t.candidates.get? a = some candidates)
    (i : NodeId) : members.get? i = none := by
  refine members.isEmpty_iff.1 (h a members hmembers ?_) i
  rw [SortedMap.contains, hcandidates, Option.isSome_some]

theorem Consistent.not_holds_dispatch (h : t.Consistent) {f : Function} (hf : t.candidates.Holds f) :
    ¬ t.dispatch.Holds f := by
  obtain ⟨candidates, hcandidates, _⟩ := hf
  rintro ⟨members, hmembers, hold⟩
  rw [h.get?_eq_none hmembers hcandidates] at hold
  cases hold

/-- Promotion files under the dispatched arities the candidates and the pending functions of these. -/
theorem WellFiled.holds_dispatch_promoted_iff (hids : IdsIdentify declared) (h : t.WellFiled declared)
    (hconsistent : t.Consistent) (f : Function) :
    t.promoted.dispatch.Holds f ↔
      t.dispatch.contains f.arity ∧
        (t.dispatch.Holds f ∨ t.candidates.Holds f ∨ f ∈ t.pending.values) := by
  have hids' : IdsIdentify fun g => g.arity = f.arity ∧ declared g :=
    fun _ _ hg hg' => hids hg.2 hg'.2
  have hpending : ∀ g ∈ t.pending.values.filter (·.arity = f.arity), g.arity = f.arity ∧ declared g := by
    intro g hg
    obtain ⟨hg, harity⟩ := List.mem_filter.1 hg
    exact ⟨of_decide_eq_true harity, h.pending g hg⟩
  cases hmembers : t.dispatch.get? f.arity with
  | none => simp [DispatchMap.Holds, get?_dispatch_promoted, hmembers, SortedMap.contains]
  | some members =>
    cases hcandidates : t.candidates.get? f.arity with
    | none =>
      have hadd := (h.dispatch _ members hmembers).get?_foldl_add_iff hids' hpending f
      simpa [DispatchMap.Holds, get?_dispatch_promoted, hmembers, SortedMap.contains, hcandidates]
        using hadd
    | some candidates =>
      have hempty : members.get? f.id = none :=
        hconsistent.get?_eq_none hmembers hcandidates f.id
      have hadd := (h.candidates _ candidates hcandidates).get?_foldl_add_iff hids' hpending f
      simpa [DispatchMap.Holds, get?_dispatch_promoted, hmembers, SortedMap.contains, hcandidates,
        hempty] using hadd

/-- Promotion keeps as candidates those of arities without a dispatcher, the pending functions among them. -/
theorem WellFiled.holds_candidates_promoted_iff (hids : IdsIdentify declared) (h : t.WellFiled declared)
    (f : Function) :
    t.promoted.candidates.Holds f ↔
      t.dispatch.contains f.arity = false ∧ (t.candidates.Holds f ∨ f ∈ t.pending.values) := by
  rw [← h.candidates.holds_foldl_file_iff hids h.pending, DispatchMap.Holds, DispatchMap.Holds,
    get?_candidates_promoted]
  by_cases hcontains : t.dispatch.contains f.arity <;> simp [hcontains]

/-- Promotion keeps tables well filed. -/
theorem WellFiled.promoted (h : t.WellFiled declared) : t.promoted.WellFiled declared := by
  refine ⟨fun a members hmembers => ?_, fun a members hmembers => ?_, fun f hf => ?_⟩
  · rw [get?_dispatch_promoted] at hmembers
    obtain ⟨old, hold, rfl⟩ := Option.map_eq_some_iff.1 hmembers
    refine FunctionSet.Of.foldl_add ?_ fun f hf => ?_
    · cases hcandidates : t.candidates.get? a with
      | none => exact h.dispatch a old hold
      | some candidates => exact h.candidates a candidates hcandidates
    · obtain ⟨hf, harity⟩ := List.mem_filter.1 hf
      exact ⟨of_decide_eq_true harity, h.pending f hf⟩
  · rw [get?_candidates_promoted] at hmembers
    split at hmembers
    · cases hmembers
    · exact h.candidates.foldl_file h.pending a members hmembers
  · rw [pending_promoted] at hf
    cases hf

/-- Promotion leaves no arity with an empty set of candidates. -/
theorem WellFiled.inhabited_promoted (hids : IdsIdentify declared) (h : t.WellFiled declared)
    (hinhabited : t.candidates.Inhabited) : t.promoted.candidates.Inhabited := by
  intro a ha
  rw [SortedMap.contains, get?_candidates_promoted] at ha
  split at ha
  · cases ha
  next hcontains =>
    obtain ⟨f, hf, harity⟩ := h.candidates.inhabited_foldl_file hids hinhabited h.pending a ha
    refine ⟨f, (h.holds_candidates_promoted_iff hids f).2 ⟨?_, ?_⟩, harity⟩
    · rw [harity]
      exact Bool.eq_false_iff.2 hcontains
    · exact (h.candidates.holds_foldl_file_iff hids h.pending f).1 hf

/-- A dispatcher gains the candidates of its arity. -/
theorem WellFiled.mem_gainedCandidates_iff (h : t.WellFiled declared) (a : Arity) (f : Function) :
    f ∈ t.gainedCandidates a ↔ t.candidates.Holds f ∧ f.arity = a := by
  rw [gainedCandidates]
  cases hcandidates : t.candidates.get? a with
  | none =>
    refine iff_of_false List.not_mem_nil ?_
    rintro ⟨⟨candidates, hsome, _⟩, rfl⟩
    rw [hcandidates] at hsome
    cases hsome
  | some candidates => exact h.candidates.mem_values_iff hcandidates f

/-- What moves over are the candidates of the arities, whichever moves first. -/
theorem joined_takeCandidates_eq {arities : List Arity} (hdistinct : arities.Nodup) (t : DispatchTable) :
    joined takeCandidates gainedCandidates t arities = arities.flatMap t.gainedCandidates := by
  induction arities generalizing t with
  | nil => rfl
  | cons arity rest ih =>
    obtain ⟨hnotMem, hrest⟩ := List.nodup_cons.1 hdistinct
    have hlater : ∀ a ∈ rest, (t.takeCandidates arity).gainedCandidates a = t.gainedCandidates a := by
      intro a ha
      have hne : a ≠ arity := fun heq => hnotMem (heq ▸ ha)
      rw [gainedCandidates, get?_candidates_takeCandidates, if_neg hne, gainedCandidates]
    rw [joined, ih hrest, List.flatMap_cons, List.flatMap_congr hlater]

/-- Filing a pending function dispatches it if its arity has a dispatcher. -/
theorem holds_dispatch_fileReference_iff (hids : IdsIdentify declared)
    (h : t.dispatch.WellFiled declared) {f : Function} (hf : declared f) (g : Function) :
    (t.fileReference f).dispatch.Holds g ↔
      t.dispatch.Holds g ∨ t.dispatch.contains g.arity ∧ g = f := by
  rw [fileReference]
  split
  next hcontains =>
    rw [h.holds_file_iff hids hf]
    refine or_congr_right ⟨?_, And.right⟩
    rintro rfl
    exact ⟨hcontains, rfl⟩
  next hcontains =>
    refine ⟨.inl, ?_⟩
    rintro (hg | ⟨hg, rfl⟩)
    · exact hg
    · exact absurd hg hcontains

theorem wellFiled_dispatch_fileReference (h : t.dispatch.WellFiled declared) {f : Function} (hf : declared f) :
    (t.fileReference f).dispatch.WellFiled declared := by
  rw [DispatchTable.fileReference]
  split
  · exact h.file hf
  · exact h

/-- A pending function is gained if its arity has a dispatcher that did not hold it. -/
theorem mem_gainedReference_iff (hids : IdsIdentify declared) (h : t.dispatch.WellFiled declared)
    {f : Function} (hf : declared f) (g : Function) :
    g ∈ t.gainedReference f ↔ t.dispatch.contains g.arity ∧ ¬ t.dispatch.Holds g ∧ g = f := by
  have hmem : t.dispatch.contains f.arity ∧ ¬ t.dispatch.Holds f ↔ f ∈ t.gainedReference f := by
    rw [gainedReference, SortedMap.contains, DispatchMap.Holds]
    cases hmembers : t.dispatch.get? f.arity with
    | none => simp
    | some members =>
      cases hold : members.get? f.id with
      | none => simp [SortedMap.contains, hold]
      | some old =>
        obtain ⟨hid, _, hdeclared⟩ := h _ members hmembers _ old hold
        simp [SortedMap.contains, hold, hids hdeclared hf hid]
  have hall : g ∈ t.gainedReference f → g = f := by
    intro hg
    rw [gainedReference] at hg
    split at hg
    · cases hg
    · split at hg
      · cases hg
      · exact List.mem_singleton.1 hg
  refine ⟨fun hg => ?_, ?_⟩
  · obtain rfl := hall hg
    exact ⟨(hmem.2 hg).1, (hmem.2 hg).2, rfl⟩
  · rintro ⟨hcontains, hnew, rfl⟩
    exact hmem.1 ⟨hcontains, hnew⟩

/-- What references make dispatchable are those whose arity is dispatched and that were no members of
it before. -/
theorem mem_joined_fileReference_iff (hids : IdsIdentify declared) {functions : List Function}
    (hfunctions : ∀ f ∈ functions, declared f) {t : DispatchTable}
    (h : t.dispatch.WellFiled declared) (f : Function) :
    f ∈ joined fileReference gainedReference t functions ↔
      t.dispatch.contains f.arity ∧ ¬ t.dispatch.Holds f ∧ f ∈ functions := by
  induction functions generalizing t with
  | nil => simp [joined]
  | cons g rest ih =>
    obtain ⟨hg, hrest⟩ := List.forall_mem_cons.1 hfunctions
    rw [joined, List.mem_append, ih hrest (wellFiled_dispatch_fileReference h hg),
      mem_gainedReference_iff hids h hg, contains_dispatch_fileReference,
      holds_dispatch_fileReference_iff hids h hg, List.mem_cons]
    by_cases hsame : f = g
    · subst hsame
      by_cases hcontains : t.dispatch.contains f.arity <;> simp [hcontains]
    · simp [hsame]

/-- Taking the candidates dispatches those whose arity has a dispatcher. -/
theorem holds_dispatch_taken_iff (hconsistent : t.Consistent) (f : Function) :
    t.taken.dispatch.Holds f ↔
      t.dispatch.contains f.arity ∧ (t.dispatch.Holds f ∨ t.candidates.Holds f) := by
  cases hmembers : t.dispatch.get? f.arity with
  | none => simp [DispatchMap.Holds, get?_dispatch_taken, SortedMap.contains, hmembers]
  | some members =>
    cases hcandidates : t.candidates.get? f.arity with
    | none =>
      simp [DispatchMap.Holds, get?_dispatch_taken, SortedMap.contains, hmembers, hcandidates]
    | some candidates =>
      have hempty : members.get? f.id = none :=
        hconsistent.get?_eq_none hmembers hcandidates f.id
      simp [DispatchMap.Holds, get?_dispatch_taken, SortedMap.contains, hmembers, hcandidates, hempty]

/-- Taking the candidates keeps the dispatchers well filed. -/
theorem wellFiled_dispatch_taken (h : t.WellFiled declared) : t.taken.dispatch.WellFiled declared := by
  intro a members hmembers
  rw [get?_dispatch_taken] at hmembers
  obtain ⟨old, hold, rfl⟩ := Option.map_eq_some_iff.1 hmembers
  cases hcandidates : t.candidates.get? a with
  | none => exact h.dispatch a old hold
  | some candidates => exact h.candidates a candidates hcandidates

/-- A promotion gives the functions that it makes members of the dispatch map. -/
theorem WellFiled.mem_gained_iff (hids : IdsIdentify declared) (h : t.WellFiled declared)
    (hconsistent : t.Consistent) (f : Function) :
    f ∈ t.gained ↔ t.promoted.dispatch.Holds f ∧ ¬ t.dispatch.Holds f := by
  have hmoved : f ∈ joined takeCandidates gainedCandidates t t.dispatch.keys ↔
      t.dispatch.contains f.arity ∧ t.candidates.Holds f := by
    rw [joined_takeCandidates_eq t.dispatch.nodup_keys]
    simp only [List.mem_flatMap, SortedMap.mem_keys_iff, h.mem_gainedCandidates_iff]
    refine ⟨?_, fun ⟨hcontains, hf⟩ => ⟨f.arity, hcontains, hf, rfl⟩⟩
    rintro ⟨a, hcontains, hf, rfl⟩
    exact ⟨hcontains, hf⟩
  have hfiled : f ∈ joined fileReference gainedReference t.taken t.pending.values ↔
      t.dispatch.contains f.arity ∧ ¬ (t.dispatch.Holds f ∨ t.candidates.Holds f) ∧
        f ∈ t.pending.values := by
    rw [mem_joined_fileReference_iff hids h.pending (wellFiled_dispatch_taken h),
      contains_dispatch_taken, holds_dispatch_taken_iff hconsistent]
    by_cases hcontains : t.dispatch.contains f.arity <;> simp [hcontains]
  rw [gained, List.mem_append, hmoved, hfiled, h.holds_dispatch_promoted_iff hids hconsistent]
  by_cases hcandidates : t.candidates.Holds f
  · have hnew := hconsistent.not_holds_dispatch hcandidates
    simp [hcandidates, hnew]
  · by_cases hdispatch : t.dispatch.Holds f <;> simp [hcandidates, hdispatch]

theorem WellFiled.nodup_gainedCandidates (h : t.WellFiled declared) (a : Arity) :
    (t.gainedCandidates a).Nodup := by
  rw [gainedCandidates]
  cases hcandidates : t.candidates.get? a with
  | none => exact List.nodup_nil
  | some candidates => exact (h.candidates a candidates hcandidates).nodup_values

/-- No pending function is gained twice: the second time its dispatcher holds it. -/
theorem nodup_joined_fileReference (hids : IdsIdentify declared) {functions : List Function}
    (hfunctions : ∀ f ∈ functions, declared f) {t : DispatchTable}
    (h : t.dispatch.WellFiled declared) :
    (joined fileReference gainedReference t functions).Nodup := by
  induction functions generalizing t with
  | nil => exact List.nodup_nil
  | cons f rest ih =>
    obtain ⟨hf, hrest⟩ := List.forall_mem_cons.1 hfunctions
    have hfiled := wellFiled_dispatch_fileReference h hf
    have hfirst : (t.gainedReference f).Nodup := by
      rw [gainedReference]
      split
      · exact List.nodup_nil
      · split
        · exact List.nodup_nil
        · exact List.nodup_singleton f
    refine List.nodup_append.2 ⟨hfirst, ih hrest hfiled, fun g hg g' hg' heq => ?_⟩
    subst heq
    obtain ⟨hcontains, _, rfl⟩ := (mem_gainedReference_iff hids h hf g).1 hg
    refine ((mem_joined_fileReference_iff hids hrest hfiled g).1 hg').2.1 ?_
    exact (holds_dispatch_fileReference_iff hids h hf g).2 (.inr ⟨hcontains, rfl⟩)

/-- A promotion gives no identity twice. -/
theorem WellFiled.nodup_gained (hids : IdsIdentify declared) (h : t.WellFiled declared)
    (hconsistent : t.Consistent) : (t.gained.map (·.id)).Nodup := by
  have hdeclared : ∀ f ∈ t.gained, declared f := fun f hf =>
    h.promoted.dispatch.declared_of_holds ((h.mem_gained_iff hids hconsistent f).1 hf).1
  refine List.Nodup.map_on (fun f hf g hg => hids (hdeclared f hf) (hdeclared g hg)) ?_
  rw [gained, joined_takeCandidates_eq t.dispatch.nodup_keys]
  refine List.nodup_append.2 ⟨List.nodup_flatMap.2 ⟨fun a _ => h.nodup_gainedCandidates a, ?_⟩,
    nodup_joined_fileReference hids h.pending (wellFiled_dispatch_taken h), ?_⟩
  · refine t.dispatch.nodup_keys.imp fun hne f hf hf' => hne ?_
    exact ((h.mem_gainedCandidates_iff _ f).1 hf).2.symm.trans ((h.mem_gainedCandidates_iff _ f).1 hf').2
  · rintro f hf g hg rfl
    obtain ⟨a, ha, hf⟩ := List.mem_flatMap.1 hf
    obtain ⟨hcandidate, rfl⟩ := (h.mem_gainedCandidates_iff a f).1 hf
    refine ((mem_joined_fileReference_iff hids h.pending (wellFiled_dispatch_taken h) f).1 hg).2.1 ?_
    exact (holds_dispatch_taken_iff hconsistent f).2 ⟨t.dispatch.mem_keys_iff.1 ha, .inr hcandidate⟩

end DispatchTable

end YulBackend
