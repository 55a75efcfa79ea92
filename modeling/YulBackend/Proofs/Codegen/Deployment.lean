import YulBackend.Proofs.Codegen.Generation

namespace YulBackend

/-- Nothing is made, queued or known of pointers: a new context, or one whose object was handed out. -/
structure Context.Vacant (c : Context) : Prop where
  collector : c.collector.isEmpty
  queue : c.queue.isEmpty
  table : c.table.isClean

theorem DispatchTable.isEmpty_of_isClean {t : DispatchTable} (h : t.isClean) :
    t.dispatch.isEmpty ∧ t.candidates.isEmpty ∧ t.pending.isEmpty := by
  rw [isClean, Bool.and_eq_true, Bool.and_eq_true] at h
  exact ⟨h.1.1, h.1.2, h.2⟩

/-- A vacant context offers no candidates. -/
theorem Context.Vacant.not_holds {c : Context} (h : c.Vacant) (f : Function) :
    ¬ c.table.candidates.Holds f := by
  intro hf
  have hempty := (DispatchTable.isEmpty_of_isClean h.table).2.1
  have hcontains := hf.contains
  rw [SortedMap.contains, c.table.candidates.isEmpty_iff.1 hempty] at hcontains
  cases hcontains

/-- A clean table accepts any candidates, and knows nothing else afterwards. -/
theorem DispatchTable.seed_eq_ok {t : DispatchTable} (h : t.isClean) (candidates : DispatchMap) :
    ∃ t', t.seed candidates = .ok t' ∧ t'.candidates = candidates ∧ t'.dispatch = t.dispatch ∧
      t'.pending = t.pending := by
  rw [seed, if_pos h]
  refine ⟨_, rfl, ?_⟩
  split <;> exact ⟨rfl, rfl, rfl⟩

namespace Program

variable {p : Program}

/-- One of these functions refers to a function by value. -/
def Refers (p : Program) (lowered : List Function) (f : Function) : Prop :=
  ∃ user ∈ lowered, f ∈ (p.body user).references.values

/-- One of these functions calls through a pointer of an arity. -/
def Calls (p : Program) (lowered : List Function) (a : Arity) : Prop :=
  ∃ caller ∈ lowered, a ∈ (p.body caller).pointerCalls

theorem refers_append {first second : List Function} {f : Function} :
    p.Refers (first ++ second) f ↔ p.Refers first f ∨ p.Refers second f := by
  simp only [Refers, List.mem_append, or_and_right, exists_or]

/-- An object knows all functions whose pointers may be set where it runs, and no others: it can call those of
the arities that it calls, and keeps those of the others. -/
structure KeepsPointers (p : Program) (created deployed : List Function) (object : GeneratedObject) :
    Prop where
  called : ∃ collector rest : Collector, collector.take = .ok (object.code, rest) ∧
    ∀ f, p.Refers (created ++ deployed) f → p.Calls deployed f.arity →
      object.dispatch.Holds f ∧ collector.code? f.codeName = some (p.body f).code
  uncalled : ∀ f, p.Refers (created ++ deployed) f → ¬ p.Calls deployed f.arity →
    object.leftover.Holds f
  apart : ∀ a, object.dispatch.contains a → object.leftover.contains a = false
  noOther : ∀ a members, object.dispatch.get? a = some members ∨ object.leftover.get? a = some members →
    ∀ f ∈ members.values, p.Refers (created ++ deployed) f ∧ f.arity = a

/-- A vacant context is fresh for any program. -/
theorem fresh_of_vacant {c : Context} (h : c.Vacant) : p.Fresh c := by
  obtain ⟨hdispatch, hcandidates, hpending⟩ := DispatchTable.isEmpty_of_isClean h.table
  have hnone : ∀ a, c.table.candidates.get? a = none := c.table.candidates.isEmpty_iff.1 hcandidates
  refine ⟨h.collector, h.queue, hdispatch, hpending, fun a members hmembers => ?_, fun a ha => ?_⟩
  · rw [hnone] at hmembers
    cases hmembers
  · rw [SortedMap.contains, hnone] at ha
    cases ha

end Program

namespace DispatchMap

variable {declared : Function → Prop}

/-- Adding functions to those of their arity is to file them. -/
theorem addAll_eq_foldl_file (m : DispatchMap) {a : Arity} {functions : List Function}
    (hne : functions ≠ []) (harity : ∀ f ∈ functions, f.arity = a) :
    m.addAll a functions = functions.foldl file m := by
  refine SortedMap.ext_get? fun b => ?_
  rw [addAll, SortedMap.get?_alter, get?_foldl_file]
  by_cases hb : b = a
  · obtain ⟨f, hf⟩ := List.exists_mem_of_ne_nil functions hne
    have hany : functions.any (·.arity = b) := List.any_eq_true.2 ⟨f, hf, by simp [harity f hf, hb]⟩
    have hall : functions.filter (·.arity = b) = functions :=
      List.filter_eq_self.2 fun f hf => by simp [harity f hf, hb]
    rw [if_pos hb, if_pos hany, hall, hb]
  · have hnone : ¬ functions.any (·.arity = b) := by
      rw [List.any_eq_true]
      rintro ⟨f, hf, heq⟩
      exact hb ((of_decide_eq_true heq).symm.trans (harity f hf))
    rw [if_neg hb, if_neg hnone]

/-- The functions of a map. -/
def functions (m : DispatchMap) : List Function := m.entries.flatMap fun e => e.2.values

/-- The functions of a well-filed map are those it holds. -/
theorem WellFiled.mem_functions_iff {m : DispatchMap} (h : m.WellFiled declared) (f : Function) :
    f ∈ m.functions ↔ m.Holds f := by
  simp only [functions, List.mem_flatMap, Prod.exists, SortedMap.mem_entries_iff]
  constructor
  · rintro ⟨a, members, hmembers, hf⟩
    exact ((h.mem_values_iff hmembers f).1 hf).1
  · rintro ⟨members, hmembers, hf⟩
    exact ⟨f.arity, members, hmembers, (SortedMap.mem_values_iff _).2 ⟨_, hf⟩⟩

end DispatchMap

namespace Generating

variable {declared : Function → Prop} {object : GeneratedObject}

/-- Of the arities of an object, one that has functions has them filed. -/
theorem addAll_values_eq (m : DispatchMap) {a : Arity} {members : FunctionSet}
    (h : ∀ f ∈ members.values, f.arity = a) :
    (if members.isEmpty then m else m.addAll a members.values) =
      members.values.foldl DispatchMap.file m := by
  split
  next hempty =>
    have hnone : members.values = [] := by
      rw [SortedMap.values, List.isEmpty_iff.1 hempty, List.map_nil]
    rw [hnone, List.foldl_nil]
  next hfull =>
    refine DispatchMap.addAll_eq_foldl_file m (fun hnone => hfull ?_) h
    rw [SortedMap.isEmpty, List.map_eq_nil_iff.1 hnone, List.isEmpty_nil]

/-- What an object offers: its leftover candidates, with all functions that it dispatches filed beside them. -/
theorem offered_eq (h : object.dispatch.WellFiled declared) :
    offered object = object.dispatch.functions.foldl DispatchMap.file object.leftover := by
  have hentries : ∀ e ∈ object.dispatch.entries, ∀ f ∈ e.2.values, f.arity = e.1 := by
    intro e he f hf
    exact ((h.mem_values_iff (object.dispatch.mem_entries_iff.1 he) f).1 hf).2
  rw [offered, DispatchMap.functions, List.foldl_flatMap]
  exact List.foldl_ext _ _ _ fun m e he => addAll_values_eq m (hentries e he)

variable {p : Program} {lowering : Lowering} {entries : List Function}

/-- Once an object is handed out nothing of it is left, whatever the lowering does. -/
theorem vacant_of_generateObject_eq_ok {fuel : Nat} {name : String} {g g' : Generator}
    (h : generateObject lowering fuel name entries g = some (.ok object, g')) : g'.context.Vacant := by
  obtain ⟨result, g₁, _, hqueue, rfl, _⟩ := exists_of_generateObject_eq_ok h
  exact ⟨rfl, hqueue, rfl⟩

/-- The functions that an object offers are those that its maps hold, each under its own arity. -/
theorem holds_offered_iff (hids : IdsIdentify declared) (hdispatch : object.dispatch.WellFiled declared)
    (hleftover : object.leftover.WellFiled declared) (f : Function) :
    (offered object).Holds f ↔ object.dispatch.Holds f ∨ object.leftover.Holds f := by
  have hdeclared : ∀ f ∈ object.dispatch.functions, declared f := fun f hf =>
    hdispatch.declared_of_holds ((hdispatch.mem_functions_iff f).1 hf)
  rw [offered_eq hdispatch, hleftover.holds_foldl_file_iff hids hdeclared, hdispatch.mem_functions_iff,
    or_comm]

/-- A context that nothing was generated in yet but for what the object offers. -/
theorem fresh_of_seeded (hids : IdsIdentify p.declared) (hdispatch : object.dispatch.WellFiled p.declared)
    (hleftover : object.leftover.WellFiled p.declared) (hinhabited : object.leftover.Inhabited)
    {c c' : Context} (hvacant : c.Vacant) (h : c.seedCandidates (offered object) = .ok c') :
    p.Fresh c' ∧ c'.table.candidates = offered object := by
  have hdeclared : ∀ f ∈ object.dispatch.functions, p.declared f := fun f hf =>
    hdispatch.declared_of_holds ((hdispatch.mem_functions_iff f).1 hf)
  obtain ⟨t, hseed, hcandidates, hsame, hpending⟩ :=
    DispatchTable.seed_eq_ok hvacant.table (offered object)
  obtain ⟨hnoDispatch, _, hnoPending⟩ := DispatchTable.isEmpty_of_isClean hvacant.table
  rw [Context.seedCandidates, hseed] at h
  cases h
  refine ⟨⟨hvacant.collector, hvacant.queue, ?_, ?_, ?_, ?_⟩, hcandidates⟩
  · change t.dispatch.isEmpty
    rw [hsame]
    exact hnoDispatch
  · change t.pending.isEmpty
    rw [hpending]
    exact hnoPending
  · change t.candidates.WellFiled p.declared
    rw [hcandidates, offered_eq hdispatch]
    exact hleftover.foldl_file hdeclared
  · change t.candidates.Inhabited
    rw [hcandidates, offered_eq hdispatch]
    exact hleftover.inhabited_foldl_file hids hinhabited hdeclared

/-- When the queue stays empty, the maps hold what was offered and what is referred to by value, and whatever
can be called is made. -/
theorem Finished.keepsPointers {offered : Function → Prop} {c : Context} {created deployed : List Function}
    (h : Finished p entries offered c deployed) (hoffered : ∀ f, offered f ↔ p.Refers created f)
    {name code : String} {collector rest : Collector} (htake : collector.take = .ok (code, rest))
    (hkept : ∀ f : Function, collector.functions.get? f.codeName = c.collector.functions.get? f.codeName) :
    p.KeepsPointers created deployed
      { name, code, dispatch := c.table.dispatch, leftover := c.table.candidates } := by
  have hfiled := h.progress.tabling.wellFiled
  have hholds : ∀ f, c.table.dispatch.Holds f ∨ c.table.candidates.Holds f ↔
      p.Refers (created ++ deployed) f := fun f => by
    rw [h.holds_iff, hoffered, Program.refers_append]
    rfl
  have hcalled : ∀ a, c.table.dispatch.contains a ↔ p.Calls deployed a := h.progress.tabling.called
  refine ⟨⟨collector, rest, htake, fun f hf hcall => ?_⟩, fun f hf hcall => ?_, h.partitioned,
    fun a members hmembers f hf => ?_⟩
  · have hcontains := (hcalled f.arity).2 hcall
    have hmember : c.table.dispatch.Holds f := by
      refine ((hholds f).2 hf).resolve_right fun hcandidate => ?_
      have hapart := h.partitioned f.arity hcontains
      rw [hcandidate.contains] at hapart
      cases hapart
    refine ⟨hmember, ?_⟩
    have hreached := h.progress.tabling.reached_of_holds h.progress.queueing.reached hmember
    rw [Collector.code?, hkept, h.progress.queueing.made f ((h.mem_lowered_iff f).2 hreached)]
    rfl
  · refine ((hholds f).2 hf).resolve_left fun hmember => ?_
    exact hcall ((hcalled f.arity).1 hmember.contains)
  · rw [← hholds]
    rcases hmembers with hmembers | hmembers
    · exact ((hfiled.dispatch.mem_values_iff hmembers f).1 hf).imp_left .inl
    · exact ((hfiled.candidates.mem_values_iff hmembers f).1 hf).imp_left .inr

/-- The functions whose pointers an object can set are all offered, and no others. -/
theorem Finished.holds_offered_iff {nothing : Function → Prop} (hnothing : ∀ f, ¬ nothing f) {c : Context}
    {lowered : List Function} (h : Finished p entries nothing c lowered) {name code : String}
    (f : Function) :
    (offered { name, code, dispatch := c.table.dispatch, leftover := c.table.candidates }).Holds f ↔
      p.Refers lowered f := by
  have hfiled := h.progress.tabling.wellFiled
  rw [Generating.holds_offered_iff p.idsIdentify hfiled.dispatch hfiled.candidates, h.holds_iff]
  exact or_iff_right (hnothing f)

/-- A contract that is generated had its creation object generated from a vacant context, and its runtime object from
one seeded with what was left over. -/
theorem exists_of_generateContract_eq_ok {contract : Contract} {creation runtime : List Function}
    {fuel : Nat} {g g' : Generator} {created deployed : GeneratedObject}
    (h : generateContract lowering fuel contract creation runtime g = some (.ok (created, deployed), g')) :
    ∃ g₁ c, generateObject lowering fuel contract.creationName creation
        { g with context := { g.context with mostDerived := some contract } } = some (.ok created, g₁) ∧
      g₁.context.seedCandidates (offered created) = .ok c ∧
      generateObject lowering fuel contract.runtimeName runtime { g₁ with context := c } =
        some (.ok deployed, g') := by
  rw [generateContract, bind_eq_ok] at h
  obtain ⟨_, g₀, hset, h⟩ := h
  obtain ⟨c₀, hperform, rfl⟩ := onContext_eq_ok.1 hset
  cases hperform
  rw [bind_eq_ok] at h
  obtain ⟨created', g₁, hcreated, h⟩ := h
  rw [bind_eq_ok] at h
  obtain ⟨_, g₂, hseed, h⟩ := h
  obtain ⟨c, hstep, rfl⟩ := onContext_eq_ok.1 hseed
  rw [Contextual.step_eq_ok] at hstep
  rw [bind_eq_ok] at h
  obtain ⟨deployed', g₃, hdeployed, h⟩ := h
  cases h
  refine ⟨g₁, c, hcreated, ?_, hdeployed⟩
  cases hresult : g₁.context.seedCandidates (offered created) with
  | ok c' =>
    rw [hresult] at hstep
    cases hstep
    rfl
  | error fault =>
    rw [hresult] at hstep
    cases hstep

/-- `generateContract` from a context in which nothing is generated yet: the functions that the creation object offers
are always accepted by `seedCandidates`. If the runtime object succeeds too, it dispatches or keeps exactly the
functions that the functions lowered for either object refer to by value, and holds the code of all that it can
call. -/
theorem keepsPointers_of_generateContract (p : Program) {lowering : Lowering}
    (hlowering : p.LoweredBy lowering) {g : Generator} (hvacant : g.context.Vacant)
    {creation runtime : List Function} (hcreation : ∀ f ∈ creation, p.declared f)
    (hruntime : ∀ f ∈ runtime, p.declared f) (contract : Contract) (fuel : Nat) :
    let first := generateObject lowering fuel contract.creationName creation
      { g with context := { g.context with mostDerived := some contract } }
    (∀ created g₁, first = some (.ok created, g₁) →
      ∃ c, g₁.context.seedCandidates (offered created) = .ok c) ∧
    ∀ created deployed g', generateContract lowering fuel contract creation runtime g =
        some (.ok (created, deployed), g') →
      ∃ g₁ loweredFirst loweredSecond, first = some (.ok created, g₁) ∧
        g₁.lowered = loweredFirst ++ g.lowered ∧ g'.lowered = loweredSecond ++ g₁.lowered ∧
        p.KeepsPointers loweredFirst loweredSecond deployed := by
  intro first
  refine ⟨fun created g₁ hfirst => ?_, fun created deployed g' h => ?_⟩
  · rw [Context.exists_seedCandidates_eq_ok_iff]
    exact (vacant_of_generateObject_eq_ok hfirst).table
  · obtain ⟨g₁, c, hfirst, hseed, hsecond⟩ := exists_of_generateContract_eq_ok h
    have hvacant₁ := vacant_of_generateObject_eq_ok hfirst
    let start : Context := { g.context with mostDerived := some contract }
    have hstart : start.Vacant := ⟨hvacant.collector, hvacant.queue, hvacant.table⟩
    obtain ⟨c₁, loweredFirst, hfinished₁, hlowered₁, _, _, hcreated, _⟩ :=
      finished_of_generateObject_eq_ok (g := { g with context := start }) hlowering
        (Program.fresh_of_vacant hstart) hcreation hfirst
    have hfiled := hfinished₁.progress.tabling.wellFiled
    have hseeded : p.Fresh c ∧ c.table.candidates = offered created := by
      rw [hcreated] at hseed ⊢
      exact fresh_of_seeded p.idsIdentify hfiled.dispatch hfiled.candidates
        hfinished₁.progress.tabling.inhabited (vacant_of_generateObject_eq_ok hfirst) hseed
    obtain ⟨c₂, loweredSecond, hfinished₂, hlowered₂, collector, htaken, hdeployed, hkept⟩ :=
      finished_of_generateObject_eq_ok (g := { g₁ with context := c }) hlowering hseeded.1 hruntime hsecond
    refine ⟨g₁, loweredFirst, loweredSecond, hfirst, hlowered₁, hlowered₂, ?_⟩
    rw [hdeployed]
    refine hfinished₂.keepsPointers (fun f => ?_) htaken hkept
    change c.table.candidates.Holds f ↔ _
    rw [hseeded.2, hcreated]
    exact hfinished₁.holds_offered_iff hstart.not_holds f

end Generating

namespace Program

variable (p : Program)

/-- The reports of a body, each made once. -/
def reports (f : Function) : List DispatchOperation :=
  (p.body f).callees.map .enqueue ++ ((p.body f).references.entries.map fun e => .collect e.1 e.2) ++
    (p.body f).pointerCalls.map .register

/-- The lowering that does nothing but report bodies. -/
def reporting : Lowering := fun f c => (.ok (p.body f).code, c.operateAll (p.reports f))

variable {p}

/-- The reports of a function about its own references are those it may make. -/
theorem reports_of_owner {f : Function}
    (howner : ∀ e g, (p.body f).references.get? e = some g → p.owner e = f.id) :
    p.Reports f (p.reports f) := by
  have hstay : ∀ (operations : List DispatchOperation) (pending : SortedMap NodeId Function),
      (∀ o ∈ operations, ∀ pending, o.stage pending = pending) →
      operations.foldl DispatchOperation.stage pending = pending := by
    intro operations pending h
    induction operations with
    | nil => rfl
    | cons o rest ih =>
      obtain ⟨ho, hrest⟩ := List.forall_mem_cons.1 h
      rw [List.foldl_cons, ho, ih hrest]
  refine ⟨fun o ho => ?_, fun g hg => ?_, ?_, fun a ha => ?_⟩
  · rw [reports, List.mem_append, List.mem_append, List.mem_map, List.mem_map, List.mem_map] at ho
    rcases ho with (⟨g, hg, rfl⟩ | ⟨e, he, rfl⟩) | ⟨a, ha, rfl⟩
    · exact hg
    · exact howner _ _ ((p.body f).references.mem_entries_iff.1 he)
    · exact ha
  · exact List.mem_append_left _ (List.mem_append_left _ (List.mem_map_of_mem hg))
  · rw [reports, List.foldl_append, List.foldl_append, hstay _ SortedMap.empty, hstay]
    · rw [List.foldl_map]
      exact SortedMap.foldl_insertIfNew_entries _
    · intro o ho pending
      obtain ⟨a, _, rfl⟩ := List.mem_map.1 ho
      rfl
    · intro o ho pending
      obtain ⟨g, _, rfl⟩ := List.mem_map.1 ho
      rfl
  · exact List.mem_append_right _ (List.mem_map_of_mem ha)

/-- A lowering that reports what bodies contain lowers the program. -/
theorem loweredBy_reporting
    (howner : ∀ f e g, (p.body f).references.get? e = some g → p.owner e = f.id) :
    p.LoweredBy p.reporting := by
  intro f c code c' _ h
  cases h
  have hreports := reports_of_owner (howner f)
  refine ⟨rfl, ⟨p.reports f, hreports, rfl, rfl⟩, fun g _ => ?_⟩
  rw [collector_operateAll hreports.mayReport]

end Program

namespace StoredPointers

def constructor : Function := { id := 1, name := "constructor" }

def main : Function := { id := 2, name := "main" }

def stored : Function := { id := 7, name := "stored", parameters := [.uint 256] }

def dispatched : Function := { id := 8, name := "dispatched", returns := [.uint 256] }

/-- The constructor sets pointers to two functions and calls one of them. The deployed code calls the other. -/
def body (f : Function) : Body :=
  if f.id = 1 then
    { code := "constructor", callees := [], pointerCalls := [⟨0, 1⟩]
      references := (SortedMap.empty.insert 100 stored).insert 101 dispatched }
  else if f.id = 2 then
    { code := "main", callees := [], references := .empty, pointerCalls := [⟨1, 0⟩] }
  else { code := f.name, callees := [], references := .empty, pointerCalls := [] }

def program : Program where
  declared f := f ∈ [constructor, main, stored, dispatched]
  body := body
  owner _ := 1
  idsIdentify f g hf hg h := by
    simp only [List.mem_cons, List.not_mem_nil, or_false] at hf hg
    rcases hf with rfl | rfl | rfl | rfl <;> rcases hg with rfl | rfl | rfl | rfl <;>
      first | rfl | cases h
  declared_callee f g _ hg := by
    rw [body] at hg
    split at hg
    · cases hg
    · split at hg <;> cases hg
  declared_reference f g _ hg := by
    rw [body] at hg
    split at hg
    · rcases SortedMap.mem_values_of_mem_insert hg with rfl | hg
      · exact .tail _ (.tail _ (.tail _ (.head _)))
      · rcases SortedMap.mem_values_of_mem_insert hg with rfl | hg
        · exact .tail _ (.tail _ (.head _))
        · cases hg
    · split at hg <;> cases hg

/-- The reporting lowering of this program lowers it. -/
theorem loweredBy_reporting : program.LoweredBy program.reporting := by
  refine Program.loweredBy_reporting fun f e g h => ?_
  change (body f).references.get? e = some g at h
  rw [body] at h
  split at h
  next hid => exact hid.symm
  next => split at h <;> cases h

/-- Both objects are generated, so the deployed code knows both functions. -/
theorem exists_generateContract_eq_ok :
    ∃ created deployed g', Generating.generateContract program.reporting 16 ⟨30, "Token"⟩ [constructor]
        [main] { context := { settings := {} } } = some (.ok (created, deployed), g') ∧
      ∃ first second, program.KeepsPointers first second deployed := by
  have hrun : (Generating.generateContract program.reporting 16 ⟨30, "Token"⟩ [constructor] [main]
      { context := { settings := {} } }).any (·.1.isOk) := by decide +kernel
  have hcreation : ∀ f ∈ [constructor], program.declared f :=
    fun f hf => List.mem_singleton.1 hf ▸ .head _
  have hruntime : ∀ f ∈ [main], program.declared f :=
    fun f hf => List.mem_singleton.1 hf ▸ .tail _ (.head _)
  obtain ⟨⟨result, g'⟩, hok, hresult⟩ := (Option.any_eq_true _ _).1 hrun
  cases result with
  | error fault => cases hresult
  | ok objects =>
    obtain ⟨_, hkept⟩ := Generating.keepsPointers_of_generateContract program loweredBy_reporting
      (g := { context := { settings := {} } }) ⟨rfl, rfl, rfl⟩ hcreation hruntime ⟨30, "Token"⟩ 16
    obtain ⟨g₁, first, second, _, _, _, hpointers⟩ := hkept objects.1 objects.2 g' hok
    exact ⟨objects.1, objects.2, g', hok, first, second, hpointers⟩

end StoredPointers

end YulBackend
