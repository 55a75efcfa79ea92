import YulBackend.Proofs.Codegen.CodeRequests

namespace YulBackend

/-- Every entry is an image: the list is an image of a list. -/
theorem exists_map_eq {α β : Type} {f : α → β} {p : α → Prop} {entries : List β}
    (h : ∀ e ∈ entries, ∃ a, f a = e ∧ p a) : ∃ as : List α, entries = as.map f ∧ ∀ a ∈ as, p a := by
  induction entries with
  | nil => exact ⟨[], rfl, nofun⟩
  | cons e rest ih =>
    rw [List.forall_mem_cons] at h
    obtain ⟨⟨a, rfl, ha⟩, hrest⟩ := h
    obtain ⟨as, rfl, has⟩ := ih hrest
    exact ⟨a :: as, rfl, List.forall_mem_cons.2 ⟨ha, has⟩⟩

namespace CodeRequest

variable {settings : Settings} {r : CodeRequest} {plan : HelperPlan}

/-- A collector that served these requests: each function in it was made for one of them, and the functions that it
calls are there, too. Each request that was not refused has its function. -/
structure Stocked (settings : Settings) (requests : List CodeRequest) (c : Collector) : Prop where
  made : ∀ name entry, c.functions.get? name = some entry →
    ∃ r ∈ requests, r.isServed settings ∧ ∃ part ∈ r.parts, ∃ plan, part.Plans settings plan ∧
      plan.main.name = name ∧ entry = some plan.main.code ∧ ∀ d ∈ plan.uses, c.contains d.name
  served : ∀ r ∈ requests, ∀ plan, r.plan? settings = some plan → c.contains plan.main.name

namespace Stocked

variable {requests : List CodeRequest} {c : Collector}

theorem empty : Stocked settings [] {} := ⟨nofun, nofun⟩

theorem contains_provide_of_contains {name : String} (h : c.contains name) : (c.provide plan).contains name := by
  obtain ⟨entry, hentry⟩ := Option.isSome_iff_exists.1 h
  rw [Collector.contains_eq, Collector.get?_provide, hentry]
  simp

theorem contains_provide_main : (c.provide plan).contains plan.main.name := by
  rw [Collector.contains_eq, Collector.get?_provide]
  split
  next h => exact h
  next => simp [HelperPlan.definitions]

/-- One more request that is not refused. -/
theorem provide (hstocked : Stocked settings requests c) (h : r.plan? settings = some plan) :
    Stocked settings (requests ++ [r]) (c.provide plan) := by
  have hr : r ∈ requests ++ [r] := by simp
  have hserved : r.isServed settings := isServed_iff.2 ⟨plan, h⟩
  constructor
  · intro name entry hentry
    rw [Collector.get?_provide] at hentry
    by_cases hold : ∃ entry', c.functions.get? name = some entry'
    · obtain ⟨entry', hentry'⟩ := hold
      rw [hentry', Option.some_or, ite_self] at hentry
      cases hentry
      obtain ⟨r', hr', hserved', part, hpart, plan', hplan', hname, hcode, huses⟩ := hstocked.made name entry hentry'
      exact ⟨r', List.mem_append_left _ hr', hserved', part, hpart, plan', hplan', hname, hcode,
        fun d hd => contains_provide_of_contains (huses d hd)⟩
    · have hnone : c.functions.get? name = none := by simpa [Option.eq_none_iff_forall_ne_some] using hold
      rw [hnone, Option.none_or, Option.ite_none_left_eq_some] at hentry
      obtain ⟨hfresh, hentry⟩ := hentry
      obtain ⟨d, hd, rfl⟩ := Option.map_eq_some_iff.1 hentry
      have hdname : d.name = name := by simpa using List.find?_some hd
      obtain rfl | huse := List.mem_cons.1 (List.mem_of_find?_eq_some hd)
      · refine ⟨r, hr, hserved, r, List.mem_cons_self, plan, plans_of_plan h, hdname, rfl, fun d hd => ?_⟩
        have hsome : (plan.definitions.find? (·.name = d.name)).isSome := by
          rw [List.find?_isSome]
          exact ⟨d, List.mem_cons_of_mem _ hd, by simp⟩
        rw [Collector.contains_eq, Collector.get?_provide, if_neg hfresh, Option.isSome_or, Option.isSome_map, hsome,
          Bool.or_true]
      · obtain ⟨use, huse', hplans⟩ := (plans_of_plan h).exists_use huse
        exact ⟨r, hr, hserved, use, List.mem_cons_of_mem _ huse', _, hplans, hdname, rfl, nofun⟩
  · intro r' hr' plan' hplan'
    obtain hr' | hr' := List.mem_append.1 hr'
    · exact contains_provide_of_contains (hstocked.served r' hr' plan' hplan')
    · obtain rfl := List.mem_singleton.1 hr'
      rw [h] at hplan'
      cases hplan'
      exact contains_provide_main

/-- One more request. -/
theorem concat (hstocked : Stocked settings requests c) (r : CodeRequest) :
    Stocked settings (requests ++ [r]) (r.work settings c).2 := by
  cases h : r.plan? settings with
  | some plan =>
    rw [work_of_plan h]
    exact hstocked.provide h
  | none =>
    obtain ⟨fault, hrefused⟩ := exists_refused h
    rw [hrefused.work_eq]
    constructor
    · intro name entry hentry
      obtain ⟨r', hr', hmade⟩ := hstocked.made name entry hentry
      exact ⟨r', List.mem_append_left _ hr', hmade⟩
    · intro r' hr' plan hplan
      obtain hr' | hr' := List.mem_append.1 hr'
      · exact hstocked.served r' hr' plan hplan
      · obtain rfl := List.mem_singleton.1 hr'
        rw [h] at hplan
        cases hplan

end Stocked

/-- What an empty collector holds after any run of requests. -/
theorem stocked_stock (settings : Settings) (requests : List CodeRequest) :
    Stocked settings requests (stock settings {} requests) := by
  induction requests using List.reverseRecOn with
  | nil => exact .empty
  | append_singleton requests r ih =>
    rw [stock, List.foldl_append]
    exact ih.concat r

/-- The functions of a collector that served requests, in name order. -/
theorem Stocked.exists_plans {requests : List CodeRequest} {c : Collector} (h : Stocked settings requests c) :
    ∃ plans : List HelperPlan, c.functions.entries = plans.map (fun plan => (plan.main.name, some plan.main.code)) ∧
      ∀ plan ∈ plans, (∃ r ∈ requests, r.isServed settings ∧ ∃ part ∈ r.parts, part.Plans settings plan) ∧
        ∀ d ∈ plan.uses, ∃ plan' ∈ plans, plan'.main.name = d.name := by
  have hmade : ∀ e ∈ c.functions.entries, ∃ plan : HelperPlan, (plan.main.name, some plan.main.code) = e ∧
      (∃ r ∈ requests, r.isServed settings ∧ ∃ part ∈ r.parts, part.Plans settings plan) ∧
        ∀ d ∈ plan.uses, c.contains d.name := by
    rintro ⟨name, entry⟩ he
    obtain ⟨r, hr, hserved, part, hpart, plan, hplan, rfl, rfl, huses⟩ :=
      h.made name entry ((c.functions.mem_entries_iff).1 he)
    exact ⟨plan, rfl, ⟨r, hr, hserved, part, hpart, hplan⟩, huses⟩
  obtain ⟨plans, hentries, hplans⟩ := exists_map_eq hmade
  refine ⟨plans, hentries, fun plan hplan => ⟨(hplans plan hplan).1, fun d hd => ?_⟩⟩
  have hmem : d.name ∈ c.functions.keys := (c.functions.mem_keys_iff).2 ((hplans plan hplan).2 d hd)
  rw [SortedMap.keys, hentries, List.map_map] at hmem
  exact List.mem_map.1 hmem

/-- The kinds of generated functions. -/
inductive Kind
  | helper (kind : HelperKind)
  | roundUp
  | panic
  | dispatcher

/-- What the names of a kind start with. -/
def Kind.stem : Kind → String
  | helper kind => kind.stem
  | roundUp => "round_up_to_mul_of_32"
  | panic => "panic_error_0x"
  | dispatcher => "dispatch_internal_"

/-- A name tells the kind of its function. -/
theorem Kind.eq_of_append_eq (k k' : Kind) {a b : String} (h : k.stem ++ a = k'.stem ++ b) : k = k' := by
  by_contra hk
  refine absurd h (append_ne_append ?_ a b)
  rcases k with kind | _ | _ | _ <;> rcases k' with kind' | _ | _ | _ <;> first
    | exact absurd rfl hk
    | decide
    | (cases kind <;> decide)
    | (cases kind' <;> decide)
    | (cases kind <;> cases kind' <;> first | exact absurd rfl hk | decide)

/-- The kind of function that a request is for. -/
def kind : CodeRequest → Kind
  | helper request => .helper request.kind
  | roundUp => .roundUp
  | panic _ => .panic
  | revert _ => .helper .revert
  | dispatcher _ _ => .dispatcher

/-- The name of a plan's function starts with the stem of its kind. -/
theorem Plans.exists_name (h : r.Plans settings plan) : ∃ rest, plan.main.name = r.kind.stem ++ rest := by
  cases h with
  | helper h =>
    cases h with
    | cleanup => exact ⟨_, rfl⟩
    | shiftRight => exact ⟨_, Helper.shiftRightDefinition_name _ _⟩
    | encoder => exact ⟨_, rfl⟩
    | decoder => exact ⟨_, rfl⟩
  | roundUp => exact ⟨"", rfl⟩
  | panic => exact ⟨_, rfl⟩
  | revert => exact ⟨_, rfl⟩
  | dispatcher => exact ⟨_, rfl⟩

/-- Plans of the same name are of the same kind. -/
theorem Plans.kind_eq {r' : CodeRequest} {plan' : HelperPlan} (h : r.Plans settings plan) (h' : r'.Plans settings plan')
    (hname : plan.main.name = plan'.main.name) : r.kind = r'.kind := by
  obtain ⟨rest, hrest⟩ := h.exists_name
  obtain ⟨rest', hrest'⟩ := h'.exists_name
  rw [hrest, hrest'] at hname
  exact Kind.eq_of_append_eq _ _ hname

/-- Functions of the kind revert, not only through others. -/
def Kind.callsRevert : Kind → Bool
  | helper .revert | panic => true
  | _ => false

/-- What the function of a request may call. -/
inductive Permits (settings : Settings) (r : CodeRequest) (plan : HelperPlan) : CallShape → Prop
  | instruction {i : Instruction} (h : i.signature.since ≤ settings.evmVersion) : Permits settings r plan i.shape
  | revert (h : r.kind.callsRevert) : Permits settings r plan Instruction.revert.shape
  | use {d : Definition} (h : d ∈ plan.uses) : Permits settings r plan d.shape
  | member {arity : Arity} {functions : FunctionSet} {f : Function} (hr : r = dispatcher arity functions)
    (hf : f ∈ functions.values) : Permits settings r plan (f.codeName, arity.inputs)

theorem Permits.basic (i : Instruction) (h : i.signature.since = .homestead) : Permits settings r plan i.shape := by
  refine .instruction ?_
  rw [h]
  exact Nat.zero_le _

/-- A generated function calls instructions that the target has, and functions that its request asks for. Only the
functions that revert on their own may call what the target does not have. -/
theorem Plans.isWithin (h : r.Plans settings plan) : plan.main.IsWithin (r.Permits settings plan) := by
  cases h with
  | helper h =>
    cases h with
    | cleanup ht => exact Helper.isWithin_cleanup .basic ht
    | shiftRight => exact Helper.isWithin_shiftRight .basic (fun hshift => .instruction (of_decide_eq_true hshift)) _
    | encoder => exact AbiTuple.isWithin_encoder .basic fun t ht => .use (List.mem_map_of_mem ht)
    | decoder =>
      refine AbiTuple.isWithin_decoder .basic (fun t ht => .use ?_) (.use List.mem_cons_self)
      exact List.mem_cons_of_mem _ (List.mem_map_of_mem ht)
  | roundUp => exact Helper.isWithin_roundUp .basic
  | panic => exact Helper.isWithin_panic .basic (.revert rfl) _
  | revert => exact Helper.isWithin_revert .basic (.revert rfl) _ _
  | dispatcher => exact Dispatcher.isWithin (.basic .invalid rfl) fun f hf => .member rfl hf

end CodeRequest

end YulBackend
