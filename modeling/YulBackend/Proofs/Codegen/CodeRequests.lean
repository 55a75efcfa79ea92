import YulBackend.Codegen.Context
import YulBackend.Proofs.Codegen.EmittedCode
import YulBackend.Proofs.Codegen.Requests

namespace YulBackend

/-- What generators ask a context for. -/
inductive CodeRequest
  | helper (request : HelperRequest)
  | roundUp
  | panic (code : PanicCode)
  | revert (message : String)
  | dispatcher (arity : Arity) (functions : FunctionSet)

namespace CodeRequest

/-- Asks the context. -/
def run : CodeRequest → Contextual String
  | helper (.cleanup type) => Contextual.cleanup type
  | helper (.shiftRight bits) => Contextual.shiftRight bits
  | helper (.encoder types) => Contextual.tupleEncoder types
  | helper (.decoder types) => Contextual.tupleDecoder types
  | roundUp => Contextual.roundUp
  | panic code => Contextual.panic code
  | revert message => Contextual.revert message
  | dispatcher arity functions => Contextual.dispatcher arity functions

/-- The context after it served these requests in turn. -/
def serve (c : Context) (requests : List CodeRequest) : Context := requests.foldl (fun c r => (r.run c).2) c

/-- What a request does to the collector. -/
def work (settings : Settings) : CodeRequest → Helper String
  | helper request => request.run settings
  | roundUp => Helper.roundUp
  | panic code => Helper.panic code
  | revert message => Helper.revert settings.revertStrings message
  | dispatcher arity functions => do
    let definition ← Dispatcher.definition arity functions
    Collecting.create arity.dispatcherName (pure definition.code)

/-- A request runs its work on the collector of the context. -/
theorem run_eq (r : CodeRequest) : r.run = Contextual.collect r.work := by
  cases r with
  | helper request => cases request <;> rfl
  | _ => rfl

theorem run_apply (r : CodeRequest) (c : Context) :
    r.run c = ((r.work c.settings c.collector).1, { c with collector := (r.work c.settings c.collector).2 }) := by
  rw [run_eq]
  rfl

/-- What a collector holds after it served these requests in turn. -/
def stock (settings : Settings) (c : Collector) (requests : List CodeRequest) : Collector :=
  requests.foldl (fun c r => (r.work settings c).2) c

/-- Serving requests changes nothing of the context but the collector. -/
theorem serve_eq (c : Context) (requests : List CodeRequest) :
    serve c requests = { c with collector := stock c.settings c.collector requests } := by
  induction requests generalizing c with
  | nil => rfl
  | cons r rest ih => rw [serve, List.foldl_cons, run_apply, ← serve, ih, stock, stock, List.foldl_cons]

end CodeRequest

/-- Checks of a list succeed if each does. -/
theorem forM_eq_ok_iff {α ε : Type} {check : α → Except ε Unit} {as : List α} :
    as.forM check = .ok () ↔ ∀ a ∈ as, check a = .ok () := by
  induction as with
  | nil => exact iff_of_true rfl nofun
  | cons a rest ih =>
    rw [List.forM, List.forall_mem_cons]
    cases ha : check a with
    | ok => exact ih.trans (by simp)
    | error fault => exact iff_of_false nofun fun h => nomatch h.1

/-- Checks of a list stop at the first that fails. -/
theorem forM_eq_error_iff {α ε : Type} {check : α → Except ε Unit} {as : List α} {fault : ε} :
    as.forM check = .error fault ↔
      ∃ before a after, as = before ++ a :: after ∧ (∀ b ∈ before, check b = .ok ()) ∧ check a = .error fault := by
  induction as with
  | nil => simp [pure, Except.pure]
  | cons a rest ih =>
    cases ha : check a with
    | error first =>
      have hfirst : (a :: rest).forM check = .error first := by rw [List.forM, ha]; rfl
      rw [hfirst]
      constructor
      · intro h
        cases h
        exact ⟨[], a, rest, rfl, fun _ h => absurd h List.not_mem_nil, ha⟩
      · rintro ⟨before, b, after, hsplit, hbefore, hb⟩
        cases before with
        | nil => cases hsplit; rw [← ha, hb]
        | cons b' before =>
          cases hsplit
          cases ha.symm.trans (hbefore a List.mem_cons_self)
    | ok =>
      have hrest : (a :: rest).forM check = rest.forM check := by rw [List.forM, ha]; rfl
      rw [hrest, ih]
      constructor
      · rintro ⟨before, b, after, rfl, hbefore, hb⟩
        exact ⟨a :: before, b, after, rfl, List.forall_mem_cons.2 ⟨ha, hbefore⟩, hb⟩
      · rintro ⟨before, b, after, hsplit, hbefore, hb⟩
        cases before with
        | nil => cases hsplit; cases ha.symm.trans hb
        | cons b' before =>
          cases hsplit
          exact ⟨before, b, after, rfl, (List.forall_mem_cons.1 hbefore).2, hb⟩

namespace Dispatcher

variable {arity : Arity} {functions : FunctionSet}

/-- The functions are of the dispatcher's arity, no constructors, and have identities. -/
def canReach (arity : Arity) (functions : FunctionSet) : Bool :=
  functions.values.all fun f => (check arity f).toBool

/-- A dispatcher can reach its functions when the check passes for each of them. -/
theorem canReach_iff : canReach arity functions ↔ functions.values.forM (check arity) = .ok () := by
  rw [canReach, List.all_eq_true, forM_eq_ok_iff]
  refine forall₂_congr fun f _ => ?_
  cases check arity f <;> simp [Except.toBool]

theorem definition_of_canReach (h : canReach arity functions) :
    definition arity functions = .ok (dispatcherDefinition arity functions).function := by
  rw [definition, canReach_iff.1 h]
  rfl

/-- The definition of a dispatcher fails when one of its functions cannot be reached. -/
theorem definition_of_not_canReach (h : ¬ canReach arity functions) :
    ∃ fault, definition arity functions = .error fault := by
  cases hchecks : functions.values.forM (check arity) with
  | ok => exact absurd (canReach_iff.2 hchecks) h
  | error fault =>
    refine ⟨fault, ?_⟩
    rw [definition, hchecks]
    rfl

/-- Why a dispatcher cannot reach a function. -/
inductive Unreachable (arity : Arity) (f : Function) : Fault → Prop
  | otherArity (h : f.arity ≠ arity) :
    Unreachable arity f (.violation (.dispatchedUnderOtherArity f.codeName f.arity arity))
  | isConstructor (harity : f.arity = arity) (h : f.isConstructor) :
    Unreachable arity f (.violation (.dispatchedConstructor f.name))
  | noIdentity (harity : f.arity = arity) (hkind : ¬ f.isConstructor) (h : f.id = uninitializedFunction) :
    Unreachable arity f (.violation .dispatchedWithoutId)

/-- The check of a function fails for the first of the reasons not to reach it. -/
theorem check_eq_error_iff {f : Function} {fault : Fault} :
    check arity f = .error fault ↔ Unreachable arity f fault := by
  constructor
  · intro h
    rw [check] at h
    split at h
    next harity => cases h; exact .otherArity harity
    next harity =>
      replace harity := Decidable.not_not.1 harity
      split at h
      next hkind => cases h; exact .isConstructor harity hkind
      next hkind =>
        split at h
        next hid => cases h; exact .noIdentity harity hkind hid
        next => cases h
  · rintro (harity | ⟨harity, hkind⟩ | ⟨harity, hkind, hid⟩)
    · exact if_pos harity
    · rw [check, if_neg (not_not_intro harity), if_pos hkind]
    · rw [check, if_neg (not_not_intro harity), if_neg hkind, if_pos hid]

theorem check_eq_ok_iff {f : Function} :
    check arity f = .ok () ↔ ∀ fault, ¬ Unreachable arity f fault := by
  simp only [← check_eq_error_iff]
  cases check arity f <;> simp

/-- The definition of a dispatcher fails with the fault of the first function, by number, that cannot be reached. -/
theorem definition_eq_error_iff {fault : Fault} :
    definition arity functions = .error fault ↔
      ∃ before f after, functions.values = before ++ f :: after ∧ (∀ g ∈ before, ∀ fault, ¬ Unreachable arity g fault) ∧
        Unreachable arity f fault := by
  have hdefinition :
      definition arity functions = .error fault ↔ functions.values.forM (check arity) = .error fault := by
    rw [definition]
    cases functions.values.forM (check arity) <;> simp [bind, Except.bind, pure, Except.pure]
  rw [hdefinition, forM_eq_error_iff]
  simp only [check_eq_ok_iff, check_eq_error_iff]

end Dispatcher

theorem SourceType.not_isSingleSlot (t : SourceType) : (!t.isValueType || t.sizeOnStack != 1) = !t.isSingleSlot := by
  rw [isSingleSlot, Bool.not_and, bne]

/-- The first type that a tuple cannot hold is reported. -/
theorem AbiTuple.check_eq_error_iff {types : List SourceType} {fault : Fault} :
    check types = .error fault ↔
      ∃ before t after, types = before ++ t :: after ∧ (∀ u ∈ before, u.isSingleSlot) ∧ ¬ t.isSingleSlot ∧
        fault = .unsupported (.abiCoding t) := by
  simp only [check, SourceType.not_isSingleSlot]
  constructor
  · intro h
    split at h
    next t ht =>
      cases h
      obtain ⟨hslot, before, after, rfl, hbefore⟩ := List.find?_eq_some_iff_append.1 ht
      exact ⟨before, t, after, rfl, by simpa using hbefore, by simpa using hslot, rfl⟩
    next => cases h
  · rintro ⟨before, t, after, rfl, hbefore, ht, rfl⟩
    have hfind : (before ++ t :: after).find? (fun t => !t.isSingleSlot) = some t :=
      List.find?_eq_some_iff_append.2 ⟨by simpa using ht, before, after, rfl, by simpa using hbefore⟩
    rw [hfind]

namespace CodeRequest

/-- What a request makes, unless it is refused. -/
def plan? (settings : Settings) : CodeRequest → Option HelperPlan
  | helper request => request.plan? settings
  | roundUp => some { main := Helper.roundUpDefinition }
  | panic code => some { main := Helper.panicDefinition code }
  | revert message => some { main := Helper.revertDefinition settings.revertStrings message }
  | dispatcher arity functions =>
    if Dispatcher.canReach arity functions then some { main := Dispatcher.dispatcherDefinition arity functions }
    else none

variable {settings : Settings} {r : CodeRequest} {plan : HelperPlan} {fault : Fault}

/-- The requests that are not refused, and what they make. -/
inductive Plans (settings : Settings) : CodeRequest → HelperPlan → Prop
  | helper {request : HelperRequest} {plan : HelperPlan} (h : request.Plans settings plan) :
    Plans settings (.helper request) plan
  | roundUp : Plans settings .roundUp { main := Helper.roundUpDefinition }
  | panic (code : PanicCode) : Plans settings (.panic code) { main := Helper.panicDefinition code }
  | revert (message : String) :
    Plans settings (.revert message) { main := Helper.revertDefinition settings.revertStrings message }
  | dispatcher {arity : Arity} {functions : FunctionSet} (h : Dispatcher.canReach arity functions) :
    Plans settings (.dispatcher arity functions) { main := Dispatcher.dispatcherDefinition arity functions }

/-- The plan found for a request is a plan of it. -/
theorem plans_of_plan (h : r.plan? settings = some plan) : r.Plans settings plan := by
  cases r with
  | helper request => exact .helper (HelperRequest.plans_of_plan h)
  | roundUp => cases h; exact .roundUp
  | panic code => cases h; exact .panic code
  | revert message => cases h; exact .revert message
  | dispatcher arity functions =>
    rw [plan?, Option.ite_none_right_eq_some, Option.some.injEq] at h
    exact h.2 ▸ .dispatcher h.1

/-- A request has one plan at most, the one that is found for it. -/
theorem Plans.plan_eq (h : r.Plans settings plan) : r.plan? settings = some plan := by
  cases h with
  | helper h =>
    cases h with
    | cleanup ht => exact if_pos ht
    | shiftRight hbits => exact if_pos hbits
    | encoder hts => exact if_pos (List.all_eq_true.2 hts)
    | decoder hts => exact if_pos (List.all_eq_true.2 hts)
  | dispatcher hreach => exact if_pos hreach
  | _ => rfl

/-- A request with a plan provides the plan and answers with the name of its function. -/
theorem work_of_plan (h : r.plan? settings = some plan) (c : Collector) :
    r.work settings c = (.ok plan.main.name, c.provide plan) := by
  cases plans_of_plan h with
  | helper => exact HelperRequest.run_of_plan h c
  | roundUp => rw [work, Helper.roundUp_apply, Collector.provide_eq_add]
  | panic code => rw [work, Helper.panic_apply, Collector.provide_eq_add]
  | revert message => rw [work, Helper.revert_apply, Collector.provide_eq_add]
  | @dispatcher arity functions hreach =>
    rw [work, Dispatcher.definition_of_canReach hreach, Collector.provide_eq_add]
    exact Helper.create_pure (Dispatcher.dispatcherDefinition arity functions) c

/-- The requests that are refused, in any context, and why. Of several types or functions the first at fault
counts. -/
inductive Refused : CodeRequest → Fault → Prop
  | externalFunction {parameters returns : List SourceType} :
    Refused (helper (.cleanup (.function .external parameters returns)))
      (.unsupported (.multiSlotCleanup (.function .external parameters returns)))
  | nonValue {t : SourceType} (h : ¬ t.isValueType) :
    Refused (helper (.cleanup t)) (.unsupported (.nonValueCleanup t))
  | shift {bits : Nat} (h : 256 ≤ bits) : Refused (helper (.shiftRight bits)) (.violation (.shiftExceedsWord bits))
  | encoder {before after : List SourceType} {t : SourceType} (hbefore : ∀ u ∈ before, u.isSingleSlot)
    (h : ¬ t.isSingleSlot) :
    Refused (helper (.encoder (before ++ t :: after))) (.unsupported (.abiCoding t))
  | decoder {before after : List SourceType} {t : SourceType} (hbefore : ∀ u ∈ before, u.isSingleSlot)
    (h : ¬ t.isSingleSlot) :
    Refused (helper (.decoder (before ++ t :: after))) (.unsupported (.abiCoding t))
  | dispatcher {arity : Arity} {functions : FunctionSet} {before after : List Function} {f : Function} {fault : Fault}
    (hfunctions : functions.values = before ++ f :: after) (hbefore : ∀ g ∈ before, ∀ fault,
      ¬ Dispatcher.Unreachable arity g fault) (h : Dispatcher.Unreachable arity f fault) :
    Refused (dispatcher arity functions) fault

/-- A request that is refused leaves everything as it was. -/
theorem Refused.work_eq (h : r.Refused fault) (settings : Settings) (c : Collector) :
    r.work settings c = (.error fault, c) := by
  cases h with
  | externalFunction => rfl
  | @nonValue t h =>
    have hcleanup : t.cleanup (.var "value") = .error (.unsupported (.nonValueCleanup t)) := by
      cases t <;> first
        | rfl
        | exact absurd rfl h
    rw [work, HelperRequest.run, Helper.cleanup, hcleanup]
    rfl
  | shift h =>
    rw [work, HelperRequest.run, Helper.shiftRight, if_neg (Nat.not_lt.2 h)]
    rfl
  | encoder hbefore h =>
    rw [work, HelperRequest.run, AbiTuple.encoder, AbiTuple.check_eq_error_iff.2 ⟨_, _, _, rfl, hbefore, h, rfl⟩]
    rfl
  | decoder hbefore h =>
    rw [work, HelperRequest.run, AbiTuple.decoder, AbiTuple.check_eq_error_iff.2 ⟨_, _, _, rfl, hbefore, h, rfl⟩]
    rfl
  | @dispatcher arity functions before after f fault hfunctions hbefore h =>
    rw [work, Dispatcher.definition_eq_error_iff.2 ⟨before, f, after, hfunctions, hbefore, h⟩]
    rfl

/-- A request without a plan is refused with a fault, whatever was collected before. -/
theorem exists_refused (h : r.plan? settings = none) : ∃ fault, r.Refused fault := by
  cases r with
  | helper request =>
    cases request with
    | cleanup t =>
      rw [plan?, HelperRequest.plan?, ite_eq_right_iff] at h
      have hslot : ¬ t.isSingleSlot := fun hslot => Option.some_ne_none _ (h hslot)
      cases t with
      | function visibility parameters returns =>
        cases visibility with
        | internal => exact absurd rfl hslot
        | external => exact ⟨_, .externalFunction⟩
      | bytes | string | array | struct | mapping => exact ⟨_, .nonValue Bool.false_ne_true⟩
      | _ => exact absurd rfl hslot
    | shiftRight bits =>
      rw [plan?, HelperRequest.plan?, ite_eq_right_iff] at h
      exact ⟨_, .shift (Nat.not_lt.1 fun hbits => Option.some_ne_none _ (h hbits))⟩
    | encoder types =>
      rw [plan?, HelperRequest.plan?, ite_eq_right_iff] at h
      obtain ⟨fault, hfault⟩ := AbiTuple.check_of_not_isSingleSlot fun htypes => Option.some_ne_none _ (h htypes)
      obtain ⟨before, t, after, rfl, hbefore, ht, -⟩ := AbiTuple.check_eq_error_iff.1 hfault
      exact ⟨_, .encoder hbefore ht⟩
    | decoder types =>
      rw [plan?, HelperRequest.plan?, ite_eq_right_iff] at h
      obtain ⟨fault, hfault⟩ := AbiTuple.check_of_not_isSingleSlot fun htypes => Option.some_ne_none _ (h htypes)
      obtain ⟨before, t, after, rfl, hbefore, ht, -⟩ := AbiTuple.check_eq_error_iff.1 hfault
      exact ⟨_, .decoder hbefore ht⟩
  | dispatcher arity functions =>
    rw [plan?, ite_eq_right_iff] at h
    obtain ⟨fault, hfault⟩ := Dispatcher.definition_of_not_canReach fun hreach => Option.some_ne_none _ (h hreach)
    obtain ⟨before, f, after, hfunctions, hbefore, hf⟩ := Dispatcher.definition_eq_error_iff.1 hfault
    exact ⟨fault, .dispatcher hfunctions hbefore hf⟩
  | _ => cases h

/-- A request goes through, or it is refused. -/
theorem run_cases (r : CodeRequest) (c : Context) :
    (∃ name collector, r.run c = (.ok name, { c with collector })) ∨ ∃ fault, r.Refused fault := by
  cases hplan : r.plan? c.settings with
  | some plan =>
    refine .inl ⟨plan.main.name, c.collector.provide plan, ?_⟩
    rw [run_apply, work_of_plan hplan]
  | none => exact .inr (exists_refused hplan)

theorem settings_serve (c : Context) (requests : List CodeRequest) : (serve c requests).settings = c.settings := by
  rw [serve_eq]

/-- A request that returns a name makes a function of that name. -/
theorem exists_plan_of_run {c : Context} {name : String} (h : (r.run c).1 = .ok name) :
    ∃ plan, r.plan? c.settings = some plan ∧ plan.main.name = name := by
  rw [run_apply] at h
  cases hplan : r.plan? c.settings with
  | none =>
    obtain ⟨fault, hrefused⟩ := exists_refused hplan
    rw [hrefused.work_eq] at h
    cases h
  | some plan =>
    rw [work_of_plan hplan] at h
    cases h
    exact ⟨plan, rfl, rfl⟩

/-- What a request asks for while its function is made. -/
def uses : CodeRequest → List CodeRequest
  | helper (.encoder types) => types.map fun t => helper (.cleanup t)
  | helper (.decoder types) =>
    revert "ABI decoding: tuple data too short" :: types.map fun t => helper (.cleanup t)
  | _ => []

/-- A request, and those that it makes. -/
def parts (r : CodeRequest) : List CodeRequest := r :: r.uses

/-- The request is not refused. -/
def isServed (settings : Settings) (r : CodeRequest) : Bool := (r.work settings {}).1.toBool

/-- A request is served when it has a plan. -/
theorem isServed_iff : r.isServed settings ↔ ∃ plan, r.plan? settings = some plan := by
  rw [isServed]
  cases h : r.plan? settings with
  | some plan =>
    rw [work_of_plan h]
    exact iff_of_true rfl ⟨plan, rfl⟩
  | none =>
    obtain ⟨fault, hrefused⟩ := exists_refused h
    rw [hrefused.work_eq]
    exact iff_of_false nofun nofun

/-- A function that a request's function calls is one that the request asks for. -/
theorem Plans.exists_use (h : r.Plans settings plan) {d : Definition} (hd : d ∈ plan.uses) :
    ∃ use ∈ r.uses, use.Plans settings { main := d } := by
  cases h with
  | helper h =>
    cases h with
    | cleanup => cases hd
    | shiftRight => cases hd
    | encoder htypes =>
      obtain ⟨t, ht, rfl⟩ := List.mem_map.1 hd
      exact ⟨_, List.mem_map_of_mem ht, .helper (.cleanup (htypes t ht))⟩
    | decoder htypes =>
      obtain rfl | hd := List.mem_cons.1 hd
      · exact ⟨_, List.mem_cons_self, .revert _⟩
      · obtain ⟨t, ht, rfl⟩ := List.mem_map.1 hd
        exact ⟨_, List.mem_cons_of_mem _ (List.mem_map_of_mem ht), .helper (.cleanup (htypes t ht))⟩
  | _ => cases hd

end CodeRequest

end YulBackend
