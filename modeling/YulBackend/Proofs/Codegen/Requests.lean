import YulBackend.Proofs.Codegen.HelperCode

namespace YulBackend

/-- The kinds of helpers that are known by what they are for. -/
inductive HelperKind
  | cleanup
  | shiftRight
  | revert
  | encoder
  | decoder

/-- What the names of a kind start with. -/
def HelperKind.stem : HelperKind → String
  | cleanup => "cleanup_"
  | shiftRight => "shift_right_"
  | revert => "revert_error_"
  | encoder => "abi_encode_tuple_"
  | decoder => "abi_decode_tuple_"

/-- A name tells the kind of its helper. -/
theorem HelperKind.append_inj (k k' : HelperKind) {a b : String} (h : k.stem ++ a = k'.stem ++ b) :
    k = k' ∧ a = b := by
  by_cases hk : k = k'
  · subst hk
    exact ⟨rfl, append_right_injective h⟩
  · refine absurd h (append_ne_append ?_ a b)
    cases k <;> cases k' <;> first | exact absurd rfl hk | decide

theorem Helper.shiftRightDefinition_name (version : EvmVersion) (bits : Nat) :
    (shiftRightDefinition version bits).name = HelperKind.shiftRight.stem ++ (toString bits ++ "_unsigned") :=
  String.append_assoc

theorem eq_of_toString_append {m n : Nat} {s : String} (h : toString m ++ s = toString n ++ s) : m = n := by
  rw [String.append_left_inj] at h
  exact Nat.repr_inj.1 h

/-- Helpers that are made alike whoever asks for them. -/
inductive Definition.IsShared (settings : Settings) : Definition → Prop
  | cleanup {t : SourceType} (h : t.isSingleSlot) : IsShared settings t.cleanupDefinition
  | shiftRight (bits : Nat) : IsShared settings (Helper.shiftRightDefinition settings.evmVersion bits)
  | revert : IsShared settings (AbiTuple.tooShortDefinition settings.revertStrings)

namespace Definition.IsShared

variable {settings : Settings} {d d' : Definition}

/-- A shared helper's name starts with the stem of a kind that is neither encoder nor decoder. -/
theorem exists_name (h : IsShared settings d) :
    ∃ (k : HelperKind) (rest : String), d.name = k.stem ++ rest ∧ k ≠ .encoder ∧ k ≠ .decoder := by
  cases h with
  | cleanup => exact ⟨.cleanup, _, rfl, nofun, nofun⟩
  | shiftRight => exact ⟨.shiftRight, _, Helper.shiftRightDefinition_name _ _, nofun, nofun⟩
  | revert => exact ⟨.revert, _, rfl, nofun, nofun⟩

theorem eq_of_name_eq (h : IsShared settings d) (h' : IsShared settings d') (hname : d.name = d'.name) :
    d = d' := by
  cases h with
  | cleanup h =>
    cases h' with
    | cleanup h' => exact SourceType.cleanupDefinition_congr h h' (append_right_injective hname)
    | shiftRight =>
      rw [Helper.shiftRightDefinition_name] at hname
      exact nomatch (HelperKind.append_inj .cleanup .shiftRight hname).1
    | revert => exact nomatch (HelperKind.append_inj .cleanup .revert hname).1
  | shiftRight bits =>
    rw [Helper.shiftRightDefinition_name] at hname
    cases h' with
    | cleanup => exact nomatch (HelperKind.append_inj .shiftRight .cleanup hname).1
    | shiftRight =>
      rw [Helper.shiftRightDefinition_name] at hname
      rw [eq_of_toString_append (append_right_injective hname)]
    | revert => exact nomatch (HelperKind.append_inj .shiftRight .revert hname).1
  | revert =>
    cases h' with
    | cleanup => exact nomatch (HelperKind.append_inj .revert .cleanup hname).1
    | shiftRight =>
      rw [Helper.shiftRightDefinition_name] at hname
      exact nomatch (HelperKind.append_inj .revert .shiftRight hname).1
    | revert => rfl

end Definition.IsShared

/-- What generators ask a collector for. -/
inductive HelperRequest
  | cleanup (type : SourceType)
  | shiftRight (bits : Nat)
  | encoder (types : List SourceType)
  | decoder (types : List SourceType)

namespace HelperRequest

section

variable (settings : Settings)

def run : HelperRequest → Helper String
  | cleanup type => Helper.cleanup type
  | shiftRight bits => Helper.shiftRight settings.evmVersion bits
  | encoder types => AbiTuple.encoder types
  | decoder types => AbiTuple.decoder settings.revertStrings types

/-- What one collector holds after it served these requests in turn. -/
def serve (requests : List HelperRequest) : Collector :=
  requests.foldl (fun c request => (request.run settings c).2) {}

/-- The text that a request produces in an empty collector, under the name that it returns there. -/
def ownCode? (request : HelperRequest) : Option String :=
  match request.run settings {} with
  | (.ok name, c) => c.code? name
  | (.error _, _) => none

/-- The request is not refused, and returns this name. -/
def asksFor (name : String) (request : HelperRequest) : Bool :=
  (request.run settings {}).1.toOption == some name

/-- What a request makes, unless it is refused. -/
def plan? : HelperRequest → Option HelperPlan
  | cleanup type => if type.isSingleSlot then some { main := type.cleanupDefinition } else none
  | shiftRight bits =>
    if bits < 256 then some { main := Helper.shiftRightDefinition settings.evmVersion bits } else none
  | encoder types => if types.all SourceType.isSingleSlot then some (AbiTuple.encoderPlan types) else none
  | decoder types =>
    if types.all SourceType.isSingleSlot then some (AbiTuple.decoderPlan settings.revertStrings types) else none

end

/-- The types that a request is about. -/
def types : HelperRequest → List SourceType
  | cleanup type => [type]
  | shiftRight _ => []
  | encoder types | decoder types => types

def identifiers (request : HelperRequest) : List String := request.types.map SourceType.identifier

end HelperRequest

theorem SourceType.cleanup_of_not_isSingleSlot {t : SourceType} (h : ¬ t.isSingleSlot) (value : Expr) :
    ∃ fault, t.cleanup value = .error fault := by
  cases t with
  | function visibility _ _ =>
    cases visibility with
    | internal => exact absurd rfl h
    | external => exact ⟨_, rfl⟩
  | bytes | string | array | struct | mapping => exact ⟨_, rfl⟩
  | _ => exact absurd rfl h

/-- A type of several slots fails the check. -/
theorem AbiTuple.check_of_not_isSingleSlot {types : List SourceType} (h : ¬ types.all SourceType.isSingleSlot) :
    ∃ fault, check types = .error fault := by
  rw [check]
  split
  next => exact ⟨_, rfl⟩
  next hnone =>
    refine absurd (List.all_eq_true.2 fun t ht => ?_) h
    have hslot := List.find?_eq_none.1 hnone t ht
    simpa [SourceType.isSingleSlot] using hslot

namespace HelperRequest

variable {settings : Settings} {request first : HelperRequest} {requests : List HelperRequest} {plan : HelperPlan}
  {name : String} {c : Collector}

/-- The requests that are not refused, and what they make. -/
inductive Plans (settings : Settings) : HelperRequest → HelperPlan → Prop
  | cleanup {t : SourceType} (h : t.isSingleSlot) : Plans settings (.cleanup t) { main := t.cleanupDefinition }
  | shiftRight {bits : Nat} (h : bits < 256) :
    Plans settings (.shiftRight bits) { main := Helper.shiftRightDefinition settings.evmVersion bits }
  | encoder {types : List SourceType} (h : ∀ t ∈ types, t.isSingleSlot) :
    Plans settings (.encoder types) (AbiTuple.encoderPlan types)
  | decoder {types : List SourceType} (h : ∀ t ∈ types, t.isSingleSlot) :
    Plans settings (.decoder types) (AbiTuple.decoderPlan settings.revertStrings types)

/-- The plan found for a helper request is a plan of it. -/
theorem plans_of_plan (h : request.plan? settings = some plan) : Plans settings request plan := by
  cases request with
  | cleanup type =>
    rw [plan?, Option.ite_none_right_eq_some, Option.some.injEq] at h
    exact h.2 ▸ .cleanup h.1
  | shiftRight bits =>
    rw [plan?, Option.ite_none_right_eq_some, Option.some.injEq] at h
    exact h.2 ▸ .shiftRight h.1
  | encoder types =>
    rw [plan?, Option.ite_none_right_eq_some, Option.some.injEq, List.all_eq_true] at h
    exact h.2 ▸ .encoder h.1
  | decoder types =>
    rw [plan?, Option.ite_none_right_eq_some, Option.some.injEq, List.all_eq_true] at h
    exact h.2 ▸ .decoder h.1

/-- A helper request with a plan provides it and answers with the name of its function. -/
theorem run_of_plan (h : request.plan? settings = some plan) (c : Collector) :
    request.run settings c = (.ok plan.main.name, c.provide plan) := by
  cases plans_of_plan h with
  | cleanup htype => rw [run, Helper.cleanup_apply htype, Collector.provide_eq_add]
  | shiftRight hbits => rw [run, Helper.shiftRight_apply hbits, Collector.provide_eq_add]
  | encoder htypes => exact AbiTuple.encoder_apply htypes c
  | decoder htypes => exact AbiTuple.decoder_apply _ htypes c

/-- A request that is refused leaves everything as it was. -/
theorem run_of_plan_eq_none (h : request.plan? settings = none) :
    ∃ fault, ∀ c, request.run settings c = (.error fault, c) := by
  cases request with
  | cleanup type =>
    rw [plan?, ite_eq_right_iff] at h
    obtain ⟨fault, hfault⟩ := SourceType.cleanup_of_not_isSingleSlot
      (fun htype => Option.some_ne_none _ (h htype)) (.var "value")
    refine ⟨fault, fun c => ?_⟩
    rw [run, Helper.cleanup, hfault]
    rfl
  | shiftRight bits =>
    rw [plan?, ite_eq_right_iff] at h
    refine ⟨.violation (.shiftExceedsWord bits), fun c => ?_⟩
    rw [run, Helper.shiftRight, if_neg fun hbits => Option.some_ne_none _ (h hbits)]
    rfl
  | encoder types =>
    rw [plan?, ite_eq_right_iff] at h
    obtain ⟨fault, hfault⟩ := AbiTuple.check_of_not_isSingleSlot fun htypes => Option.some_ne_none _ (h htypes)
    refine ⟨fault, fun c => ?_⟩
    rw [run, AbiTuple.encoder, hfault]
    rfl
  | decoder types =>
    rw [plan?, ite_eq_right_iff] at h
    obtain ⟨fault, hfault⟩ := AbiTuple.check_of_not_isSingleSlot fun htypes => Option.some_ne_none _ (h htypes)
    refine ⟨fault, fun c => ?_⟩
    rw [run, AbiTuple.decoder, hfault]
    rfl

/-- A helper request that is answered has a plan. -/
theorem exists_plan (h : (request.run settings {}).1 = .ok name) :
    ∃ plan, request.plan? settings = some plan ∧ plan.main.name = name := by
  cases hplan : request.plan? settings with
  | none =>
    obtain ⟨fault, hrun⟩ := run_of_plan_eq_none hplan
    rw [hrun] at h
    cases h
  | some plan =>
    rw [run_of_plan hplan] at h
    cases h
    exact ⟨plan, rfl, rfl⟩

theorem asksFor_iff : request.asksFor settings name ↔ (request.run settings {}).1 = .ok name := by
  rw [asksFor, beq_iff_eq]
  cases (request.run settings {}).1 <;> simp [Except.toOption]

theorem asksFor_of_plan (h : request.plan? settings = some plan) :
    request.asksFor settings name = decide (plan.main.name = name) := by
  rw [Bool.eq_iff_iff, asksFor_iff, run_of_plan h, Except.ok.injEq, decide_eq_true_iff]

theorem asksFor_of_plan_eq_none (h : request.plan? settings = none) : request.asksFor settings name = false := by
  obtain ⟨fault, hrun⟩ := run_of_plan_eq_none h
  rw [asksFor, hrun]
  rfl

theorem ownCode?_of_plan (h : request.plan? settings = some plan) :
    request.ownCode? settings = some plan.main.code := by
  rw [ownCode?, run_of_plan h]
  exact Collector.code?_provide_empty plan

/-- The helpers that a plan uses are shared. -/
theorem isShared_of_mem_uses (h : request.plan? settings = some plan) {d : Definition} (hd : d ∈ plan.uses) :
    d.IsShared settings := by
  cases plans_of_plan h with
  | cleanup => cases hd
  | shiftRight => cases hd
  | encoder htypes =>
    obtain ⟨t, ht, rfl⟩ := List.mem_map.1 hd
    exact .cleanup (htypes t ht)
  | decoder htypes =>
    obtain rfl | hd := List.mem_cons.1 hd
    · exact .revert
    · obtain ⟨t, ht, rfl⟩ := List.mem_map.1 hd
      exact .cleanup (htypes t ht)

/-- A shared helper of the name that a request asks for is what the request makes. -/
theorem eq_main_of_isShared (h : request.plan? settings = some plan) {d : Definition} (hd : d.IsShared settings)
    (hname : d.name = plan.main.name) : d = plan.main := by
  obtain ⟨k, rest, hk, hencoder, hdecoder⟩ := hd.exists_name
  cases plans_of_plan h with
  | cleanup htype => exact hd.eq_of_name_eq (.cleanup htype) hname
  | shiftRight => exact hd.eq_of_name_eq (.shiftRight _) hname
  | encoder => exact absurd (HelperKind.append_inj k .encoder (hk.symm.trans hname)).1 hencoder
  | decoder => exact absurd (HelperKind.append_inj k .decoder (hk.symm.trans hname)).1 hdecoder

/-- What a collector holds that served these requests: the function of the first request for each name that was
asked for, and else no more than shared helpers. -/
structure Served (settings : Settings) (requests : List HelperRequest) (c : Collector) : Prop where
  asked : ∀ name first, requests.find? (asksFor settings name) = some first →
    c.functions.get? name = some (first.ownCode? settings)
  other : ∀ name entry, requests.find? (asksFor settings name) = none → c.functions.get? name = some entry →
    ∃ d, Definition.IsShared settings d ∧ d.name = name ∧ entry = some d.code

namespace Served

theorem empty : Served settings [] {} :=
  ⟨nofun, fun _ _ _ h => nomatch h⟩

theorem find?_concat_of_plan (h : request.plan? settings = some plan) :
    (requests ++ [request]).find? (asksFor settings name) =
      (requests.find? (asksFor settings name)).or (if plan.main.name = name then some request else none) := by
  rw [List.find?_append, List.find?_singleton, asksFor_of_plan h]
  simp

/-- One more request that is not refused. -/
theorem provide (hserved : Served settings requests c) (h : request.plan? settings = some plan) :
    Served settings (requests ++ [request]) (c.provide plan) := by
  have hkeep : ∀ name entry, c.functions.get? name = some entry →
      (c.provide plan).functions.get? name = some entry := by
    intro name entry hentry
    rw [Collector.get?_provide, hentry, Option.some_or, ite_self]
  constructor
  · intro name first hfirst
    rw [find?_concat_of_plan h, Option.or_eq_some_iff] at hfirst
    obtain hbefore | ⟨hbefore, hnow⟩ := hfirst
    · exact hkeep name _ (hserved.asked name first hbefore)
    · rw [Option.ite_none_right_eq_some, Option.some.injEq] at hnow
      obtain ⟨rfl, rfl⟩ := hnow
      rw [ownCode?_of_plan h]
      cases hentry : c.functions.get? plan.main.name with
      | none =>
        rw [Collector.get?_provide, Collector.contains_eq, hentry]
        simp [HelperPlan.definitions]
      | some entry =>
        -- the function is there already, as one that others use
        obtain ⟨d, hd, hname, rfl⟩ := hserved.other _ entry hbefore hentry
        rw [hkeep _ _ hentry, eq_main_of_isShared h hd hname]
  · intro name entry hnone hentry
    rw [find?_concat_of_plan h, Option.or_eq_none_iff, ite_eq_right_iff] at hnone
    obtain ⟨hbefore, hnow⟩ := hnone
    rw [Collector.get?_provide] at hentry
    cases hbeforeEntry : c.functions.get? name with
    | some entry' =>
      rw [hbeforeEntry, Option.some_or, ite_self] at hentry
      cases hentry
      exact hserved.other name entry hbefore hbeforeEntry
    | none =>
      rw [hbeforeEntry, Option.none_or, Option.ite_none_left_eq_some] at hentry
      obtain ⟨d, hd, rfl⟩ := Option.map_eq_some_iff.1 hentry.2
      have hdname : d.name = name := by simpa using List.find?_some hd
      refine ⟨d, ?_, hdname, rfl⟩
      obtain rfl | huse := List.mem_cons.1 (List.mem_of_find?_eq_some hd)
      · exact absurd (hnow hdname) (Option.some_ne_none _)
      · exact isShared_of_mem_uses h huse

/-- One more request. -/
theorem concat (hserved : Served settings requests c) (request : HelperRequest) :
    Served settings (requests ++ [request]) (request.run settings c).2 := by
  cases h : request.plan? settings with
  | some plan =>
    rw [run_of_plan h]
    exact hserved.provide h
  | none =>
    obtain ⟨fault, hrun⟩ := run_of_plan_eq_none h
    have hfind : ∀ name, (requests ++ [request]).find? (asksFor settings name) =
        requests.find? (asksFor settings name) := by
      intro name
      rw [List.find?_append, List.find?_singleton, asksFor_of_plan_eq_none h]
      simp
    rw [hrun]
    exact ⟨fun name first => hfind name ▸ hserved.asked name first,
      fun name entry => hfind name ▸ hserved.other name entry⟩

end Served

theorem serve_concat (requests : List HelperRequest) (request : HelperRequest) :
    serve settings (requests ++ [request]) = (request.run settings (serve settings requests)).2 := by
  rw [serve, List.foldl_append]
  rfl

/-- After any run of requests each name has the function of the first request that asked for it. -/
theorem served_serve (settings : Settings) (requests : List HelperRequest) :
    Served settings requests (serve settings requests) := by
  induction requests using List.reverseRecOn with
  | nil => exact .empty
  | append_singleton requests request ih =>
    rw [serve_concat]
    exact ih.concat request

/-- The kind of helper that a request is for. -/
def kind : HelperRequest → HelperKind
  | cleanup _ => .cleanup
  | shiftRight _ => .shiftRight
  | encoder _ => .encoder
  | decoder _ => .decoder

/-- What the name that a request returns tells besides the kind. -/
def subject : HelperRequest → String
  | cleanup type => type.identifier
  | shiftRight bits => toString bits ++ "_unsigned"
  | encoder types | decoder types => AbiTuple.identifier types

/-- The name of a plan's function is the stem of the request's kind with its subject. -/
theorem name_of_plan (h : request.plan? settings = some plan) :
    plan.main.name = request.kind.stem ++ request.subject := by
  cases plans_of_plan h with
  | shiftRight => exact Helper.shiftRightDefinition_name _ _
  | _ => rfl

section

variable {plan' : HelperPlan} (h : first.plan? settings = some plan) (h' : request.plan? settings = some plan')
  (hname : plan.main.name = plan'.main.name)

include h h' hname

/-- Requests answered with the same name are of the same kind and subject, since no stem begins another. -/
theorem subject_eq_of_name_eq : first.kind = request.kind ∧ first.subject = request.subject := by
  rw [name_of_plan h, name_of_plan h'] at hname
  exact HelperKind.append_inj _ _ hname

/-- Two requests for one name make the same text if their types have the same names, and only then. -/
theorem code_eq_iff_of_name_eq (hnamed : ∀ t ∈ first.types, t.isNamed) (hnamed' : ∀ t ∈ request.types, t.isNamed) :
    plan.main.code = plan'.main.code ↔ first.identifiers = request.identifiers := by
  obtain ⟨hkind, hsubject⟩ := subject_eq_of_name_eq h h' hname
  cases plans_of_plan h with
  | cleanup ht =>
    cases plans_of_plan h' with
    | cleanup ht' =>
      exact iff_of_true (congrArg Definition.code (SourceType.cleanupDefinition_congr ht ht' hsubject))
        (congrArg (fun text => [text]) hsubject)
    | _ => cases hkind
  | shiftRight =>
    cases plans_of_plan h' with
    | shiftRight =>
      obtain rfl := eq_of_toString_append hsubject
      exact iff_of_true rfl rfl
    | _ => cases hkind
  | encoder ht =>
    cases plans_of_plan h' with
    | encoder ht' =>
      exact ⟨AbiTuple.map_identifier_eq_of_encoder ht ht' hnamed hnamed',
        fun hidentifiers => congrArg Definition.code (AbiTuple.encoderDefinition_congr hidentifiers)⟩
    | _ => cases hkind
  | decoder ht =>
    cases plans_of_plan h' with
    | decoder ht' =>
      exact ⟨AbiTuple.map_identifier_eq_of_decoder ht ht' hnamed hnamed',
        fun hidentifiers => congrArg Definition.code (AbiTuple.decoderDefinition_congr hidentifiers _)⟩
    | _ => cases hkind

/-- Two requests for one name are about types of the same names, if no name that the program chose reads like the
end of one type's name and the start of another's. -/
theorem identifiers_eq_of_name_eq (hplain : ∀ t ∈ first.types, t.hasPlainName)
    (hplain' : ∀ t ∈ request.types, t.hasPlainName) : first.identifiers = request.identifiers := by
  obtain ⟨hkind, hsubject⟩ := subject_eq_of_name_eq h h' hname
  cases plans_of_plan h with
  | cleanup =>
    cases plans_of_plan h' with
    | cleanup => exact congrArg (fun text => [text]) hsubject
    | _ => cases hkind
  | shiftRight =>
    cases plans_of_plan h' with
    | shiftRight => rfl
    | _ => cases hkind
  | encoder ht =>
    cases plans_of_plan h' with
    | encoder ht' => exact SourceType.map_identifier_eq_of_joined ht ht' hplain hplain' hsubject
    | _ => cases hkind
  | decoder ht =>
    cases plans_of_plan h' with
    | decoder ht' => exact SourceType.map_identifier_eq_of_joined ht ht' hplain hplain' hsubject
    | _ => cases hkind

end

/-- `serve` gives a request the function of the first request for its name. This is the function that it would make in
an empty collector if the names of the types are the same, and only then. They are, unless a name that the program
chose reads like the end of one type's name and the start of another's. -/
theorem code?_serve (settings : Settings) (requests : List HelperRequest) {request : HelperRequest} {name : String}
    (hname : (request.run settings {}).1 = .ok name)
    (hnamed : ∀ r ∈ requests ++ [request], ∀ t ∈ r.types, t.isNamed) :
    ∃ first c code, (requests ++ [request]).find? (asksFor settings name) = some first ∧
      request.run settings (serve settings requests) = (.ok name, c) ∧
      c.code? name = some code ∧ first.ownCode? settings = some code ∧
      (request.ownCode? settings = some code ↔ first.identifiers = request.identifiers) ∧
      ((∀ r ∈ requests ++ [request], ∀ t ∈ r.types, t.hasPlainName) → request.ownCode? settings = some code) := by
  obtain ⟨plan, hplan, rfl⟩ := exists_plan hname
  have hsome : ((requests ++ [request]).find? (asksFor settings plan.main.name)).isSome := by
    rw [List.find?_isSome]
    exact ⟨request, by simp, asksFor_iff.2 hname⟩
  obtain ⟨first, hfirst⟩ := Option.isSome_iff_exists.1 hsome
  have hmem : first ∈ requests ++ [request] := List.mem_of_find?_eq_some hfirst
  have hrequest : request ∈ requests ++ [request] := by simp
  obtain ⟨plan', hplan', hname'⟩ := exists_plan (asksFor_iff.1 (List.find?_some hfirst))
  have hserved := ((served_serve settings requests).concat request).asked _ _ hfirst
  rw [run_of_plan hplan, ownCode?_of_plan hplan'] at hserved
  have hiff := code_eq_iff_of_name_eq hplan' hplan hname' (hnamed first hmem) (hnamed request hrequest)
  have hown : request.ownCode? settings = some plan'.main.code ↔ first.identifiers = request.identifiers := by
    rw [ownCode?_of_plan hplan, Option.some.injEq, ← hiff, eq_comm]
  refine ⟨first, _, plan'.main.code, hfirst, run_of_plan hplan _, ?_, ownCode?_of_plan hplan', hown, ?_⟩
  · rw [Collector.code?, hserved]
    rfl
  · intro hplain
    exact hown.2 (identifiers_eq_of_name_eq hplan' hplan hname' (hplain first hmem) (hplain request hrequest))

/-- Encoders for one enumeration, and for another one and a truth value, go by one name: the second request is
given the first one's function. -/
theorem code?_serve_enum :
    ∃ first c code,
      [encoder [.enum "A_t_bool"], encoder [.enum "A", .bool]].find?
        (asksFor {} "abi_encode_tuple_t_enum_A_t_bool") = some first ∧
      run {} (encoder [.enum "A", .bool]) (serve {} [encoder [.enum "A_t_bool"]]) =
        (.ok "abi_encode_tuple_t_enum_A_t_bool", c) ∧
      c.code? "abi_encode_tuple_t_enum_A_t_bool" = some code ∧ first.ownCode? {} = some code ∧
      (ownCode? {} (encoder [.enum "A", .bool]) = some code ↔
        first.identifiers = identifiers (encoder [.enum "A", .bool])) ∧
      ((∀ r ∈ [encoder [.enum "A_t_bool"], encoder [.enum "A", .bool]], ∀ t ∈ r.types, t.hasPlainName) →
        ownCode? {} (encoder [.enum "A", .bool]) = some code) := by
  refine code?_serve {} [encoder [.enum "A_t_bool"]] (asksFor_iff.1 ?_) ?_
  · decide +kernel
  · decide

/-- The function that is kept is not the function that was asked for. -/
theorem code?_serve_ne_ownCode? :
    (run {} (encoder [.enum "A", .bool]) (serve {} [encoder [.enum "A_t_bool"]])).1 =
        .ok "abi_encode_tuple_t_enum_A_t_bool" ∧
      (run {} (encoder [.enum "A", .bool]) (serve {} [encoder [.enum "A_t_bool"]])).2.code?
          "abi_encode_tuple_t_enum_A_t_bool" =
        some ("function abi_encode_tuple_t_enum_A_t_bool(headStart, value0) -> tail \x7b\n" ++
          "    tail := add(headStart, 32)\n" ++
          "    mstore(add(headStart, 0), cleanup_t_enum_A_t_bool(value0))\n\x7d") ∧
      ownCode? {} (encoder [.enum "A", .bool]) =
        some ("function abi_encode_tuple_t_enum_A_t_bool(headStart, value0, value1) -> tail \x7b\n" ++
          "    tail := add(headStart, 64)\n" ++
          "    mstore(add(headStart, 0), cleanup_t_enum_A(value0))\n" ++
          "    mstore(add(headStart, 32), cleanup_t_bool(value1))\n\x7d") := by
  have hplan : plan? {} (encoder [.enum "A", .bool]) = some (AbiTuple.encoderPlan [.enum "A", .bool]) := rfl
  refine ⟨?_, by decide +kernel, by decide +kernel⟩
  rw [run_of_plan hplan]
  exact congrArg Except.ok (by decide)

end HelperRequest

end YulBackend
