import YulBackend.Proofs.Codegen.StockedCode

namespace YulBackend.CodeRequest

theorem append_ne_instruction {stem : String} (h : ∀ i ∈ Instruction.all, ¬ stem.toList <+: i.signature.name.toList)
    (rest : String) (i : Instruction) : stem ++ rest ≠ i.signature.name := by
  intro heq
  refine h i i.mem_all ?_
  rw [← heq, String.toList_append]
  exact List.prefix_append _ _

theorem Kind.append_ne_instruction (k : Kind) (rest : String) (i : Instruction) :
    k.stem ++ rest ≠ i.signature.name := by
  refine CodeRequest.append_ne_instruction ?_ rest i
  rcases k with kind | _ | _ | _
  · cases kind <;> decide
  all_goals decide

theorem codeName_ne_instruction (f : Function) (i : Instruction) : f.codeName ≠ i.signature.name := by
  rw [Function.codeName, String.append_assoc, String.append_assoc]
  exact append_ne_instruction (by decide) _ i

section

variable {settings : Settings} {r : CodeRequest} {plan : HelperPlan} {requests : List CodeRequest}

theorem Plans.name_ne_instruction (h : r.Plans settings plan) (i : Instruction) :
    plan.main.name ≠ i.signature.name := by
  obtain ⟨rest, hrest⟩ := h.exists_name
  rw [hrest]
  exact r.kind.append_ne_instruction rest i

/-- The instruction that a generated function calls is one of the target, or the function reverts on its own. -/
theorem Plans.instruction (h : r.Plans settings plan) {call : CallShape} (hcall : call ∈ plan.main.function.calls)
    {i : Instruction} (hname : call.1 = i.signature.name) :
    i.signature.since ≤ settings.evmVersion ∨ i = .revert ∧ r.kind.callsRevert := by
  cases h.isWithin.allowed_of_mem hcall with
  | instruction hsince =>
    obtain rfl := Instruction.name_injective hname
    exact .inl hsince
  | revert hrevert => exact .inr ⟨Instruction.name_injective hname.symm, hrevert⟩
  | use hd =>
    obtain ⟨use, -, huse⟩ := h.exists_use hd
    exact absurd hname (huse.name_ne_instruction i)
  | member => exact absurd hname (codeName_ne_instruction _ i)

/-- A call in the body of a definition is a call of the definition. -/
theorem mem_calls_of_mem_statements {d : Definition} {s : Stmt} {call : CallShape} (hs : s ∈ d.body.statements)
    (hcall : call ∈ s.calls) : call ∈ d.function.calls := by
  change call ∈ d.body.calls
  rw [Block.calls_eq]
  exact Stmt.mem_allCalls_iff.2 ⟨s, hs, hcall⟩

/-- A revert function calls `revert`, whatever its mode and message. -/
theorem revert_mem_calls_revert (reverts : RevertStrings) (message : String) :
    Instruction.revert.shape ∈ (Helper.revertDefinition reverts message).function.calls := by
  have hlast : ∃ length, Stmt.perform "revert" [.decimal 0, length] ∈ revertStatements reverts message := by
    by_cases h : (!reverts.includesDebugReasons || (utf8Bytes message).isEmpty) = true
    · rw [revertStatements, if_pos h]
      exact ⟨_, List.mem_singleton_self _⟩
    · rw [revertStatements, if_neg h]
      exact ⟨_, List.mem_append_right _ (List.mem_singleton_self _)⟩
  obtain ⟨length, hlast⟩ := hlast
  exact mem_calls_of_mem_statements hlast List.mem_cons_self

theorem revert_mem_calls_panic (code : PanicCode) :
    Instruction.revert.shape ∈ (Helper.panicDefinition code).function.calls := by
  refine mem_calls_of_mem_statements (s := .perform "revert" [.decimal 0, .hexadecimal 0x24]) ?_ List.mem_cons_self
  exact List.mem_cons_of_mem _ (List.mem_cons_of_mem _ (List.mem_singleton_self _))

/-- A function that reverts on its own does so by the instruction. -/
theorem Plans.revert_mem_calls (h : r.Plans settings plan) (hrevert : r.kind.callsRevert) :
    Instruction.revert.shape ∈ plan.main.function.calls := by
  cases h with
  | panic code => exact revert_mem_calls_panic code
  | revert message => exact revert_mem_calls_revert _ message
  | helper h => cases h <;> cases hrevert
  | _ => cases hrevert

/-- The request's function reverts, or one that it calls does. -/
def reverts (r : CodeRequest) : Bool := r.parts.any (·.kind.callsRevert)

/-- The request makes this function, if there is none of its name. -/
def Makes (settings : Settings) (r : CodeRequest) (d : Definition) : Prop :=
  (r.work settings {}).1 = .ok d.name ∧ (r.work settings {}).2.code? d.name = some d.code

theorem Plans.makes (h : r.Plans settings plan) : r.Makes settings plan.main := by
  rw [Makes, work_of_plan h.plan_eq]
  exact ⟨rfl, Collector.code?_provide_empty plan⟩

/-- A decoder uses the function that reverts on short data. -/
theorem tooShort_mem_uses (h : r.Plans settings plan) (hkind : r.kind = .helper .decoder) :
    AbiTuple.tooShortDefinition settings.revertStrings ∈ plan.uses := by
  cases h with
  | helper h =>
    cases h with
    | decoder => exact List.mem_cons_self
    | _ => cases hkind
  | _ => cases hkind

/-- A request that reverts is of a kind that calls `revert`, or a decoder. -/
theorem kind_of_reverts (h : r.reverts) : r.kind.callsRevert ∨ r.kind = .helper .decoder := by
  cases r with
  | helper request =>
    cases request with
    | decoder => exact .inr rfl
    | encoder types => simp [reverts, parts, uses, kind, HelperRequest.kind, Kind.callsRevert] at h
    | _ => exact .inl h
  | panic => exact .inl rfl
  | revert => exact .inl rfl
  | _ => exact .inl h

/-- If a request that reverts is served, there is a function that calls the instruction. -/
theorem Stocked.exists_revert {c : Collector} (hstocked : Stocked settings requests c) {plans : List HelperPlan}
    (hentries : c.functions.entries = plans.map fun plan => (plan.main.name, some plan.main.code))
    (hmade : ∀ plan ∈ plans, ∃ part : CodeRequest, part.Plans settings plan)
    (huses : ∀ plan ∈ plans, ∀ d ∈ plan.uses, ∃ plan' ∈ plans, plan'.main.name = d.name)
    (hr : r ∈ requests) (hserved : r.isServed settings) (hreverts : r.reverts) :
    ∃ plan ∈ plans, Instruction.revert.shape ∈ plan.main.function.calls := by
  obtain ⟨own, hown⟩ := isServed_iff.1 hserved
  have hmem := (SortedMap.mem_keys_iff _).2 (hstocked.served r hr own hown)
  rw [SortedMap.keys, hentries, List.map_map] at hmem
  obtain ⟨plan, hplan, hname⟩ := List.mem_map.1 hmem
  obtain ⟨part, hpart⟩ := hmade plan hplan
  have hkind := hpart.kind_eq (plans_of_plan hown) hname
  obtain hrevert | hdecoder := kind_of_reverts hreverts
  · exact ⟨plan, hplan, hpart.revert_mem_calls (hkind ▸ hrevert)⟩
  · -- a decoder reverts through the function for data that is too short
    obtain ⟨plan', hplan', hname'⟩ := huses plan hplan _ (tooShort_mem_uses hpart (hkind.trans hdecoder))
    obtain ⟨part', hpart'⟩ := hmade plan' hplan'
    have hkind' := hpart'.kind_eq (.revert "ABI decoding: tuple data too short") hname'
    exact ⟨plan', hplan', hpart'.revert_mem_calls (hkind' ▸ rfl)⟩

end

end YulBackend.CodeRequest

namespace YulBackend

/-- Every instruction that the function calls is one that the version has. -/
def Definition.ConformsTo (version : EvmVersion) (d : Definition) : Prop :=
  ∀ call ∈ d.function.calls, ∀ i : Instruction, call.1 = i.signature.name →
    (Dialect.evm version).instruction? call.1 = some i

namespace CodeRequest

/-- The functions that `serve` leaves in a context are made by the requests, and call instructions of the target and
`revert`. So they call nothing that the target does not have exactly if it has `revert`, or no request was served that
reverts. -/
theorem conformsTo_serve (c : Context) (requests : List CodeRequest) (hempty : c.collector = {}) :
    ∃ ds : List Definition,
      (serve c requests).collector.functions.entries = ds.map (fun d => (d.name, some d.code)) ∧
      (∀ d ∈ ds, ∃ r ∈ requests, ∃ part ∈ r.parts, part.Makes c.settings d) ∧
      (∀ d ∈ ds, ∀ call ∈ d.function.calls, ∀ i : Instruction, call.1 = i.signature.name → i ≠ .revert →
        (Dialect.evm c.settings.evmVersion).instruction? call.1 = some i) ∧
      ((∀ d ∈ ds, d.ConformsTo c.settings.evmVersion) ↔
        .byzantium ≤ c.settings.evmVersion ∨ ∀ r ∈ requests, r.isServed c.settings → ¬ r.reverts) := by
  have hstocked := stocked_stock c.settings requests
  obtain ⟨plans, hentries, hplans⟩ := hstocked.exists_plans
  have hmade : ∀ plan ∈ plans, ∃ part : CodeRequest, part.Plans c.settings plan := by
    intro plan hplan
    obtain ⟨⟨r, -, -, part, -, h⟩, -⟩ := hplans plan hplan
    exact ⟨part, h⟩
  refine ⟨plans.map (·.main), ?_, ?_, ?_, ?_⟩
  · rw [serve_eq, hempty, hentries, List.map_map]
    rfl
  · rw [List.forall_mem_map]
    intro plan hplan
    obtain ⟨⟨r, hr, -, part, hpart, h⟩, -⟩ := hplans plan hplan
    exact ⟨r, hr, part, hpart, h.makes⟩
  · rw [List.forall_mem_map]
    intro plan hplan call hcall i hname hrevert
    obtain ⟨part, h⟩ := hmade plan hplan
    obtain hsince | ⟨rfl, -⟩ := h.instruction hcall hname
    · rw [hname, Dialect.instruction?_name_iff]
      exact hsince
    · exact absurd rfl hrevert
  · rw [List.forall_mem_map]
    constructor
    · intro hconforms
      by_contra hnot
      push Not at hnot
      obtain ⟨hversion, r, hr, hserved, hreverts⟩ := hnot
      obtain ⟨plan, hplan, hcall⟩ := hstocked.exists_revert hentries hmade (fun plan hplan => (hplans plan hplan).2)
        hr hserved hreverts
      exact hversion (Dialect.instruction?_name_iff.1 (hconforms plan hplan _ hcall .revert rfl))
    · intro hcondition plan hplan call hcall i hname
      obtain ⟨⟨r, hr, hserved, part, hpart, h⟩, -⟩ := hplans plan hplan
      rw [hname, Dialect.instruction?_name_iff]
      obtain hsince | ⟨rfl, hrevert⟩ := h.instruction hcall hname
      · exact hsince
      · obtain hversion | hnone := hcondition
        · exact hversion
        · exact absurd (List.any_eq_true.2 ⟨part, hpart, hrevert⟩) (hnone r hr hserved)

/-- A shift for the oldest target, which divides there. -/
theorem conformsTo_serve_shiftRight :
    ∃ ds : List Definition,
      (serve { settings := { evmVersion := .homestead } } [helper (.shiftRight 8)]).collector.functions.entries =
        ds.map (fun d => (d.name, some d.code)) ∧
      (∀ d ∈ ds, ∃ r ∈ [helper (.shiftRight 8)], ∃ part ∈ r.parts, part.Makes { evmVersion := .homestead } d) ∧
      (∀ d ∈ ds, ∀ call ∈ d.function.calls, ∀ i : Instruction, call.1 = i.signature.name → i ≠ .revert →
        (Dialect.evm .homestead).instruction? call.1 = some i) ∧
      ((∀ d ∈ ds, d.ConformsTo .homestead) ↔
        .byzantium ≤ EvmVersion.homestead ∨
          ∀ r ∈ [helper (.shiftRight 8)], r.isServed { evmVersion := .homestead } → ¬ r.reverts) :=
  conformsTo_serve { settings := { evmVersion := .homestead } } [helper (.shiftRight 8)] rfl

/-- The function for a panic calls `revert` for a target that does not have it. -/
theorem not_conformsTo_panic :
    let c := serve { settings := { evmVersion := .homestead } } [panic .generic]
    c.collector.functions.entries = [("panic_error_0x00", some (Helper.panicDefinition .generic).code)] ∧
      ¬ (Helper.panicDefinition .generic).ConformsTo .homestead := by
  refine ⟨?_, fun h => ?_⟩
  · rw [serve, List.foldl_cons, List.foldl_nil, run_apply, work_of_plan rfl]
    rfl
  · have hresolved := h _ (revert_mem_calls_panic .generic) .revert rfl
    exact absurd hresolved (by decide)

end CodeRequest

end YulBackend
