import YulBackend.Proofs.Codegen.StockedCode
import YulBackend.Proofs.Parser.Language

namespace YulBackend

open Lexer

section

variable {ds : List Definition}

/-- The texts of functions, one to a line, are read as the functions. -/
theorem reads_codes (hwf : ∀ d ∈ ds, d.function.isWellFormed) {cs : List Char} {tokens : List Token}
    (h : Reads cs tokens) (hend : EndsWord cs) :
    Reads (("\n".intercalate (ds.map Definition.code)).toList ++ cs)
      (Stmt.listTokens (ds.map Definition.function) ++ tokens) := by
  have hplain := @PrintContext.isPlain_ofStyle .plain rfl
  have hcode : ∀ {d : Definition} {cs tokens}, d.function.isWellFormed → Reads cs tokens → EndsWord cs →
      Reads (d.code.toList ++ cs) (d.function.tokens ++ tokens) := by
    intro d cs tokens hwf h hend
    simpa [Definition.code, Stmt.code, Stmt.print] using Stmt.reads hplain 0 h hend hwf
  induction ds with
  | nil => simpa [Stmt.listTokens] using h
  | cons d rest ih =>
    rw [List.forall_mem_cons] at hwf
    cases rest with
    | nil => simpa [Stmt.listTokens] using hcode hwf.1 h hend
    | cons next rest =>
      have hrest := (ih hwf.2).blank (c := '\n') (by decide)
      have hfirst := hcode hwf.1 hrest (endsWord_cons (by decide) _)
      rw [List.map_cons, List.map_cons, String.intercalate_cons_cons, String.toList_append, String.toList_append,
        List.map_cons, Stmt.listTokens, List.append_assoc, List.append_assoc, List.append_assoc]
      simpa [Stmt.listTokens] using hfirst

theorem allWellFormed_functions (hwf : ∀ d ∈ ds, d.function.isWellFormed) :
    Stmt.allWellFormed (ds.map Definition.function) :=
  AbiTuple.allWellFormed_map hwf

/-- Definitions one by one without bare initialisers have none together. -/
theorem anyBareInitialiser_functions (hbare : ∀ d ∈ ds, d.function.hasBareInitialiser = false) :
    Stmt.anyBareInitialiser (ds.map Definition.function) = false := by
  induction ds with
  | nil => rfl
  | cons d rest ih =>
    rw [List.forall_mem_cons] at hbare
    exact Bool.or_eq_false_iff.2 ⟨hbare.1, ih hbare.2⟩

/-- A text of functions in braces is read as the block of these functions. -/
theorem parse_functions (hwf : ∀ d ∈ ds, d.function.isWellFormed)
    (hbare : ∀ d ∈ ds, d.function.hasBareInitialiser = false) :
    ∃ program, parse ("\x7b" ++ "\n".intercalate (ds.map Definition.code) ++ "\x7d") = .ok program ∧
      program.eraseSpans = (Block.ofList (ds.map Definition.function)).eraseSpans := by
  have hwf' : (Block.ofList (ds.map Definition.function)).isWellFormed := allWellFormed_functions hwf
  have hreads := (reads_codes hwf reads_nil.closeBrace (endsWord_cons (by decide) _)).openBrace
  obtain ⟨lexemes, hlexemes, htokens, hfaults⟩ := hreads 0
  obtain ⟨program, hprogram, hview⟩ := Parser.program?_of_tokens hwf' (b := .ofList (ds.map Definition.function))
    (by simpa [Block.ofList, Block.tokens] using htokens)
  refine ⟨program, parse_eq_ok_iff.2 ⟨lexemes, ?_, hprogram, hfaults⟩, hview.trans ?_⟩
  · rw [← hlexemes]
    simp
  · exact (Block.eraseSpans_joinInitialisers_eq_iff _).2 (anyBareInitialiser_functions hbare)

/-- Statements made of definitions define just these. -/
theorem definitions_functions (ds : List Definition) : Stmt.definitions (ds.map Definition.function) = ds := by
  induction ds with
  | nil => rfl
  | cons d rest ih =>
    rw [List.map_cons, Definition.function, Stmt.definitions, ih]
    simp [Function.comp_def]

/-- Definitions that are scoped wherever they stand are scoped together. -/
theorem allScoped_functions (h : ∀ d ∈ ds, ∀ visible, d.function.isScoped visible) (visible : List String) :
    Stmt.allScoped visible (ds.map Definition.function) := by
  induction ds with
  | nil => rfl
  | cons d rest ih =>
    rw [List.forall_mem_cons] at h
    exact Bool.and_eq_true_iff.2 ⟨h.1 visible, ih h.2⟩

end

/-- A collector whose entries are all done hands over their code in the order of names, and is empty then. -/
theorem Collector.take_of_entries {c : Collector} {ds : List Definition}
    (h : c.functions.entries = ds.map fun d => (d.name, some d.code)) :
    c.take = .ok ("\n".intercalate (ds.map Definition.code), {}) := by
  have hvalues : c.functions.values = ds.map fun d => some d.code := by
    rw [SortedMap.values, h, List.map_map]
    rfl
  have hcodes : (ds.map fun d => some d.code).filterMap id = ds.map Definition.code := by
    rw [List.filterMap_map]
    exact congrFun List.filterMap_eq_map' ds
  rw [take, hvalues, if_pos (by simp), hcodes]

/-- The names in a collector increase, so no name is defined twice. -/
theorem Collector.increasing_of_entries {c : Collector} {ds : List Definition}
    (h : c.functions.entries = ds.map fun d => (d.name, some d.code)) : (ds.map (·.name)).Pairwise (· < ·) := by
  have hsorted := c.functions.sorted
  rw [h, List.pairwise_map] at hsorted
  rw [List.pairwise_map]
  exact hsorted.imp compareOfLessAndEq_eq_lt.1

namespace CodeRequest

variable {settings : Settings} {requests : List CodeRequest} {r use : CodeRequest} {plan plan' : HelperPlan}

/-- Everything but dispatchers, which call functions that the program defines. -/
def isHelper : CodeRequest → Bool
  | dispatcher _ _ => false
  | _ => true

/-- The types that a request is about. -/
def types : CodeRequest → List SourceType
  | helper request => request.types
  | _ => []

/-- What requests ask for themselves: functions that clean a value of one of their types, and one that reverts. -/
theorem mem_uses_cases {motive : CodeRequest → Prop} (h : use ∈ r.uses)
    (cleanup : ∀ t ∈ r.types, motive (helper (.cleanup t)))
    (revert : motive (revert "ABI decoding: tuple data too short")) : motive use := by
  cases r with
  | helper request =>
    cases request with
    | encoder types =>
      obtain ⟨t, ht, rfl⟩ := List.mem_map.1 h
      exact cleanup t ht
    | decoder types =>
      obtain rfl | h := List.mem_cons.1 h
      · exact revert
      · obtain ⟨t, ht, rfl⟩ := List.mem_map.1 h
        exact cleanup t ht
    | _ => cases h
  | _ => cases h

/-- Helper functions for types with proper names have a text. -/
theorem Plans.isWellFormed (h : r.Plans settings plan) (hhelper : r.isHelper) (hnamed : ∀ t ∈ r.types, t.isNamed) :
    plan.main.function.isWellFormed := by
  cases h with
  | helper h =>
    cases h with
    | cleanup ht => exact Helper.isWellFormed_cleanup ht (hnamed _ List.mem_cons_self)
    | shiftRight => exact Helper.isWellFormed_shiftRight _ _
    | encoder hts => exact AbiTuple.isWellFormed_encoder hts hnamed
    | decoder hts => exact AbiTuple.isWellFormed_decoder (AbiTuple.isName_tooShortDefinition _) hts hnamed
  | roundUp => exact Helper.isWellFormed_roundUp
  | panic code => exact Helper.isWellFormed_panic code
  | revert message => exact Helper.isWellFormed_revert _ _
  | dispatcher => cases hhelper

/-- The kind of a function that others ask for tells how many arguments it takes. -/
theorem Plans.length_parameters (h : r.Plans settings plan) :
    (r.kind = .helper .cleanup → plan.main.parameters.length = 1) ∧
      (r.kind = .helper .revert → plan.main.parameters.length = 0) := by
  cases h with
  | helper h =>
    cases h with
    | cleanup => exact ⟨fun _ => rfl, nofun⟩
    | _ => exact ⟨nofun, nofun⟩
  | revert => exact ⟨nofun, fun _ => rfl⟩
  | _ => exact ⟨nofun, nofun⟩

/-- A function under the name of one that a request asks for takes as many arguments. -/
theorem Plans.shape_eq (huse : use ∈ r.uses) (h : use.Plans settings plan) {r' : CodeRequest}
    (h' : r'.Plans settings plan') (hname : plan'.main.name = plan.main.name) : plan'.main.shape = plan.main.shape := by
  have hkind := h'.kind_eq h hname
  have huses : use.kind = .helper .cleanup ∨ use.kind = .helper .revert :=
    mem_uses_cases (motive := fun use => use.kind = .helper .cleanup ∨ use.kind = .helper .revert) huse
      (fun _ _ => .inl rfl) (.inr rfl)
  have hlength : plan'.main.parameters.length = plan.main.parameters.length := by
    obtain hcleanup | hrevert := huses
    · rw [h.length_parameters.1 hcleanup, h'.length_parameters.1 (hkind.trans hcleanup)]
    · rw [h.length_parameters.2 hrevert, h'.length_parameters.2 (hkind.trans hrevert)]
  exact Prod.ext hname hlength

/-- A request for a helper function with a proper name makes only such requests. -/
theorem isHelper_and_isNamed_of_mem_parts {part : CodeRequest} (hhelper : r.isHelper)
    (hnamed : ∀ t ∈ r.types, t.isNamed) (hpart : part ∈ r.parts) :
    part.isHelper ∧ ∀ t ∈ part.types, t.isNamed := by
  obtain rfl | huse := List.mem_cons.1 hpart
  · exact ⟨hhelper, hnamed⟩
  · refine mem_uses_cases (motive := fun use => use.isHelper ∧ ∀ t ∈ use.types, t.isNamed) huse ?_ ⟨rfl, nofun⟩
    exact fun t ht => ⟨rfl, List.forall_mem_singleton.2 (hnamed t ht)⟩

/-- What a helper function calls is a builtin, or a function that it asks for. -/
theorem Permits.resolved {call : CallShape} (h : r.Permits settings plan call) (hhelper : r.isHelper) :
    (∃ builtin, (Dialect.evm .london).builtin? call.1 = some builtin ∧ builtin.parameters = call.2) ∨
      ∃ d ∈ plan.uses, call = d.shape := by
  have hinstruction : ∀ i : Instruction,
      ∃ builtin, (Dialect.evm .london).builtin? i.shape.1 = some builtin ∧ builtin.parameters = i.shape.2 :=
    fun i => ⟨_, Dialect.builtin?_name i.since_le_london, rfl⟩
  cases h with
  | instruction => exact .inl (hinstruction _)
  | revert => exact .inl (hinstruction _)
  | use h => exact .inr ⟨_, h, rfl⟩
  | member hr =>
    rw [hr] at hhelper
    cases hhelper

/-- Helper functions that have what they ask for beside them are a program in themselves. -/
theorem isLibrary_plans {plans : List HelperPlan}
    (hincreasing : ((plans.map (·.main)).map (·.name)).Pairwise (· < ·))
    (hhelper : ∀ plan ∈ plans, ∃ r : CodeRequest, r.isHelper ∧ r.Plans settings plan)
    (huses : ∀ plan ∈ plans, ∀ d ∈ plan.uses, ∃ plan' ∈ plans, plan'.main.name = d.name) :
    (Block.ofList ((plans.map (·.main)).map Definition.function)).IsLibrary (Dialect.evm .london) := by
  refine ⟨?_, ?_, ?_, ?_⟩
  · rw [Block.ofList, List.forall_mem_map]
    exact fun _ _ => rfl
  · rwa [Block.ofList, definitions_functions]
  · intro call hcall
    obtain ⟨s, hs, hcall⟩ := Stmt.mem_allCalls_iff.1 hcall
    obtain ⟨d, hd, rfl⟩ := List.mem_map.1 hs
    obtain ⟨plan, hplan, rfl⟩ := List.mem_map.1 hd
    obtain ⟨r, hr, h⟩ := hhelper plan hplan
    obtain hbuiltin | ⟨d, hd, rfl⟩ := (h.isWithin.allowed_of_mem hcall).resolved hr
    · exact .inl hbuiltin
    · obtain ⟨plan', hplan', hname⟩ := huses plan hplan d hd
      obtain ⟨use, huse, hd⟩ := h.exists_use hd
      obtain ⟨r', -, h'⟩ := hhelper plan' hplan'
      refine .inr ?_
      rw [Block.ofList, definitions_functions, ← Plans.shape_eq huse hd h' hname]
      exact List.mem_map_of_mem (List.mem_map_of_mem hplan')
  · refine allScoped_functions (fun d hd visible => ?_) []
    obtain ⟨plan, hplan, rfl⟩ := List.mem_map.1 hd
    obtain ⟨r, -, h⟩ := hhelper plan hplan
    exact h.isWithin.isScoped visible

/-- The text that `takeFunctions` hands out after a context served requests for helper functions is, in braces, a
program in itself: `parse` reads it as functions in name order, each name once; whatever they call is a builtin, or one
of them, with as many arguments as it takes; and every variable is one of the function that uses it. Among them is a
function under every name that a request returned. -/
theorem takeFunctions_serve (c : Context) (requests : List CodeRequest) (hempty : c.collector = {})
    (hhelper : ∀ r ∈ requests, r.isHelper) (hnamed : ∀ r ∈ requests, ∀ t ∈ r.types, t.isNamed) :
    ∃ text c' program, Contextual.takeFunctions (serve c requests) = (.ok text, c') ∧
      parse ("\x7b" ++ text ++ "\x7d") = .ok program ∧ program.IsLibrary (Dialect.evm .london) ∧
      ∀ before r after name, requests = before ++ r :: after → (r.run (serve c before)).1 = .ok name →
        name ∈ (Stmt.definitions program.statements).map (·.name) := by
  have hstocked := stocked_stock c.settings requests
  obtain ⟨plans, hentries, hplans⟩ := hstocked.exists_plans
  have hentries' : (stock c.settings {} requests).functions.entries =
      (plans.map (·.main)).map fun d => (d.name, some d.code) := by
    rw [hentries, List.map_map]
    rfl
  have hmade : ∀ plan ∈ plans, ∃ part : CodeRequest, part.isHelper ∧ (∀ t ∈ part.types, t.isNamed) ∧
      part.Plans c.settings plan := by
    intro plan hplan
    obtain ⟨⟨r, hr, -, part, hpart, h⟩, -⟩ := hplans plan hplan
    obtain ⟨hpartHelper, hpartNamed⟩ := isHelper_and_isNamed_of_mem_parts (hhelper r hr) (hnamed r hr) hpart
    exact ⟨part, hpartHelper, hpartNamed, h⟩
  have hwf : ∀ d ∈ plans.map (·.main), d.function.isWellFormed := by
    rw [List.forall_mem_map]
    intro plan hplan
    obtain ⟨part, hpartHelper, hpartNamed, h⟩ := hmade plan hplan
    exact h.isWellFormed hpartHelper hpartNamed
  have hbare : ∀ d ∈ plans.map (·.main), d.function.hasBareInitialiser = false := by
    rw [List.forall_mem_map]
    intro plan hplan
    obtain ⟨part, -, -, h⟩ := hmade plan hplan
    exact h.isWithin.hasBareInitialiser
  have hhelpers : ∀ plan ∈ plans, ∃ r : CodeRequest, r.isHelper ∧ r.Plans c.settings plan :=
    fun plan hplan => (hmade plan hplan).imp fun _ h => ⟨h.1, h.2.2⟩
  have hlibrary := isLibrary_plans (Collector.increasing_of_entries hentries') hhelpers
    fun plan hplan => (hplans plan hplan).2
  obtain ⟨program, hparse, hview⟩ := parse_functions hwf hbare
  have htake : Contextual.takeFunctions (serve c requests) =
      (.ok ("\n".intercalate ((plans.map (·.main)).map Definition.code)), { c with collector := {} }) := by
    rw [serve_eq, hempty, Contextual.takeFunctions, Contextual.step]
    dsimp only
    rw [Collector.take_of_entries hentries']
    rfl
  refine ⟨_, _, program, htake, hparse, hlibrary.congr hview, ?_⟩
  rintro before r after name rfl hrun
  rw [Block.names_congr hview, Block.ofList, definitions_functions, List.map_map]
  obtain ⟨plan, hplan, rfl⟩ := exists_plan_of_run hrun
  rw [settings_serve] at hplan
  have hmem := (SortedMap.mem_keys_iff _).2 (hstocked.served r (by simp) plan hplan)
  rw [SortedMap.keys, hentries, List.map_map] at hmem
  exact hmem

/-- A decoder for an enumeration and a shift, and then again the decoder's cleanup function. -/
theorem takeFunctions_serve_decoder :
    let requests := [helper (.decoder [.enum "Colour"]), helper (.shiftRight 8), helper (.cleanup (.enum "Colour"))]
    (∀ r ∈ requests, r.isHelper) ∧ (∀ r ∈ requests, ∀ t ∈ r.types, t.isNamed) ∧
      ∃ text c' program, Contextual.takeFunctions (serve { settings := {} } requests) = (.ok text, c') ∧
        parse ("\x7b" ++ text ++ "\x7d") = .ok program ∧ program.IsLibrary (Dialect.evm .london) ∧
        ∀ before r after name, requests = before ++ r :: after →
          (r.run (serve { settings := {} } before)).1 = .ok name →
          name ∈ (Stmt.definitions program.statements).map (·.name) := by
  intro requests
  have hhelper : ∀ r ∈ requests, r.isHelper := by decide
  have hnamed : ∀ r ∈ requests, ∀ t ∈ r.types, t.isNamed := by
    simp [requests, types, HelperRequest.types]
    decide
  exact ⟨hhelper, hnamed, takeFunctions_serve { settings := {} } requests rfl hhelper hnamed⟩

end CodeRequest

end YulBackend
