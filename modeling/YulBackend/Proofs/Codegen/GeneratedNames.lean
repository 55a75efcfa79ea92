import YulBackend.Proofs.Codegen.ImmutableLayout
import YulBackend.Proofs.Codegen.Names

namespace YulBackend

namespace ContextOperation

/-- The temporary that an operation hands out. -/
def temporary? (c : Context) : ContextOperation → Option String
  | newTemporary => some c.newTemporary.1
  | _ => none

theorem temporary?_of_ne {c : Context} {o : ContextOperation} (ho : o ≠ newTemporary) : o.temporary? c = none := by
  cases o with
  | newTemporary => exact absurd rfl ho
  | _ => rfl

/-- The temporaries that operations hand out, in order. -/
def temporaries (c : Context) : List ContextOperation → List String
  | [] => []
  | o :: rest => (o.temporary? c).toList ++ temporaries (o.run c).2 rest

end ContextOperation

namespace Context

variable {c : Context}

/-- What does not ask for a temporary leaves their number alone. -/
theorem Becomes.temporaries {o : ContextOperation} {c' : Context} (h : c.Becomes o c')
    (hconsistent : c.table.Consistent) (ho : o ≠ .newTemporary) : c'.temporaries = c.temporaries := by
  cases h with
  | dispatch operation =>
    obtain ⟨queue, table, hoperate⟩ := exists_operate_eq hconsistent operation
    rw [hoperate]
  | temporary => exact absurd rfl ho
  | _ => rfl

/-- The numbers of temporaries go up. -/
theorem exists_of_mem_temporaries (hconsistent : c.table.Consistent) {operations : List ContextOperation}
    {name : String} (h : name ∈ ContextOperation.temporaries c operations) :
    ∃ number > c.temporaries, name = "_" ++ toString number := by
  induction operations generalizing c with
  | nil => cases h
  | cons o rest ih =>
    have hbecomes := becomes_run hconsistent o
    by_cases ho : o = .newTemporary
    · subst ho
      obtain rfl | hrest := List.mem_cons.1 h
      · exact ⟨c.temporaries + 1, Nat.lt_succ_self _, rfl⟩
      · obtain ⟨number, hnumber, hname⟩ := ih (hbecomes.consistent hconsistent) hrest
        exact ⟨number, Nat.lt_of_succ_lt hnumber, hname⟩
    · rw [ContextOperation.temporaries, ContextOperation.temporary?_of_ne ho] at h
      rw [← hbecomes.temporaries hconsistent ho]
      exact ih (hbecomes.consistent hconsistent) h

/-- The temporaries that operations name are all different, as the counter only goes up. -/
theorem nodup_temporaries (hconsistent : c.table.Consistent) (operations : List ContextOperation) :
    (ContextOperation.temporaries c operations).Nodup := by
  induction operations generalizing c with
  | nil => exact List.nodup_nil
  | cons o rest ih =>
    have hrest := (becomes_run hconsistent o).consistent hconsistent
    by_cases ho : o = .newTemporary
    · subst ho
      refine List.nodup_cons.2 ⟨fun hmem => ?_, ih hrest⟩
      obtain ⟨number, hnumber, hname⟩ := exists_of_mem_temporaries hrest hmem
      have hsame : c.temporaries + 1 = number := Nat.repr_inj.1 ((String.append_right_inj _).1 hname)
      exact absurd hsame (Nat.ne_of_lt hnumber)
    · rw [ContextOperation.temporaries, ContextOperation.temporary?_of_ne ho]
      exact ih hrest

end Context

theorem nodup_map_of_nodup_ids {α : Type} {id : α → NodeId} {declarations : List α}
    (h : (declarations.map id).Nodup) {name : α → String} (hname : ∀ a b, name a = name b → id a = id b) :
    (declarations.map name).Nodup :=
  List.pairwise_map.2 ((List.pairwise_map.1 h).imp fun hne heq => hne (hname _ _ heq))

theorem StackVariable.nodup_flatMap_slots {locals : List Variable} (h : (locals.map Variable.id).Nodup) :
    (locals.flatMap fun v => (ofVariable v).slots).Nodup :=
  List.nodup_flatMap.2 ⟨fun v _ => nodup_slots v, (List.pairwise_map.1 h).imp disjoint_slots⟩

namespace CallSite

/-- The success conditions of those calls that have one. -/
def successNames (sites : List CallSite) : List String := sites.filterMap fun site => site.successName.toOption

/-- A success name is that of one of the call sites. -/
theorem exists_of_mem_successNames {sites : List CallSite} {name : String} (h : name ∈ successNames sites) :
    ∃ site ∈ sites, site.successName = .ok name := by
  obtain ⟨site, hsite, hname⟩ := List.mem_filterMap.1 h
  cases hsuccess : site.successName with
  | error fault =>
    rw [hsuccess] at hname
    cases hname
  | ok name' =>
    rw [hsuccess] at hname
    cases hname
    exact ⟨site, hsite, hsuccess⟩

/-- Call sites with different numbers have different success names. -/
theorem nodup_successNames {sites : List CallSite} (h : (sites.map CallSite.id).Nodup) :
    (successNames sites).Nodup := by
  induction sites with
  | nil => exact List.nodup_nil
  | cons site rest ih =>
    obtain ⟨hid, hrest⟩ := List.nodup_cons.1 h
    rw [successNames, List.filterMap_cons]
    cases hsuccess : site.successName with
    | error fault => exact ih hrest
    | ok name =>
      refine List.nodup_cons.2 ⟨fun hname => ?_, ih hrest⟩
      obtain ⟨other, hother, hsuccess'⟩ := exists_of_mem_successNames hname
      rw [id_eq_of_successName_eq hsuccess hsuccess'] at hid
      exact hid (List.mem_map_of_mem hother)

end CallSite

/-- Names of functions, getters, dispatchers, slots of locals, temporaries and success conditions in one object are all
different, and so are the names of objects. Declarations of one kind are known by their numbers, and the names that they
have in the source may be any text. -/
theorem nodup_generatedNames (settings : Settings) (operations : List ContextOperation) {functions : List Function}
    {stateVariables locals : List Variable} {arities : List Arity} {sites : List CallSite} {contracts : List Contract}
    (hfunctions : (functions.map Function.id).Nodup) (hstate : (stateVariables.map Variable.id).Nodup)
    (hlocals : (locals.map Variable.id).Nodup) (harities : arities.Nodup) (hsites : (sites.map CallSite.id).Nodup)
    (hcontracts : (contracts.map Contract.id).Nodup) :
    [functions.map Function.codeName, stateVariables.map Variable.getterName, arities.map Arity.dispatcherName,
      locals.flatMap fun v => (StackVariable.ofVariable v).slots,
      ContextOperation.temporaries { settings } operations, CallSite.successNames sites].flatten.Nodup ∧
    [contracts.map Contract.creationName, contracts.map Contract.runtimeName].flatten.Nodup := by
  have hfresh : Context.table { settings } |>.Consistent := by
    intro a members hmembers _
    cases hmembers
  constructor
  · refine (nodup_flatten_of_head?_eq ['f', 'g', 'd', 'v', '_', 't'] (by decide) ?_).1
    refine .cons ⟨?_, ?_⟩ <| .cons ⟨?_, ?_⟩ <| .cons ⟨?_, ?_⟩ <| .cons ⟨?_, ?_⟩ <| .cons ⟨?_, ?_⟩ <|
      .cons ⟨?_, ?_⟩ .nil
    · exact nodup_map_of_nodup_ids hfunctions fun _ _ => Function.id_eq_of_codeName_eq
    · exact List.forall_mem_map.2 fun f _ => f.head?_codeName
    · exact nodup_map_of_nodup_ids hstate fun _ _ => Variable.id_eq_of_getterName_eq
    · exact List.forall_mem_map.2 fun v _ => v.head?_getterName
    · exact harities.map fun _ _ => Arity.dispatcherName_injective
    · exact List.forall_mem_map.2 fun a _ => a.head?_dispatcherName
    · exact StackVariable.nodup_flatMap_slots hlocals
    · intro name hname
      obtain ⟨v, -, hslot⟩ := List.mem_flatMap.1 hname
      exact StackVariable.head?_of_mem_slots hslot
    · exact Context.nodup_temporaries hfresh operations
    · intro name hname
      obtain ⟨number, -, rfl⟩ := Context.exists_of_mem_temporaries hfresh hname
      exact head?_toList_append (by decide) _
    · exact CallSite.nodup_successNames hsites
    · intro name hname
      obtain ⟨site, -, hsuccess⟩ := CallSite.exists_of_mem_successNames hname
      exact CallSite.head?_of_successName_eq hsuccess
  · rw [List.flatten_cons, List.flatten_cons, List.flatten_nil, List.append_nil]
    refine (nodup_map_of_nodup_ids hcontracts fun _ _ => Contract.id_eq_of_creationName_eq).append
      (nodup_map_of_nodup_ids hcontracts fun _ _ => Contract.id_eq_of_runtimeName_eq) ?_
    intro name hcreation hruntime
    obtain ⟨c, -, rfl⟩ := List.mem_map.1 hcreation
    obtain ⟨d, -, hname⟩ := List.mem_map.1 hruntime
    exact Contract.creationName_ne_runtimeName c d hname.symm

/-- Names in the source that look like the end of a generated name. -/
theorem nodup_generatedNames_suffixes :
    let functions : List Function := [⟨2, "a_1", .regular, [], []⟩, ⟨12, "a", .regular, [], []⟩]
    let locals : List Variable := [⟨1, "x_1_offset", .uint 256, .mutable⟩, ⟨3, "x", .bytes .calldata, .mutable⟩]
    let sites : List CallSite := [⟨1, true⟩, ⟨11, true⟩, ⟨2, false⟩]
    let contracts : List Contract := [⟨1, "C_1_deployed"⟩, ⟨11, "C"⟩]
    [functions.map Function.codeName, locals.map Variable.getterName, [⟨1, 1⟩, ⟨11, 1⟩].map Arity.dispatcherName,
      locals.flatMap fun v => (StackVariable.ofVariable v).slots,
      ContextOperation.temporaries { settings := {} } [.newTemporary, .clearLocals, .newTemporary],
      CallSite.successNames sites].flatten.Nodup ∧
    [contracts.map Contract.creationName, contracts.map Contract.runtimeName].flatten.Nodup :=
  nodup_generatedNames {} _ (by decide) (by decide) (by decide) (by decide) (by decide) (by decide)

end YulBackend
