import YulBackend.Proofs.Codegen.Cleaning
import YulBackend.Proofs.Codegen.Reverting

namespace YulBackend

open Evm Execution

/-- A collector holds the texts of these functions, and nothing else. -/
def Collector.Holds (c : Collector) (ds : List Definition) : Prop :=
  ∀ name, c.functions.get? name = (ds.find? (·.name = name)).map fun d => some d.code

/-- The empty collector holds every definition of a plan once it has been provided. -/
theorem Collector.holds_provide_empty (plan : HelperPlan) :
    (({} : Collector).provide plan).Holds plan.definitions := by
  intro name
  have hempty : ∀ name, ({} : Collector).functions.get? name = none := fun _ => rfl
  rw [get?_provide, contains_eq, hempty, hempty]
  rfl

namespace HelperPlan

variable {plan : HelperPlan} {F : Functions} {name : String}

theorem find?_main (plan : HelperPlan) (F : Functions) :
    Functions.find? plan.main.name (plan.definitions :: F) = some (plan.main, plan.definitions :: F) :=
  Functions.find?_cons (by simp [definitions])

/-- Functions that others use are found by their names. -/
theorem find?_use {settings : Settings} {d : Definition} (hshared : ∀ d ∈ plan.uses, d.IsShared settings)
    (hfresh : ∀ d ∈ plan.uses, d.name ≠ plan.main.name) (hd : d ∈ plan.uses) (F : Functions) :
    Functions.find? d.name (plan.definitions :: F) = some (d, plan.definitions :: F) := by
  have hsome : (plan.uses.find? (·.name = d.name)).isSome := by
    rw [List.find?_isSome]
    exact ⟨d, hd, by simp⟩
  obtain ⟨d', hd'⟩ := Option.isSome_iff_exists.1 hsome
  have hname : d'.name = d.name := by simpa using List.find?_some hd'
  obtain rfl := (hshared d' (List.mem_of_find?_eq_some hd')).eq_of_name_eq (hshared d hd) hname
  have hmain : plan.main.name ≠ d'.name := (hfresh d' hd).symm
  refine Functions.find?_cons ?_
  rw [definitions, List.find?_cons_of_neg (by simpa using hmain), hd']

end HelperPlan

namespace AbiTuple

section

variable {other : String → List Nat → World → Option (List Nat) × World} {unvalued : Literal → Nat}
  {fuel : Nat} {F : Functions} {V : Locals} {m : Machine World} {headStart : Word} {types : List SourceType}
  {names : List String}

/-- No builtin has the name of a cleanup function, so a call of it is a call of the function. -/
theorem builtin?_cleanup (t : SourceType) :
    (interpretation other unvalued).dialect.builtin? t.cleanupDefinition.name = none :=
  builtin?_append (by decide) _

/-- The position of a value in the head. -/
theorem evaluates_position {call : String → List Nat → Exec World (List Nat)} {offset : Nat}
    (hhead : V "headStart" = some headStart.toNat) (hoffset : offset < 2 ^ wordBits) :
    Evaluates (interpretation other unvalued) call V m (.apply "add" [.var "headStart", .decimal offset])
      (headStart + BitVec.ofNat wordBits offset) :=
  (evaluates_var hhead).add (evaluates_decimal hoffset)

theorem toNat_position {offset : Nat} (h : headStart.toNat + offset < 2 ^ wordBits) :
    (headStart + BitVec.ofNat wordBits offset).toNat = headStart.toNat + offset := by
  rw [BitVec.toNat_add, BitVec.toNat_ofNat, Nat.add_mod_mod, Nat.mod_eq_of_lt h]

/-- The cleanup functions of these types are at hand. -/
def HasCleanups (F : Functions) (types : List SourceType) : Prop :=
  ∀ t ∈ types, t.isSingleSlot ∧ t.hasProperWidth ∧
    ∃ F', F.find? t.cleanupDefinition.name = some (t.cleanupDefinition, F')

/-- A call of a cleanup function cleans its argument. -/
theorem evaluates_cleanup {t : SourceType} {e : Expr} {word : Word} (h : HasCleanups F types) (ht : t ∈ types)
    (he : Evaluates (interpretation other unvalued) (callFunction (interpretation other unvalued) (fuel + 1) F) V m e
      word) :
    Evaluates (interpretation other unvalued) (callFunction (interpretation other unvalued) (fuel + 1) F) V m
      (.apply t.cleanupDefinition.name [e]) (t.clean word) := by
  obtain ⟨hslot, hwidth, F', hfind⟩ := h t ht
  exact he.call_one (builtin?_cleanup t) (SourceType.callFunction_cleanup hslot hwidth hfind)

/-- The statement that stores a value writes its cleaned word at the slot's position and changes no other memory. -/
theorem exec_storeStmt {t : SourceType} {name : String} {offset fuel' : Nat} {word : Word} (h : HasCleanups F types)
    (ht : t ∈ types) (hname : V name = some word.toNat) (hhead : V "headStart" = some headStart.toNat)
    (hfits : headStart.toNat + offset < 2 ^ wordBits) :
    exec (interpretation other unvalued) (callFunction (interpretation other unvalued) (fuel + 1)) fuel' F V
        (storeStmt (t, name, offset)) m =
      (.ok (.normal, V), { m with world := { m.world with
        memory := store m.world.memory (headStart.toNat + offset) (t.clean word) } }) := by
  have hposition : Evaluates (interpretation other unvalued)
      (callFunction (interpretation other unvalued) (fuel + 1) F) V m _ _ :=
    evaluates_position hhead (show offset < 2 ^ wordBits by omega)
  have hclean : Evaluates (interpretation other unvalued)
      (callFunction (interpretation other unvalued) (fuel + 1) F) V m _ _ :=
    evaluates_cleanup h ht (evaluates_var hname)
  refine (exec_mStore hposition hclean).trans ?_
  rw [BitVec.ofNat_toNat, BitVec.setWidth_eq, BitVec.ofNat_toNat, BitVec.setWidth_eq, toNat_position hfits]

/-- The statement that loads a value sets it to the cleaned word at the slot's position in the call data. -/
theorem exec_loadStmt {t : SourceType} {name : String} {offset fuel' : Nat} (h : HasCleanups F types)
    (ht : t ∈ types) (hname : (V name).isSome) (hhead : V "headStart" = some headStart.toNat)
    (hfits : headStart.toNat + offset < 2 ^ wordBits) :
    exec (interpretation other unvalued) (callFunction (interpretation other unvalued) (fuel + 1)) fuel' F V
        (loadStmt (t, name, offset)) m =
      (.ok (.normal, V.set name (t.clean (wordAt m.world.callDataByte (headStart.toNat + offset))).toNat), m) := by
  have hposition : Evaluates (interpretation other unvalued)
      (callFunction (interpretation other unvalued) (fuel + 1) F) V m _ _ :=
    evaluates_position hhead (show offset < 2 ^ wordBits by omega)
  have hload := hposition.callDataLoad
  rw [toNat_position hfits] at hload
  exact exec_assign (evaluates_cleanup h ht hload) hname

/-- The statements of an encoder store the values, cleaned, side by side. -/
theorem execAll_storeStmts {values : List Word} {offset fuel' : Nat} (h : HasCleanups F types)
    (hvalues : V.Holds names (values.map BitVec.toNat)) (hlength : values.length = types.length)
    (hhead : V "headStart" = some headStart.toNat)
    (hfits : headStart.toNat + (offset + wordBytes * types.length) < 2 ^ wordBits) :
    execAll (interpretation other unvalued) (callFunction (interpretation other unvalued) (fuel + 1)) fuel' F V
        ((layout offset types names).map storeStmt) m =
      (.ok (.normal, V), { m with world := { m.world with
        memory := storeAll m.world.memory (headStart.toNat + offset) (List.zipWith SourceType.clean types values) } })
      := by
  induction types generalizing names values offset m with
  | nil => cases names <;> rfl
  | cons t types ih =>
    match values, names, hvalues with
    | word :: values, name :: names, .cons hname hnames =>
      rw [List.length_cons, Nat.mul_succ] at hfits
      have hfirst : headStart.toNat + offset < 2 ^ wordBits := by omega
      rw [layout, List.map_cons]
      refine (execAll_cons (exec_storeStmt h List.mem_cons_self hname hhead hfirst)).trans ?_
      have hrest : HasCleanups F types := fun t ht => h t (List.mem_cons_of_mem _ ht)
      have hnext : headStart.toNat + (offset + wordBytes + wordBytes * types.length) < 2 ^ wordBits := by omega
      refine (ih hrest hnames (Nat.succ.inj hlength) hnext).trans ?_
      rw [← Nat.add_assoc]
      rfl

/-- The statements of a decoder give the variables the words that stand side by side in the call data, cleaned. -/
theorem execAll_loadStmts {offset fuel' : Nat} (h : HasCleanups F types) (hnames : ∀ name ∈ names, (V name).isSome)
    (hlength : names.length = types.length) (hnotHead : "headStart" ∉ names)
    (hhead : V "headStart" = some headStart.toNat)
    (hfits : headStart.toNat + (offset + wordBytes * types.length) < 2 ^ wordBits) :
    execAll (interpretation other unvalued) (callFunction (interpretation other unvalued) (fuel + 1)) fuel' F V
        ((layout offset types names).map loadStmt) m =
      (.ok (.normal, V.setAll (names.zip ((List.zipWith SourceType.clean types
        (wordsAt m.world.callDataByte (headStart.toNat + offset) types.length)).map BitVec.toNat))), m) := by
  induction types generalizing names offset V with
  | nil =>
    cases names with
    | nil => rfl
    | cons => cases hlength
  | cons t types ih =>
    cases names with
    | nil => cases hlength
    | cons name names =>
      rw [List.forall_mem_cons] at hnames
      rw [List.mem_cons, not_or] at hnotHead
      rw [List.length_cons, Nat.mul_succ] at hfits
      have hfirst : headStart.toNat + offset < 2 ^ wordBits := by omega
      rw [layout, List.map_cons]
      refine (execAll_cons (exec_loadStmt h List.mem_cons_self hnames.1 hhead hfirst)).trans ?_
      have hrest : HasCleanups F types := fun t ht => h t (List.mem_cons_of_mem _ ht)
      have hnext : headStart.toNat + (offset + wordBytes + wordBytes * types.length) < 2 ^ wordBits := by omega
      have hkeep : ∀ value, ∀ x ∈ names, (V.set name value x).isSome := fun value x hx =>
        Locals.isSome_setAll_of_isSome (hnames.2 x hx) [(name, value)]
      have hhead' : ∀ value, V.set name value "headStart" = some headStart.toNat := fun value =>
        (Locals.set_of_ne V value hnotHead.1).trans hhead
      refine (ih hrest (hkeep _) (Nat.succ.inj hlength) hnotHead.2 (hhead' _) hnext).trans ?_
      rw [← Nat.add_assoc]
      rfl

end

theorem not_mem_valueNames {x : String} (h : ¬ "value".toList <+: x.toList) (types : List SourceType) :
    x ∉ valueNames types :=
  not_mem_numberedNames h

theorem nodup_valueNames (types : List SourceType) : (valueNames types).Nodup := nodup_numberedNames _ _

/-- Statements that define no functions one by one define none together. -/
theorem definitions_map {α : Type} {f : α → Stmt}
    (h : ∀ x rest, Stmt.definitions (f x :: rest) = Stmt.definitions rest) (xs : List α) :
    Stmt.definitions (xs.map f) = [] := by
  induction xs with
  | nil => rfl
  | cons x xs ih => rw [List.map_cons, h, ih]

theorem definitions_encoderStatements (types : List SourceType) : Stmt.definitions (encoderStatements types) = [] :=
  definitions_map (fun _ _ => rfl) _

theorem definitions_decoderStatements (revert : String) (types : List SourceType) :
    Stmt.definitions (decoderStatements revert types) = [] :=
  definitions_map (fun _ _ => rfl) _

section

variable {types : List SourceType} {F : Functions} {plan : HelperPlan}

/-- The functions of a plan contain the cleanup function of every type that the plan uses. -/
theorem hasCleanups {settings : Settings} (hshared : ∀ d ∈ plan.uses, d.IsShared settings)
    (hfresh : ∀ d ∈ plan.uses, d.name ≠ plan.main.name) (huses : ∀ t ∈ types, t.cleanupDefinition ∈ plan.uses)
    (htypes : ∀ t ∈ types, t.isSingleSlot ∧ t.hasProperWidth) :
    HasCleanups ([] :: plan.definitions :: F) types := by
  intro t ht
  obtain ⟨hslot, hwidth⟩ := htypes t ht
  exact ⟨hslot, hwidth, _, HelperPlan.find?_use hshared hfresh (huses t ht) F⟩

/-- An encoder uses shared helpers only, whose code is the same for everybody. -/
theorem isShared_of_mem_uses_encoder (htypes : ∀ t ∈ types, t.isSingleSlot) (settings : Settings) :
    ∀ d ∈ (encoderPlan types).uses, d.IsShared settings := by
  have hplan : HelperRequest.plan? settings (.encoder types) = some (encoderPlan types) :=
    if_pos (List.all_eq_true.2 htypes)
  exact fun d hd => HelperRequest.isShared_of_mem_uses hplan hd

/-- A decoder uses shared helpers only, the one that reverts on short data included. -/
theorem isShared_of_mem_uses_decoder (htypes : ∀ t ∈ types, t.isSingleSlot) (settings : Settings) :
    ∀ d ∈ (decoderPlan settings.revertStrings types).uses, d.IsShared settings := by
  have hplan : HelperRequest.plan? settings (.decoder types) = some (decoderPlan settings.revertStrings types) :=
    if_pos (List.all_eq_true.2 htypes)
  exact fun d hd => HelperRequest.isShared_of_mem_uses hplan hd

variable {other : String → List Nat → World → Option (List Nat) × World} {unvalued : Literal → Nat}
  {values : List Word} {headStart dataEnd : Word} {m : Machine World}

theorem evaluates_headSize {call : String → List Nat → Exec World (List Nat)} {V : Locals}
    (hfits : wordBytes * types.length < 2 ^ wordBits) :
    Evaluates (interpretation other unvalued) call V m (.decimal (headSize types))
      (BitVec.ofNat wordBits (wordBytes * types.length)) := by
  rw [headSize_eq]
  exact evaluates_decimal hfits

theorem tail_not_mem_parameters (types : List SourceType) : "tail" ∉ (encoderDefinition types).parameters := by
  rw [encoderDefinition_parameters, List.mem_cons, not_or]
  exact ⟨by decide, not_mem_valueNames (by decide) types⟩

/-- The variables of an encoder when its body starts. -/
theorem holds_locals_encoder (hlength : values.length = types.length) :
    ((encoderDefinition types).locals (headStart.toNat :: values.map BitVec.toNat)).Holds
      ("headStart" :: valueNames types) (headStart.toNat :: values.map BitVec.toNat) := by
  have hnodup : (encoderDefinition types).parameters.Nodup :=
    List.nodup_cons.2 ⟨not_mem_valueNames (by decide) types, nodup_valueNames types⟩
  refine Definition.holds_locals hnodup (fun x hx hreturn => ?_) (by simp [length_valueNames, hlength])
  rw [encoderDefinition_returns, List.mem_singleton] at hreturn
  exact tail_not_mem_parameters types (hreturn ▸ hx)

/-- The encoder's first statement sets its result to the end of the head. -/
theorem exec_tailStmt {calls : Calls World} {fuel : Nat} {V : Locals} (hhead : V "headStart" = some headStart.toNat)
    (htail : (V "tail").isSome) (hfits : headStart.toNat + wordBytes * types.length < 2 ^ wordBits) :
    exec (interpretation other unvalued) calls fuel F V (tailStmt types) m =
      (.ok (.normal, V.set "tail" (headStart.toNat + wordBytes * types.length)), m) := by
  have hsize : wordBytes * types.length < 2 ^ wordBits := by omega
  have hend : Evaluates (interpretation other unvalued) (calls F) V m
      (.apply "add" [.var "headStart", .decimal (headSize types)]) _ :=
    (evaluates_var hhead).add (evaluates_headSize hsize)
  rw [Evaluates, toNat_position hfits] at hend
  exact exec_assign hend htail

/-- A call of an encoder stores the values, cleaned, side by side, and gives the end. -/
theorem callFunction_encoder (htypes : ∀ t ∈ types, t.isSingleSlot ∧ t.hasProperWidth)
    (hlength : values.length = types.length) (hfits : headStart.toNat + wordBytes * types.length < 2 ^ wordBits)
    (fuel : Nat) :
    callFunction (interpretation other unvalued) (fuel + 2) ((encoderPlan types).definitions :: F)
        (encoderPlan types).main.name (headStart.toNat :: values.map BitVec.toNat) m =
      (.ok [headStart.toNat + wordBytes * types.length], { m with world := { m.world with
        memory := storeAll m.world.memory headStart.toNat (List.zipWith SourceType.clean types values) } }) := by
  let d := encoderDefinition types
  let V := d.locals (headStart.toNat :: values.map BitVec.toNat)
  let tail := headStart.toNat + wordBytes * types.length
  have hsome : (V "tail").isSome := Definition.isSome_locals_of_mem_returns List.mem_cons_self
  have hV : V.Holds ("headStart" :: valueNames types) (headStart.toNat :: values.map BitVec.toNat) :=
    holds_locals_encoder hlength
  have hV' : (V.set "tail" tail).Holds ("headStart" :: valueNames types) (headStart.toNat :: values.map BitVec.toNat) :=
    hV.congr fun x hx => Locals.set_of_ne V tail fun heq => tail_not_mem_parameters types (heq ▸ hx)
  cases hV with | cons hhead _ =>
  cases hV' with | cons hhead' hvalues =>
  have hcleanups : HasCleanups ([] :: (encoderPlan types).definitions :: F) types :=
    hasCleanups (isShared_of_mem_uses_encoder (fun t ht => (htypes t ht).1) {}) name_ne_of_mem_uses_encoder
      (fun t ht => List.mem_map_of_mem ht) htypes
  have hbody : execAll (interpretation other unvalued) (callFunction (interpretation other unvalued) (fuel + 1))
      (fuel + 1) (Stmt.definitions (encoderStatements types) :: (encoderPlan types).definitions :: F) V
      (encoderStatements types) m = (.ok (.normal, V.set "tail" tail), { m with world := { m.world with
          memory := storeAll m.world.memory headStart.toNat (List.zipWith SourceType.clean types values) } }) := by
    have hroom : headStart.toNat + (0 + wordBytes * types.length) < 2 ^ wordBits := by rwa [Nat.zero_add]
    rw [definitions_encoderStatements]
    refine (execAll_cons (exec_tailStmt hhead hsome hfits)).trans ?_
    exact execAll_storeStmts hcleanups hvalues hlength hhead' hroom
  have hresult : d.returns.filterMap ((V.set "tail" tail).restrict V) = [tail] := by
    have hvalue : (V.set "tail" tail).restrict V "tail" = some tail := by
      rw [Locals.restrict_of_isSome hsome, Locals.set_same]
    exact List.filterMap_cons_some hvalue
  have hparameters : d.parameters.length = (headStart.toNat :: values.map BitVec.toNat).length := by
    simp [d, length_valueNames, hlength]
  rw [callFunction_of_ok (HelperPlan.find?_main _ F) hparameters (encoderDefinition_body types) hbody]
  exact Prod.ext (congrArg Except.ok hresult) rfl

/-- What a decoder checks first. -/
theorem evaluates_tooShort {call : String → List Nat → Exec World (List Nat)} {V : Locals}
    (hhead : V "headStart" = some headStart.toNat) (hend : V "dataEnd" = some dataEnd.toNat)
    (hsize : wordBytes * types.length < 2 ^ wordBits) :
    Evaluates (interpretation other unvalued) call V m
      (.apply "slt" [.apply "sub" [.var "dataEnd", .var "headStart"], .decimal (headSize types)])
      (if (dataEnd - headStart).toInt < (BitVec.ofNat wordBits (wordBytes * types.length)).toInt then 1 else 0) := by
  have hlength : Evaluates (interpretation other unvalued) call V m (.apply "sub" [.var "dataEnd", .var "headStart"])
      (dataEnd - headStart) := (evaluates_var hend).compute_two (i := .sub) (evaluates_var hhead) rfl
  exact hlength.compute_two (i := .slt) (evaluates_headSize hsize) rfl

section

variable {calls : Calls World} {fuel : Nat} {V : Locals} {revert : String}
  (hhead : V "headStart" = some headStart.toNat) (hend : V "dataEnd" = some dataEnd.toNat)
  (hsize : wordBytes * types.length < 2 ^ wordBits)

include hhead hend hsize

/-- The decoder's check reverts when the data is shorter than the head, compared as signed words. -/
theorem exec_check_of_lt
    (hshort : (dataEnd - headStart).toInt < (BitVec.ofNat wordBits (wordBytes * types.length)).toInt)
    (hname : (interpretation other unvalued).dialect.builtin? revert = none)
    (hcall : ∀ m, Reverts (calls ([] :: F) revert [] m)) :
    Reverts (exec (interpretation other unvalued) calls fuel F V (checkStmt revert types) m) := by
  have hcondition : Evaluates (interpretation other unvalued) (calls F) V m _ _ := evaluates_tooShort hhead hend hsize
  rw [if_pos hshort] at hcondition
  obtain ⟨m', hm', hreverted⟩ := hcall (decision _ 1 m)
  have hperform : exec (interpretation other unvalued) calls fuel ([] :: F) V (.perform revert []) (decision _ 1 m) =
      (.error .halted, m') :=
    exec_perform_of_error ((eval_call evalAll_nil hname).trans hm')
  exact ⟨m', exec_conditional_of_ne_zero hcondition (by decide) (execAll_cons_of_error hperform), hreverted⟩

/-- The decoder's check does nothing when the data is long enough. -/
theorem exec_check_of_le
    (hlong : ¬ (dataEnd - headStart).toInt < (BitVec.ofNat wordBits (wordBytes * types.length)).toInt) :
    ∃ m', exec (interpretation other unvalued) calls fuel F V (checkStmt revert types) m = (.ok (.normal, V), m') ∧
      m'.world = m.world := by
  have hcondition : Evaluates (interpretation other unvalued) (calls F) V m _ _ := evaluates_tooShort hhead hend hsize
  rw [if_neg hlong] at hcondition
  exact ⟨_, exec_conditional_of_zero hcondition, rfl⟩

end

/-- The variables of a decoder when its body starts. -/
theorem holds_locals_decoder (revert : String) :
    ((decoderDefinition revert types).locals [headStart.toNat, dataEnd.toNat]).Holds ["headStart", "dataEnd"]
      [headStart.toNat, dataEnd.toNat] := by
  have hnodup : ["headStart", "dataEnd"].Nodup := by decide
  refine Definition.holds_locals hnodup (fun x hx => ?_) rfl
  rcases List.mem_cons.1 hx with rfl | hx
  · exact not_mem_valueNames (by decide) types
  · obtain rfl := List.mem_singleton.1 hx
    exact not_mem_valueNames (by decide) types

section

variable {fuel : Nat} {F' : Functions} {revert name : String}
  (hfind : F.find? name = some (decoderDefinition revert types, F'))

include hfind

/-- A decoder reverts on data that is too short. -/
theorem callFunction_of_lt {reverts : RevertStrings} {message : String} {F'' : Functions}
    (hrevert : revert = (Helper.revertDefinition reverts message).name)
    (huse : F'.find? revert = some (Helper.revertDefinition reverts message, F''))
    (hsize : wordBytes * types.length < 2 ^ wordBits)
    (hshort : (dataEnd - headStart).toInt < (BitVec.ofNat wordBits (wordBytes * types.length)).toInt) :
    Reverts (callFunction (interpretation other unvalued) (fuel + 2) F name [headStart.toNat, dataEnd.toNat] m) := by
  have hname : (interpretation other unvalued).dialect.builtin? revert = none := by
    rw [hrevert]
    exact builtin?_append (by decide) _
  have hcall : ∀ m, Reverts (callFunction (interpretation other unvalued) (fuel + 1) ([] :: [] :: F') revert [] m) := by
    rw [hrevert] at huse ⊢
    have huse' : Functions.find? (Helper.revertDefinition reverts message).name ([] :: [] :: F') =
        some (Helper.revertDefinition reverts message, F'') := by
      rw [Functions.find?_nil_cons, Functions.find?_nil_cons, huse]
    exact callFunction_revert huse'
  cases holds_locals_decoder revert with | cons hhead hrest =>
  cases hrest with | cons hend _ =>
  obtain ⟨m', hm', hreverted⟩ := exec_check_of_lt hhead hend hsize hshort hname hcall
  have hbody : execAll (interpretation other unvalued) (callFunction (interpretation other unvalued) (fuel + 1))
      (fuel + 1) (Stmt.definitions (decoderStatements revert types) :: F')
      ((decoderDefinition revert types).locals [headStart.toNat, dataEnd.toNat]) (decoderStatements revert types) m =
        (.error .halted, m') := by
    rw [definitions_decoderStatements]
    exact execAll_cons_of_error hm'
  exact ⟨m', callFunction_of_error hfind rfl (decoderDefinition_body revert types) hbody, hreverted⟩

/-- A decoder gives the cleaned words of the head on data that is long enough, and leaves the world as it was. -/
theorem callFunction_of_le (hfits : headStart.toNat + wordBytes * types.length < 2 ^ wordBits)
    (hlong : ¬ (dataEnd - headStart).toInt < (BitVec.ofNat wordBits (wordBytes * types.length)).toInt)
    (hcleanups : HasCleanups ([] :: F') types) :
    ∃ m', callFunction (interpretation other unvalued) (fuel + 2) F name [headStart.toNat, dataEnd.toNat] m =
      (.ok ((List.zipWith SourceType.clean types
        (wordsAt m.world.callDataByte headStart.toNat types.length)).map BitVec.toNat), m') ∧ m'.world = m.world := by
  let d := decoderDefinition revert types
  let V := d.locals [headStart.toNat, dataEnd.toNat]
  let results := (List.zipWith SourceType.clean types
    (wordsAt m.world.callDataByte headStart.toNat types.length)).map BitVec.toNat
  have hsize : wordBytes * types.length < 2 ^ wordBits := by omega
  have hsome : ∀ x ∈ valueNames types, (V x).isSome := fun x hx => Definition.isSome_locals_of_mem_returns hx
  have hlength : (valueNames types).length = results.length := by
    simp [results, length_valueNames, length_wordsAt]
  cases holds_locals_decoder revert with | cons hhead hrest =>
  cases hrest with | cons hend _ =>
  obtain ⟨m', hm', hworld⟩ := exec_check_of_le hhead hend hsize hlong
  have hbody : execAll (interpretation other unvalued) (callFunction (interpretation other unvalued) (fuel + 1))
      (fuel + 1) (Stmt.definitions (decoderStatements revert types) :: F') V (decoderStatements revert types) m =
        (.ok (.normal, V.setAll ((valueNames types).zip results)), m') := by
    rw [definitions_decoderStatements]
    refine (execAll_cons hm').trans ?_
    have hroom : headStart.toNat + (0 + wordBytes * types.length) < 2 ^ wordBits := by rwa [Nat.zero_add]
    have hnotHead := not_mem_valueNames (show ¬ "value".toList <+: "headStart".toList by decide) types
    refine (execAll_loadStmts hcleanups hsome (length_valueNames types) hnotHead hhead hroom).trans ?_
    rw [hworld, Nat.add_zero]
  have hvalues : ((V.setAll ((valueNames types).zip results)).restrict V).Holds (valueNames types) results :=
    (Locals.holds_setAll_zip (nodup_valueNames types) hlength).congr fun x hx =>
      Locals.restrict_of_isSome (hsome x hx)
  refine ⟨m', ?_, hworld⟩
  rw [callFunction_of_ok hfind rfl (decoderDefinition_body revert types) hbody]
  exact Prod.ext (congrArg Except.ok hvalues.filterMap) rfl

end

section

variable {settings : Settings} {fuel : Nat}

/-- A call of a decoder on too little data is ended by a revert. -/
theorem callFunction_decoder_of_lt (htypes : ∀ t ∈ types, t.isSingleSlot)
    (hsize : wordBytes * types.length < 2 ^ wordBits)
    (hshort : (dataEnd - headStart).toInt < (BitVec.ofNat wordBits (wordBytes * types.length)).toInt) :
    Reverts (callFunction (interpretation other unvalued) (fuel + 2)
      ((decoderPlan settings.revertStrings types).definitions :: F) (decoderPlan settings.revertStrings types).main.name
      [headStart.toNat, dataEnd.toNat] m) := by
  have hmem : tooShortDefinition settings.revertStrings ∈ (decoderPlan settings.revertStrings types).uses :=
    List.mem_cons_self
  have huse := HelperPlan.find?_use (isShared_of_mem_uses_decoder htypes settings) name_ne_of_mem_uses_decoder hmem F
  have hfind := HelperPlan.find?_main (decoderPlan settings.revertStrings types) F
  exact callFunction_of_lt hfind rfl huse hsize hshort

/-- A call of a decoder on enough data gives the words that stand side by side in it, cleaned. -/
theorem callFunction_decoder_of_le (htypes : ∀ t ∈ types, t.isSingleSlot ∧ t.hasProperWidth)
    (hfits : headStart.toNat + wordBytes * types.length < 2 ^ wordBits)
    (hlong : ¬ (dataEnd - headStart).toInt < (BitVec.ofNat wordBits (wordBytes * types.length)).toInt) :
    ∃ m', callFunction (interpretation other unvalued) (fuel + 2)
        ((decoderPlan settings.revertStrings types).definitions :: F)
        (decoderPlan settings.revertStrings types).main.name [headStart.toNat, dataEnd.toNat] m =
      (.ok ((List.zipWith SourceType.clean types
        (wordsAt m.world.callDataByte headStart.toNat types.length)).map BitVec.toNat), m') ∧ m'.world = m.world := by
  refine callFunction_of_le (HelperPlan.find?_main _ F) hfits hlong ?_
  exact hasCleanups (isShared_of_mem_uses_decoder (fun t ht => (htypes t ht).1) settings) name_ne_of_mem_uses_decoder
    (fun t ht => List.mem_cons_of_mem _ (List.mem_map_of_mem ht)) htypes

/-- A call of a decoder is ended by a revert if there is too little data, and only then. -/
theorem reverts_decoder_iff (htypes : ∀ t ∈ types, t.isSingleSlot ∧ t.hasProperWidth)
    (hfits : headStart.toNat + wordBytes * types.length < 2 ^ wordBits) :
    Reverts (callFunction (interpretation other unvalued) (fuel + 2)
      ((decoderPlan settings.revertStrings types).definitions :: F) (decoderPlan settings.revertStrings types).main.name
      [headStart.toNat, dataEnd.toNat] m) ↔
      (dataEnd - headStart).toInt < (BitVec.ofNat wordBits (wordBytes * types.length)).toInt := by
  have hsize : wordBytes * types.length < 2 ^ wordBits := by omega
  refine ⟨fun hreverts => ?_, callFunction_decoder_of_lt (fun t ht => (htypes t ht).1) hsize⟩
  by_contra hlong
  obtain ⟨m', hm', -⟩ := hreverts
  obtain ⟨m'', hm'', -⟩ := callFunction_decoder_of_le htypes hfits hlong
  cases hm'.symm.trans hm''

end

/-- Cleaning words twice is cleaning them once. -/
theorem map_toNat_zipWith_clean (types : List SourceType) (values : List Word) :
    (List.zipWith SourceType.clean types (List.zipWith SourceType.clean types values)).map BitVec.toNat =
      List.zipWith (fun t word => (t.clean word).toNat) types values := by
  induction types generalizing values with
  | nil => rfl
  | cons t types ih =>
    cases values with
    | nil => rfl
    | cons word values =>
      rw [List.zipWith_cons_cons, List.zipWith_cons_cons, List.map_cons, ih, SourceType.clean_clean,
        List.zipWith_cons_cons]

/-- The size of the head is no negative number, if memory could hold the types. -/
theorem toInt_size {n : Nat} (h : n < 2 ^ (wordBits - 1)) : (BitVec.ofNat wordBits n).toInt = n := by
  have hword : 2 ^ wordBits = 2 * 2 ^ (wordBits - 1) := rfl
  have hn : (BitVec.ofNat wordBits n).toNat = n := by
    rw [BitVec.toNat_ofNat, Nat.mod_eq_of_lt (by omega)]
  rw [BitVec.toInt_eq_toNat_of_lt (by omega), hn]

end

/-- The code of `AbiTuple.decoder` undoes that of `AbiTuple.encoder`. For types of one slot, the functions that are
made in an empty collector do this: a call of the encoder stores the values, cleaned, side by side from the start of
the head on, changes nothing else, and gives the end of the head. A call of the decoder on call data with the same
bytes at the same place is ended by a revert if the data is shorter than the head, as signed words are compared, and
only then. Else it gives the values, cleaned, and cleaning them again changes nothing. -/
theorem callFunction_decoder_encoder (settings : Settings) {types : List SourceType} {values : List Word}
    {headStart : Word}
    (htypes : ∀ t ∈ types, t.isSingleSlot ∧ t.hasProperWidth) (hlength : values.length = types.length)
    (hfits : headStart.toNat + 32 * types.length < 2 ^ wordBits) :
    ∃ encoderName encoderCollector encoderFunctions decoderName decoderCollector decoderFunctions,
      encoder types {} = (.ok encoderName, encoderCollector) ∧ encoderCollector.Holds encoderFunctions ∧
      decoder settings.revertStrings types {} = (.ok decoderName, decoderCollector) ∧
      decoderCollector.Holds decoderFunctions ∧
      (∀ other unvalued fuel F (m : Machine World), ∃ memory,
        callFunction (interpretation other unvalued) (fuel + 2) (encoderFunctions :: F) encoderName
            (headStart.toNat :: values.map BitVec.toNat) m =
          (.ok [headStart.toNat + 32 * types.length], { m with world := { m.world with memory } }) ∧
        (∀ i (hi : i < types.length), wordAt memory (headStart.toNat + 32 * i) = types[i].clean values[i]) ∧
        (∀ k, k < headStart.toNat ∨ headStart.toNat + 32 * types.length ≤ k → memory k = m.world.memory k) ∧
        ∀ (dataEnd : Word) (m' : Machine World),
          (∀ k, headStart.toNat ≤ k → k < headStart.toNat + 32 * types.length → m'.world.callDataByte k = memory k) →
          ∃ run, callFunction (interpretation other unvalued) (fuel + 2) (decoderFunctions :: F) decoderName
              [headStart.toNat, dataEnd.toNat] m' = run ∧
            (Reverts run ↔ (dataEnd - headStart).toInt < (BitVec.ofNat wordBits (32 * types.length)).toInt) ∧
            (¬ Reverts run → run.1 = .ok (List.zipWith (fun t word => (t.clean word).toNat) types values) ∧
              run.2.world = m'.world)) ∧
      (32 * types.length < 2 ^ (wordBits - 1) → (BitVec.ofNat wordBits (32 * types.length)).toInt = 32 * types.length) ∧
      ∀ t ∈ types, ∀ word, t.clean (t.clean word) = t.clean word := by
  have hslots : ∀ t ∈ types, t.isSingleSlot := fun t ht => (htypes t ht).1
  refine ⟨_, _, (encoderPlan types).definitions, _, _, (decoderPlan settings.revertStrings types).definitions,
    encoder_apply hslots {}, Collector.holds_provide_empty _, decoder_apply settings.revertStrings hslots {},
    Collector.holds_provide_empty _, fun other unvalued fuel F m => ?_, toInt_size, fun t _ => t.clean_clean⟩
  let words := List.zipWith SourceType.clean types values
  have hwords : words.length = types.length := by simp [words, hlength]
  refine ⟨storeAll m.world.memory headStart.toNat words, callFunction_encoder htypes hlength hfits fuel,
    fun i hi => ?_, fun k hk => storeAll_of_outside (hwords ▸ hk), fun dataEnd m' hdata => ⟨_, rfl, ?_⟩⟩
  · have hi' : i < words.length := by omega
    exact (wordAt_storeAll hi').trans List.getElem_zipWith
  · have hsize : wordBytes * types.length < 2 ^ wordBits := Nat.lt_of_le_of_lt (Nat.le_add_left _ _) hfits
    have hloaded : wordsAt m'.world.callDataByte headStart.toNat types.length = words := by
      rw [wordsAt_congr hdata, ← hwords, wordsAt_storeAll]
    refine ⟨reverts_decoder_iff htypes hfits, fun hnot => ?_⟩
    obtain ⟨m'', hm'', hworld⟩ := callFunction_decoder_of_le htypes hfits fun hshort =>
      hnot (callFunction_decoder_of_lt hslots hsize hshort)
    rw [hm'', hloaded, map_toNat_zipWith_clean]
    exact ⟨rfl, hworld⟩

/-- A byte and a truth value, both given with bits that they do not have. -/
theorem callFunction_decoder_encoder_uint8 :
    ∃ encoderName encoderCollector encoderFunctions,
      encoder [.uint 8, .bool] {} = (.ok encoderName, encoderCollector) ∧
      encoderCollector.Holds encoderFunctions ∧
      ∀ m : Machine World, ∃ memory,
        callFunction (interpretation (fun _ _ s => (none, s)) fun _ => 0) 2 [encoderFunctions] encoderName
            [128, 0x1ff, 7] m = (.ok [192], { m with world := { m.world with memory } }) ∧
          wordAt memory 128 = 0xff ∧ wordAt memory 160 = 1 := by
  obtain ⟨name, c, functions, _, _, _, hencoder, hholds, -, -, hrun, -⟩ :=
    callFunction_decoder_encoder {} (show ∀ t ∈ [SourceType.uint 8, .bool], t.isSingleSlot ∧ t.hasProperWidth by decide)
      (show [(0x1ff : Word), 7].length = 2 by decide) (show (128 : Word).toNat + 32 * 2 < 2 ^ wordBits by decide)
  refine ⟨name, c, functions, hencoder, hholds, fun m => ?_⟩
  obtain ⟨memory, hcall, hwords, -⟩ := hrun (fun _ _ s => (none, s)) (fun _ => 0) 0 [] m
  have hbyte : (SourceType.uint 8).clean 0x1ff = 0xff := by decide
  have htruth : SourceType.bool.clean 7 = 1 := by decide
  exact ⟨memory, hcall, (hwords 0 (by decide)).trans hbyte, (hwords 1 (by decide)).trans htruth⟩

end AbiTuple

end YulBackend
