import YulBackend.Codegen.AbiTuple
import YulBackend.Codegen.WordArithmetic
import YulBackend.Proofs.Semantics.Execution
import YulBackend.Proofs.SortedMap.Lookup

namespace YulBackend

/-- What starts differently from a word does not start with that word. -/
theorem not_prefix_append {p q : String} (h : ¬ p.toList <+: q.toList ∧ ¬ q.toList <+: p.toList) (rest : String) :
    ¬ p.toList <+: (q ++ rest).toList := by
  rw [String.toList_append]
  exact fun hprefix => (List.prefix_or_prefix_of_prefix hprefix (List.prefix_append _ _)).elim h.1 h.2

/-- Names that start differently are different. -/
theorem append_ne_append {p q : String} (h : ¬ p.toList <+: q.toList ∧ ¬ q.toList <+: p.toList) (a b : String) :
    p ++ a ≠ q ++ b := by
  intro heq
  refine not_prefix_append h b ?_
  rw [← heq, String.toList_append]
  exact List.prefix_append _ _

attribute [ext] Definition

/-- The statement that defines a function. -/
def Definition.function (d : Definition) : Stmt :=
  .function {} d.name (d.parameters.map ({ name := · })) (d.returns.map ({ name := · })) d.body

/-- The text of a function, as a collector keeps it. -/
def Definition.code (d : Definition) : String := d.function.code

/-- A function that is asked for, and the functions that are asked for while it is made. -/
structure HelperPlan where
  main : Definition
  uses : List Definition := []

/-- All functions of a plan. -/
def HelperPlan.definitions (plan : HelperPlan) : List Definition := plan.main :: plan.uses

namespace Collector

/-- Adds a finished function, if its name is not taken. -/
def add (c : Collector) (d : Definition) : Collector :=
  if c.contains d.name then c else ⟨c.functions.insert d.name (some d.code)⟩

/-- Adds a function and those that it calls, if the name of the first is not taken. -/
def provide (c : Collector) (plan : HelperPlan) : Collector :=
  if c.contains plan.main.name then c else plan.definitions.foldl add c

theorem contains_eq (c : Collector) (name : String) : c.contains name = (c.functions.get? name).isSome := rfl

theorem ext_get? {c c' : Collector} (h : ∀ name, c.functions.get? name = c'.functions.get? name) : c = c' :=
  congrArg mk (SortedMap.ext_get? h)

/-- Adding a definition fills the entry under its name, if that is free, and no other. -/
theorem get?_add (c : Collector) (d : Definition) (name : String) :
    (c.add d).functions.get? name =
      (c.functions.get? name).or (if d.name = name then some (some d.code) else none) := by
  rw [add, contains_eq]
  by_cases hname : name = d.name
  · subst hname
    cases hget : c.functions.get? d.name <;> simp [hget]
  · have hname' : d.name ≠ name := fun h => hname h.symm
    rw [if_neg hname', Option.or_none]
    split <;> simp [hname]

/-- Adding definitions fills each free entry with the first definition of its name. -/
theorem get?_foldl_add (ds : List Definition) (c : Collector) (name : String) :
    (ds.foldl add c).functions.get? name =
      (c.functions.get? name).or ((ds.find? (·.name = name)).map fun d => some d.code) := by
  induction ds generalizing c with
  | nil => simp
  | cons d ds ih =>
    rw [List.foldl_cons, ih, get?_add, Option.or_assoc, List.find?_cons]
    by_cases hname : d.name = name <;> simp [hname]

/-- Providing a plan does nothing if its function is there, and else adds the definitions in order. -/
theorem get?_provide (c : Collector) (plan : HelperPlan) (name : String) :
    (c.provide plan).functions.get? name =
      if c.contains plan.main.name then c.functions.get? name
      else (c.functions.get? name).or
        ((plan.definitions.find? (·.name = name)).map fun d => some d.code) := by
  rw [provide]
  split
  · rfl
  · exact get?_foldl_add plan.definitions c name

theorem provide_eq_add (c : Collector) (d : Definition) : c.provide { main := d } = c.add d := by
  rw [provide]
  split
  next h => rw [add, if_pos h]
  next => rfl

/-- A function that is asked for in an empty collector is there with its own code. -/
theorem code?_provide_empty (plan : HelperPlan) :
    (({} : Collector).provide plan).code? plan.main.name = some plan.main.code := by
  have hempty : ({} : Collector).functions.get? plan.main.name = none := rfl
  rw [code?, get?_provide, contains_eq, hempty]
  simp [HelperPlan.definitions]

end Collector

namespace Helper

variable {α β : Type}

/-- A helper goes on with the collector its first part leaves. -/
theorem bind_apply {x : Helper α} {k : α → Helper β} {c c' : Collector} {a : α} (h : x c = (.ok a, c')) :
    (x >>= k) c = k a c' := by
  have hbind : (x >>= k) c = ExceptT.bindCont k (x c).1 (x c).2 := rfl
  rw [hbind, h]
  rfl

/-- Asks that differ in their function make their functions one after the other. -/
theorem mapM_apply {f : α → Helper β} {g : α → β} {d : α → Definition} {xs : List α}
    (h : ∀ x ∈ xs, ∀ c, f x c = (.ok (g x), c.add (d x))) (c : Collector) :
    xs.mapM f c = (.ok (xs.map g), (xs.map d).foldl Collector.add c) := by
  induction xs generalizing c with
  | nil => rfl
  | cons x xs ih =>
    rw [List.forall_mem_cons] at h
    rw [List.mapM_cons, bind_apply (h.1 c), bind_apply (ih h.2 _)]
    rfl

/-- Making a function under a name that is not taken. -/
theorem create_of_run {name code : String} {creator : Helper String} {c made c' : Collector}
    (hcontains : ¬ c.contains name) (hrun : creator ⟨c.functions.insert name none⟩ = (.ok code, made))
    (hdefine : made.define name code = .ok c') : Collecting.create name creator c = (.ok name, c') := by
  have hbind : ∀ {α β : Type} (a : α) (k : α → Id β), (bind (a : Id α) k : Id β) = k a := fun _ _ => rfl
  rw [Collecting.create, Collector.reserve?, if_neg hcontains]
  dsimp only
  rw [hrun, hbind]
  dsimp only
  rw [hdefine]
  rfl

/-- What a request to make a function does, if making it leaves its own name alone. -/
theorem create_apply (plan : HelperPlan) {creator : Helper String} {c : Collector}
    (hcreator : ∀ c : Collector, creator c = (.ok plan.main.code, plan.uses.foldl Collector.add c))
    (hfresh : ∀ d ∈ plan.uses, d.name ≠ plan.main.name) :
    Collecting.create plan.main.name creator c = (.ok plan.main.name, c.provide plan) := by
  by_cases hcontains : c.contains plan.main.name
  · rw [Collecting.create, Collector.reserve?, if_pos hcontains, Collector.provide, if_pos hcontains]
    rfl
  · have hnone : c.functions.get? plan.main.name = none := by
      rwa [Collector.contains_eq, Option.not_isSome_iff_eq_none] at hcontains
    have hother : plan.uses.find? (·.name = plan.main.name) = none := by
      simpa using hfresh
    let made := plan.uses.foldl Collector.add ⟨c.functions.insert plan.main.name none⟩
    have hreserved : made.functions.get? plan.main.name = some none := by
      rw [Collector.get?_foldl_add, SortedMap.get?_insert, if_pos rfl, Option.some_or]
    have hdefine : made.define plan.main.name plan.main.code = .ok (c.provide plan) := by
      rw [Collector.define, hreserved]
      refine congrArg Except.ok (Collector.ext_get? fun name => ?_)
      rw [SortedMap.get?_insert, Collector.get?_foldl_add, SortedMap.get?_insert, Collector.get?_provide,
        if_neg hcontains, HelperPlan.definitions, List.find?_cons]
      by_cases hname : name = plan.main.name
      · simp [hname, hnone]
      · have hname' : plan.main.name ≠ name := fun h => hname h.symm
        simp [hname, hname']
    exact create_of_run hcontains (hcreator _) hdefine

theorem create_pure (d : Definition) (c : Collector) :
    (Collecting.create d.name (pure d.code) : Helper String) c = (.ok d.name, c.add d) := by
  rw [← Collector.provide_eq_add]
  exact create_apply { main := d } (fun _ => rfl) (by simp)

end Helper

/-- Types whose values are one word. -/
def SourceType.isSingleSlot (t : SourceType) : Bool := t.isValueType && t.sizeOnStack == 1

/-- The kinds of types whose values are one word. -/
theorem SourceType.isSingleSlot_cases {motive : (t : SourceType) → t.isSingleSlot → Prop}
    (bool : motive .bool rfl) (uint : ∀ bits, motive (.uint bits) rfl) (int : ∀ bits, motive (.int bits) rfl)
    (address : motive .address rfl) (fixedBytes : ∀ count, motive (.fixedBytes count) rfl)
    (enum : ∀ name, motive (.enum name) rfl) (contract : ∀ name, motive (.contract name) rfl)
    (function : ∀ parameters returns, motive (.function .internal parameters returns) rfl)
    (t : SourceType) (h : t.isSingleSlot) : motive t h := by
  cases t with
  | bool => exact bool
  | uint bits => exact uint bits
  | int bits => exact int bits
  | address => exact address
  | fixedBytes count => exact fixedBytes count
  | enum name => exact enum name
  | contract name => exact contract name
  | function visibility parameters returns =>
    cases visibility with
    | internal => exact function parameters returns
    | external => cases h
  | _ => cases h

/-- The cleaned parameter of a cleanup function. -/
def SourceType.cleaned (t : SourceType) : Expr := (t.cleanup (.var "value")).toOption.getD (.var "value")

/-- The function that cleans values of a type. -/
def SourceType.cleanupDefinition (t : SourceType) : Definition :=
  ⟨"cleanup_" ++ t.identifier, ["value"], ["cleaned"], .ofList [.assign ["cleaned"] t.cleaned]⟩

@[simp]
theorem SourceType.cleanupDefinition_name (t : SourceType) :
    t.cleanupDefinition.name = "cleanup_" ++ t.identifier := rfl

namespace Helper

def shiftRightDefinition (version : EvmVersion) (bits : Nat) : Definition :=
  ⟨"shift_right_" ++ toString bits ++ "_unsigned", ["value"], ["newValue"],
    .ofList [.assign ["newValue"] (shiftedRight version bits)]⟩

def revertDefinition (reverts : RevertStrings) (message : String) : Definition :=
  ⟨"revert_error_" ++ Hex.ofBytes (keccakOfText message), [], [], .ofList (revertStatements reverts message)⟩

end Helper

namespace AbiTuple

def storeStmt (entry : SourceType × String × Nat) : Stmt :=
  .perform "mstore" [.apply "add" [.var "headStart", .decimal entry.2.2],
    .apply entry.1.cleanupDefinition.name [.var entry.2.1]]

def loadStmt (entry : SourceType × String × Nat) : Stmt :=
  .assign [entry.2.1] (.apply entry.1.cleanupDefinition.name
    [.apply "calldataload" [.apply "add" [.var "headStart", .decimal entry.2.2]]])

/-- Ends the run by a call of this function if there is too little data. -/
def checkStmt (revert : String) (types : List SourceType) : Stmt :=
  .conditional {} (.apply "slt" [.apply "sub" [.var "dataEnd", .var "headStart"], .decimal (headSize types)])
    (.ofList [.perform revert []])

/-- Gives the end of the head. -/
def tailStmt (types : List SourceType) : Stmt :=
  .assign ["tail"] (.apply "add" [.var "headStart", .decimal (headSize types)])

/-- The names of the values of a tuple. -/
def valueNames (types : List SourceType) : List String := numberedNames "value" types.length

def encoderStatements (types : List SourceType) : List Stmt :=
  tailStmt types :: (layout 0 types (valueNames types)).map storeStmt

def decoderStatements (revert : String) (types : List SourceType) : List Stmt :=
  checkStmt revert types :: (layout 0 types (valueNames types)).map loadStmt

def encoderDefinition (types : List SourceType) : Definition :=
  ⟨"abi_encode_tuple_" ++ identifier types, "headStart" :: valueNames types, ["tail"],
    .ofList (encoderStatements types)⟩

/-- The decoder, which calls this function if there is too little data. -/
def decoderDefinition (revert : String) (types : List SourceType) : Definition :=
  ⟨"abi_decode_tuple_" ++ identifier types, ["headStart", "dataEnd"], valueNames types,
    .ofList (decoderStatements revert types)⟩

section

variable (revert : String) (types : List SourceType)

@[simp]
theorem encoderDefinition_name : (encoderDefinition types).name = "abi_encode_tuple_" ++ identifier types := rfl

@[simp]
theorem encoderDefinition_parameters : (encoderDefinition types).parameters = "headStart" :: valueNames types := rfl

@[simp]
theorem encoderDefinition_returns : (encoderDefinition types).returns = ["tail"] := rfl

@[simp]
theorem encoderDefinition_body : (encoderDefinition types).body = ⟨{}, encoderStatements types⟩ := rfl

@[simp]
theorem decoderDefinition_name :
    (decoderDefinition revert types).name = "abi_decode_tuple_" ++ identifier types := rfl

@[simp]
theorem decoderDefinition_parameters :
    (decoderDefinition revert types).parameters = ["headStart", "dataEnd"] := rfl

@[simp]
theorem decoderDefinition_returns : (decoderDefinition revert types).returns = valueNames types := rfl

@[simp]
theorem decoderDefinition_body :
    (decoderDefinition revert types).body = ⟨{}, decoderStatements revert types⟩ := rfl

end

def encoderPlan (types : List SourceType) : HelperPlan where
  main := encoderDefinition types
  uses := types.map SourceType.cleanupDefinition

/-- The function that ends the run when there is too little data. -/
def tooShortDefinition (reverts : RevertStrings) : Definition :=
  Helper.revertDefinition reverts "ABI decoding: tuple data too short"

def decoderPlan (reverts : RevertStrings) (types : List SourceType) : HelperPlan where
  main := decoderDefinition (tooShortDefinition reverts).name types
  uses := tooShortDefinition reverts :: types.map SourceType.cleanupDefinition

end AbiTuple

/-- The cleanup of a single-slot type is the expression for its cleaned value. -/
theorem SourceType.cleanup_of_isSingleSlot {t : SourceType} (h : t.isSingleSlot) :
    t.cleanup (.var "value") = .ok t.cleaned := by
  have hok : ∃ e, t.cleanup (.var "value") = .ok e := by
    induction t, h using isSingleSlot_cases with
    | bool => exact ⟨_, rfl⟩
    | address => exact ⟨_, rfl⟩
    | enum _ => exact ⟨_, rfl⟩
    | contract _ => exact ⟨_, rfl⟩
    | function _ _ => exact ⟨_, rfl⟩
    | uint bits =>
      simp only [cleanup, isValueType, valueBits?, if_true]
      split <;> exact ⟨_, rfl⟩
    | int bits =>
      rw [cleanup]
      split <;> exact ⟨_, rfl⟩
    | fixedBytes count =>
      rw [cleanup]
      split <;> exact ⟨_, rfl⟩
  obtain ⟨e, he⟩ := hok
  rw [cleaned, he]
  rfl

namespace Helper

theorem cleanup_apply {t : SourceType} (h : t.isSingleSlot) (c : Collector) :
    Helper.cleanup t c = (.ok t.cleanupDefinition.name, c.add t.cleanupDefinition) := by
  rw [Helper.cleanup, SourceType.cleanup_of_isSingleSlot h]
  exact create_pure t.cleanupDefinition c

theorem shiftRight_apply {version : EvmVersion} {bits : Nat} (h : bits < 256) (c : Collector) :
    shiftRight version bits c =
      (.ok (shiftRightDefinition version bits).name, c.add (shiftRightDefinition version bits)) := by
  rw [shiftRight, if_pos h]
  exact create_pure (shiftRightDefinition version bits) c

theorem revert_apply (reverts : RevertStrings) (message : String) (c : Collector) :
    revert reverts message c =
      (.ok (revertDefinition reverts message).name, c.add (revertDefinition reverts message)) :=
  create_pure (revertDefinition reverts message) c

end Helper

namespace AbiTuple

/-- Single-slot types pass the check. -/
theorem check_eq_ok {types : List SourceType} (h : ∀ t ∈ types, t.isSingleSlot) : check types = .ok () := by
  have hnone : types.find? (fun t => !t.isValueType || t.sizeOnStack != 1) = none := by
    rw [List.find?_eq_none]
    intro t ht
    have hslot := h t ht
    rw [SourceType.isSingleSlot, Bool.and_eq_true, beq_iff_eq] at hslot
    simp [hslot]
  rw [check, hnone]

/-- A layout goes through the types in order. -/
theorem map_fst_layout (types : List SourceType) (names : List String) (offset : Nat)
    (h : types.length ≤ names.length) : (layout offset types names).map (·.1) = types := by
  induction types generalizing names offset with
  | nil => cases names <;> rfl
  | cons type types ih =>
    cases names with
    | nil => cases h
    | cons name names => rw [layout, List.map_cons, ih names _ (Nat.le_of_succ_le_succ h)]

theorem length_valueNames (types : List SourceType) : (valueNames types).length = types.length := by
  simp [valueNames, numberedNames]

theorem map_fst_layout_valueNames (types : List SourceType) :
    (layout 0 types (valueNames types)).map (·.1) = types :=
  map_fst_layout types _ 0 (Nat.le_of_eq (length_valueNames types).symm)

theorem mem_types_of_mem_layout {types : List SourceType} {entry : SourceType × String × Nat}
    (h : entry ∈ layout 0 types (valueNames types)) : entry.1 ∈ types := by
  rw [← map_fst_layout_valueNames types]
  exact List.mem_map_of_mem h

/-- Making the statements of a tuple asks for the cleanup functions of its types, in order. -/
theorem mapM_layout_apply {types : List SourceType} (h : ∀ t ∈ types, t.isSingleSlot)
    {f : SourceType × String × Nat → Helper Stmt} {g : SourceType × String × Nat → Stmt}
    (hf : ∀ entry c, entry.1.isSingleSlot → f entry c = (.ok (g entry), c.add entry.1.cleanupDefinition))
    (c : Collector) :
    (layout 0 types (valueNames types)).mapM f c =
      (.ok ((layout 0 types (valueNames types)).map g),
        (types.map SourceType.cleanupDefinition).foldl Collector.add c) := by
  have hdefinitions : (layout 0 types (valueNames types)).map (fun entry => entry.1.cleanupDefinition) =
      types.map SourceType.cleanupDefinition := by
    rw [← Function.comp_def SourceType.cleanupDefinition, ← List.map_map, map_fst_layout_valueNames]
  rw [← hdefinitions]
  exact Helper.mapM_apply (fun entry hentry c => hf entry c (h _ (mem_types_of_mem_layout hentry))) c

/-- Statements that only depend on the names of the types are the same for types of the same names. -/
theorem map_layout_congr {f : SourceType × String × Nat → Stmt}
    (hf : ∀ t t' name offset, t.identifier = t'.identifier → f (t, name, offset) = f (t', name, offset))
    {types types' : List SourceType} (h : types.map SourceType.identifier = types'.map SourceType.identifier)
    (names : List String) (offset : Nat) : (layout offset types names).map f = (layout offset types' names).map f := by
  induction types generalizing types' names offset with
  | nil =>
    cases types' with
    | nil => rfl
    | cons => cases h
  | cons t types ih =>
    cases types' with
    | nil => cases h
    | cons t' types' =>
      obtain ⟨ht, htypes⟩ := List.cons.inj h
      cases names with
      | nil => rfl
      | cons name names => rw [layout, layout, List.map_cons, List.map_cons, hf t t' name offset ht, ih htypes]; rfl

/-- The head of single-slot types takes 32 bytes for each. -/
theorem headSize_eq (types : List SourceType) : headSize types = 32 * types.length := by
  induction types with
  | nil => rfl
  | cons t types ih => rw [headSize, ih, List.length_cons, Nat.mul_succ, Nat.add_comm]; rfl

section

variable {types types' : List SourceType} (h : types.map SourceType.identifier = types'.map SourceType.identifier)

include h

theorem identifier_congr : identifier types = identifier types' := congrArg ("_".intercalate ·) h

theorem length_congr : types.length = types'.length := by
  simpa using congrArg List.length h

theorem valueNames_congr : valueNames types = valueNames types' :=
  congrArg (numberedNames "value") (length_congr h)

theorem headSize_congr : headSize types = headSize types' := by
  rw [headSize_eq, headSize_eq, length_congr h]

/-- Tuples whose types have the same identifiers have the same encoder. -/
theorem encoderDefinition_congr : encoderDefinition types = encoderDefinition types' := by
  have hstores := map_layout_congr (f := storeStmt)
    (fun t t' name offset ht => by rw [storeStmt, storeStmt, SourceType.cleanupDefinition_name,
      SourceType.cleanupDefinition_name, ht]) h (valueNames types) 0
  ext1
  · rw [encoderDefinition_name, encoderDefinition_name, identifier_congr h]
  · rw [encoderDefinition_parameters, encoderDefinition_parameters, valueNames_congr h]
  · rfl
  · rw [encoderDefinition_body, encoderDefinition_body, encoderStatements, encoderStatements, tailStmt, tailStmt,
      headSize_congr h, hstores, valueNames_congr h]

/-- Tuples whose types have the same identifiers have the same decoder. -/
theorem decoderDefinition_congr (revert : String) :
    decoderDefinition revert types = decoderDefinition revert types' := by
  have hloads := map_layout_congr (f := loadStmt)
    (fun t t' name offset ht => by rw [loadStmt, loadStmt, SourceType.cleanupDefinition_name,
      SourceType.cleanupDefinition_name, ht]) h (valueNames types) 0
  ext1
  · rw [decoderDefinition_name, decoderDefinition_name, identifier_congr h]
  · rfl
  · rw [decoderDefinition_returns, decoderDefinition_returns, valueNames_congr h]
  · rw [decoderDefinition_body, decoderDefinition_body, decoderStatements, decoderStatements, checkStmt, checkStmt,
      headSize_congr h, hloads, valueNames_congr h]

end

theorem storeValue_apply (entry : SourceType × String × Nat) (c : Collector) (h : entry.1.isSingleSlot) :
    storeValue entry c = (.ok (storeStmt entry), c.add entry.1.cleanupDefinition) := by
  rw [storeValue, Helper.bind_apply (Helper.cleanup_apply h c)]
  rfl

theorem loadValue_apply (entry : SourceType × String × Nat) (c : Collector) (h : entry.1.isSingleSlot) :
    loadValue entry c = (.ok (loadStmt entry), c.add entry.1.cleanupDefinition) := by
  rw [loadValue, Helper.bind_apply (Helper.cleanup_apply h c)]
  rfl

/-- No function of an encoder has the encoder's name. -/
theorem name_ne_of_mem_uses_encoder {types : List SourceType} :
    ∀ d ∈ (encoderPlan types).uses, d.name ≠ (encoderPlan types).main.name := by
  intro d hd
  obtain ⟨t, -, rfl⟩ := List.mem_map.1 hd
  exact append_ne_append (by decide) _ _

/-- A decoder uses no function of its own name. -/
theorem name_ne_of_mem_uses_decoder {reverts : RevertStrings} {types : List SourceType} :
    ∀ d ∈ (decoderPlan reverts types).uses, d.name ≠ (decoderPlan reverts types).main.name := by
  intro d hd
  obtain rfl | hd := List.mem_cons.1 hd
  · exact append_ne_append (by decide) _ _
  · obtain ⟨t, -, rfl⟩ := List.mem_map.1 hd
    exact append_ne_append (by decide) _ _

/-- Asking for the encoder of single-slot types provides its plan and answers its name. -/
theorem encoder_apply {types : List SourceType} (h : ∀ t ∈ types, t.isSingleSlot) (c : Collector) :
    encoder types c = (.ok (encoderPlan types).main.name, c.provide (encoderPlan types)) := by
  rw [encoder, check_eq_ok h]
  refine Helper.create_apply (encoderPlan types) (fun c => ?_) name_ne_of_mem_uses_encoder
  exact Helper.bind_apply (mapM_layout_apply h storeValue_apply c)

/-- Asking for the decoder of single-slot types provides its plan and answers its name. -/
theorem decoder_apply (reverts : RevertStrings) {types : List SourceType} (h : ∀ t ∈ types, t.isSingleSlot)
    (c : Collector) :
    decoder reverts types c =
      (.ok (decoderPlan reverts types).main.name, c.provide (decoderPlan reverts types)) := by
  rw [decoder, check_eq_ok h]
  refine Helper.create_apply (decoderPlan reverts types) (fun c => ?_) name_ne_of_mem_uses_decoder
  refine (Helper.bind_apply (Helper.revert_apply reverts _ c)).trans ?_
  exact Helper.bind_apply (mapM_layout_apply h loadValue_apply _)

end AbiTuple

end YulBackend
