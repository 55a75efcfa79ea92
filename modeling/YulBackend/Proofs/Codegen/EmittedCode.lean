import YulBackend.Codegen.Dispatcher
import YulBackend.Proofs.Codegen.HelperTexts
import YulBackend.Proofs.Syntax.Calls

namespace YulBackend

/-- A call of an instruction with as many arguments as it takes. -/
def Instruction.shape (i : Instruction) : CallShape := (i.signature.name, i.signature.arguments)

theorem Instruction.name_injective {i j : Instruction} (h : i.signature.name = j.signature.name) : i = j := by
  have hi := Evm.instruction?_name i
  rw [h, Evm.instruction?_name] at hi
  exact (Option.some.inj hi).symm

theorem Builtin.name_ne_of_mem_objectAccess (i : Instruction) : ∀ b ∈ objectAccess, b.name ≠ i.signature.name := by
  cases i <;> decide

theorem Instruction.mem_all (i : Instruction) : i ∈ all := by
  cases i <;> decide

theorem Instruction.since_le_london (i : Instruction) : i.signature.since ≤ .london := by
  cases i <;> decide

namespace Dialect

variable {version : EvmVersion} {i : Instruction}

/-- The builtin of a target under an instruction's name is that instruction, and the target has it. -/
theorem eq_ofInstruction_of_mem {b : Builtin} (hb : b ∈ (evm version).builtins) (hname : b.name = i.signature.name) :
    b = .ofInstruction i ∧ i.signature.since ≤ version := by
  obtain hb | hb := List.mem_append.1 hb
  · obtain ⟨j, hj, rfl⟩ := List.mem_map.1 hb
    obtain rfl := Instruction.name_injective hname
    exact ⟨rfl, by simpa using (List.mem_filter.1 hj).2⟩
  · exact absurd hname (Builtin.name_ne_of_mem_objectAccess i b hb)

/-- The name of an instruction that the target has stands for the instruction. -/
theorem builtin?_name (h : i.signature.since ≤ version) :
    (evm version).builtin? i.signature.name = some (.ofInstruction i) := by
  have hmem : Builtin.ofInstruction i ∈ (evm version).builtins :=
    List.mem_append_left _ (List.mem_map_of_mem (List.mem_filter.2 ⟨i.mem_all, decide_eq_true h⟩))
  have hsome : ((evm version).builtin? i.signature.name).isSome := by
    rw [builtin?, List.find?_isSome]
    exact ⟨_, hmem, beq_self_eq_true _⟩
  obtain ⟨b, hb⟩ := Option.isSome_iff_exists.1 hsome
  have hname : b.name = i.signature.name := by simpa using List.find?_some hb
  rw [hb, (eq_ofInstruction_of_mem (List.mem_of_find?_eq_some hb) hname).1]

/-- A name stands for an instruction exactly if the target is no older than the instruction. -/
theorem instruction?_name_iff : (evm version).instruction? i.signature.name = some i ↔ i.signature.since ≤ version := by
  constructor
  · intro h
    obtain ⟨b, hb, -⟩ := Option.bind_eq_some_iff.1 h
    have hname : b.name = i.signature.name := by simpa using List.find?_some hb
    exact (eq_ofInstruction_of_mem (List.mem_of_find?_eq_some hb) hname).2
  · intro h
    rw [instruction?, builtin?_name h]
    rfl

end Dialect

section

variable (allowed : CallShape → Prop)

inductive Expr.Within (visible : List String) : Expr → Prop
  | number (text : String) : Within visible (.number text)
  | var {name : String} (h : name ∈ visible) : Within visible (.var name)
  | apply {callee : String} {arguments : List Expr} (h : allowed (callee, arguments.length))
    (harguments : ∀ e ∈ arguments, Within visible e) : Within visible (.apply callee arguments)

inductive Stmt.AllWithin : List String → List Stmt → Prop
  | nil {visible : List String} : AllWithin visible []
  | perform {visible : List String} {callee : String} {arguments : List Expr} {rest : List Stmt}
    (h : (Expr.apply callee arguments).Within allowed visible) (hrest : AllWithin visible rest) :
    AllWithin visible (.perform callee arguments :: rest)
  | assign {visible targets : List String} {value : Expr} {rest : List Stmt} (htargets : targets ⊆ visible)
    (h : value.Within allowed visible) (hrest : AllWithin visible rest) :
    AllWithin visible (.assign targets value :: rest)
  | declare {visible : List String} {name : String} {value : Expr} {rest : List Stmt} (hbare : ¬ value.isBareName)
    (h : value.Within allowed visible) (hrest : AllWithin (name :: visible) rest) :
    AllWithin visible (.let name value :: rest)
  | conditional {visible : List String} {condition : Expr} {body rest : List Stmt}
    (h : condition.Within allowed visible) (hbody : AllWithin visible body) (hrest : AllWithin visible rest) :
    AllWithin visible (.conditional {} condition (.ofList body) :: rest)
  | switch {visible : List String} {scrutinee : Expr} {cases : List Case} {rest : List Stmt}
    (h : scrutinee.Within allowed visible) (hcases : ∀ c ∈ cases, AllWithin visible c.body.statements)
    (hrest : AllWithin visible rest) : AllWithin visible (.switch {} scrutinee cases :: rest)

/-- A function of which the body is such code. -/
def Definition.IsWithin (d : Definition) : Prop :=
  Stmt.AllWithin allowed (d.parameters ++ d.returns) d.body.statements

end

theorem Expr.allScoped_iff {visible : List String} {es : List Expr} :
    Expr.allScoped visible es ↔ ∀ e ∈ es, e.isScoped visible := by
  induction es with
  | nil => simp [Expr.allScoped]
  | cons e rest ih => simp [Expr.allScoped, ih]

/-- Cases are scoped when the statements of each are. -/
theorem Case.allScoped_iff {visible : List String} {cases : List Case} :
    Case.allScoped visible cases ↔ ∀ c ∈ cases, Stmt.allScoped visible c.body.statements := by
  induction cases with
  | nil => simp [Case.allScoped]
  | cons c rest ih =>
    obtain ⟨_, _, _, statements⟩ := c
    simp [Case.allScoped, Block.isScoped, ih]

/-- Cases have no bare initialisers when the statements of each have none. -/
theorem Case.anyBareInitialiser_iff {cases : List Case} :
    Case.anyBareInitialiser cases = false ↔ ∀ c ∈ cases, Stmt.anyBareInitialiser c.body.statements = false := by
  induction cases with
  | nil => simp [Case.anyBareInitialiser]
  | cons c rest ih =>
    obtain ⟨_, _, _, statements⟩ := c
    simp [Case.anyBareInitialiser, Block.hasBareInitialiser, ih]

theorem Block.calls_eq (b : Block) : b.calls = Stmt.allCalls b.statements := by
  cases b
  rfl

section

variable {allowed : CallShape → Prop} {visible : List String} {e : Expr} {statements : List Stmt} {call : CallShape}

theorem Expr.Within.isScoped (h : e.Within allowed visible) : e.isScoped visible := by
  induction h with
  | number => rfl
  | var h => exact List.contains_iff_mem.2 h
  | apply _ _ ih => exact Expr.allScoped_iff.2 ih

/-- An expression within bounds calls only what is allowed, with as many arguments. -/
theorem Expr.Within.allowed_of_mem (h : e.Within allowed visible) (hcall : call ∈ e.calls) : allowed call := by
  induction h with
  | number => cases hcall
  | var => cases hcall
  | apply h _ ih =>
    obtain rfl | hcall := List.mem_cons.1 hcall
    · exact h
    · obtain ⟨e, he, hcall⟩ := Expr.mem_allCalls_iff.1 hcall
      exact ih e he hcall

theorem Expr.Within.unary {callee : String} (h : allowed (callee, 1)) (he : e.Within allowed visible) :
    (Expr.apply callee [e]).Within allowed visible :=
  .apply h (List.forall_mem_singleton.2 he)

theorem Expr.Within.binary {callee : String} {e' : Expr} (h : allowed (callee, 2)) (he : e.Within allowed visible)
    (he' : e'.Within allowed visible) : (Expr.apply callee [e, e']).Within allowed visible :=
  .apply h (List.forall_mem_cons.2 ⟨he, List.forall_mem_singleton.2 he'⟩)

namespace Stmt.AllWithin

/-- Every variable of such code is one of its function. -/
theorem allScoped (h : AllWithin allowed visible statements) : Stmt.allScoped visible statements := by
  induction h with
  | nil => rfl
  | perform h _ ih => exact Bool.and_eq_true_iff.2 ⟨h.isScoped, ih⟩
  | @assign visible targets value _ htargets h _ ih =>
    refine Bool.and_eq_true_iff.2 ⟨?_, ih⟩
    rw [Stmt.assign, Stmt.isScoped, h.isScoped, Bool.and_true, List.all_map, List.all_eq_true]
    exact fun x hx => List.contains_iff_mem.2 (htargets hx)
  | declare _ h _ ih => exact Bool.and_eq_true_iff.2 ⟨h.isScoped, ih⟩
  | conditional h _ _ ihbody ih =>
    exact Bool.and_eq_true_iff.2 ⟨Bool.and_eq_true_iff.2 ⟨h.isScoped, ihbody⟩, ih⟩
  | switch h _ _ ihcases ih =>
    exact Bool.and_eq_true_iff.2 ⟨Bool.and_eq_true_iff.2 ⟨h.isScoped, Case.allScoped_iff.2 ihcases⟩, ih⟩

/-- No declaration of such code is one that the parser reads in another way. -/
theorem anyBareInitialiser (h : AllWithin allowed visible statements) : Stmt.anyBareInitialiser statements = false := by
  induction h with
  | nil => rfl
  | perform _ _ ih => exact ih
  | assign _ _ _ ih => exact ih
  | declare hbare _ _ ih => exact Bool.or_eq_false_iff.2 ⟨Bool.eq_false_of_not_eq_true hbare, ih⟩
  | conditional _ _ _ ihbody ih => exact Bool.or_eq_false_iff.2 ⟨ihbody, ih⟩
  | switch _ _ _ ihcases ih => exact Bool.or_eq_false_iff.2 ⟨Case.anyBareInitialiser_iff.2 ihcases, ih⟩

/-- Statements within bounds call only what is allowed. -/
theorem allowed_of_mem (h : AllWithin allowed visible statements) (hcall : call ∈ Stmt.allCalls statements) :
    allowed call := by
  induction h with
  | nil => cases hcall
  | perform h _ ih => exact (List.mem_append.1 hcall).elim h.allowed_of_mem ih
  | assign _ h _ ih => exact (List.mem_append.1 hcall).elim h.allowed_of_mem ih
  | declare _ h _ ih => exact (List.mem_append.1 hcall).elim h.allowed_of_mem ih
  | conditional h _ _ ihbody ih =>
    obtain hcall | hcall := List.mem_append.1 hcall
    · exact (List.mem_append.1 hcall).elim h.allowed_of_mem ihbody
    · exact ih hcall
  | switch h _ _ ihcases ih =>
    obtain hcall | hcall := List.mem_append.1 hcall
    · obtain hcall | hcall := List.mem_append.1 hcall
      · exact h.allowed_of_mem hcall
      · obtain ⟨c, hc, hcall⟩ := Case.mem_allCalls_iff.1 hcall
        exact ihcases c hc (c.body.calls_eq ▸ hcall)
    · exact ih hcall

end Stmt.AllWithin

namespace Definition.IsWithin

variable {d : Definition}

theorem isScoped (h : d.IsWithin allowed) (visible : List String) : d.function.isScoped visible := by
  have hscoped := Stmt.AllWithin.allScoped h
  rw [Definition.function, Stmt.isScoped, ← List.map_append, List.map_map]
  obtain ⟨_, parameters, returns, _, statements⟩ := d
  simpa [Function.comp_def, Block.isScoped] using hscoped

theorem hasBareInitialiser (h : d.IsWithin allowed) : d.function.hasBareInitialiser = false := by
  obtain ⟨_, _, _, _, statements⟩ := d
  exact Stmt.AllWithin.anyBareInitialiser h

theorem allowed_of_mem (h : d.IsWithin allowed) (hcall : call ∈ d.function.calls) : allowed call := by
  obtain ⟨_, _, _, _, statements⟩ := d
  exact Stmt.AllWithin.allowed_of_mem h hcall

end Definition.IsWithin

end

namespace Dispatcher

def dispatcherDefinition (arity : Arity) (functions : FunctionSet) : Definition :=
  ⟨arity.dispatcherName, "fun" :: inputs arity, outputs arity,
    .ofList [.switch {} (.var "fun") (functions.values.map (case arity) ++ [unknownCase])]⟩

end Dispatcher

section

variable {allowed : CallShape → Prop} {visible : List String}

namespace Helper

variable (hbasic : ∀ i : Instruction, i.signature.since = .homestead → allowed i.shape)

include hbasic

/-- A cleanup function calls only basic instructions. -/
theorem isWithin_cleanup {t : SourceType} (h : t.isSingleSlot) : t.cleanupDefinition.IsWithin allowed := by
  have hvalue : (Expr.var "value").Within allowed ["value", "cleaned"] := .var (by decide)
  change Stmt.AllWithin allowed ["value", "cleaned"] [.assign ["cleaned"] t.cleaned]
  refine .assign (by decide) ?_ .nil
  have hform := SourceType.cleanedForm h
  generalize t.cleaned = e at hform
  cases hform with
  | kept => exact hvalue
  | truth => exact .unary (hbasic .isZero rfl) (.unary (hbasic .isZero rfl) hvalue)
  | extended => exact .binary (hbasic .signExtend rfl) (.number _) hvalue
  | masked => exact .binary (hbasic .and rfl) hvalue (.number _)

/-- A shift function calls `shr` only where the version has bitwise shifting. -/
theorem isWithin_shiftRight {version : EvmVersion}
    (hshift : version.hasBitwiseShifting → allowed Instruction.shr.shape) (bits : Nat) :
    (shiftRightDefinition version bits).IsWithin allowed := by
  have hvalue : (Expr.var "value").Within allowed ["value", "newValue"] := .var (by decide)
  change Stmt.AllWithin allowed ["value", "newValue"] [.assign ["newValue"] (shiftedRight version bits)]
  refine .assign (by decide) ?_ .nil
  rw [shiftedRight]
  split
  next h => exact .binary (hshift h) (.number _) hvalue
  next => exact .binary (hbasic .div rfl) hvalue (.number _)

theorem isWithin_roundUp : roundUpDefinition.IsWithin allowed := by
  refine .assign (by decide) (.binary (hbasic .and rfl) (.binary (hbasic .add rfl) (.var (by decide)) ?_) ?_) .nil
  · exact .number _
  · exact .unary (hbasic .not rfl) (.number _)

theorem isWithin_panic (hrevert : allowed Instruction.revert.shape) (code : PanicCode) :
    (panicDefinition code).IsWithin allowed := by
  have hstore := hbasic .mStore rfl
  refine .perform (.binary hstore (.number _) (.number _)) ?_
  refine .perform (.binary hstore (.number _) (.number _)) ?_
  exact .perform (.binary hrevert (.number _) (.number _)) .nil

/-- Storing values within bounds, in front of statements within bounds, is within bounds. -/
theorem allWithin_mStores {stores : List (Expr × Expr)} {rest : List Stmt}
    (h : ∀ s ∈ stores, s.1.Within allowed visible ∧ s.2.Within allowed visible)
    (hrest : Stmt.AllWithin allowed visible rest) : Stmt.AllWithin allowed visible (mStores stores ++ rest) := by
  induction stores with
  | nil => exact hrest
  | cons s stores ih =>
    rw [List.forall_mem_cons] at h
    exact .perform (.binary (hbasic .mStore rfl) h.1.1 h.1.2) (ih h.2)

/-- A revert function calls only basic instructions and `revert`, whatever its message. -/
theorem isWithin_revert (hrevert : allowed Instruction.revert.shape) (reverts : RevertStrings) (message : String) :
    (revertDefinition reverts message).IsWithin allowed := by
  change Stmt.AllWithin allowed [] (revertStatements reverts message)
  by_cases h : (!reverts.includesDebugReasons || (utf8Bytes message).isEmpty) = true
  · rw [revertStatements, if_pos h]
    exact .perform (.binary hrevert (.number _) (.number _)) .nil
  · rw [revertStatements_eq h]
    have hsum : ∀ {visible e e'}, Expr.Within allowed visible e → Expr.Within allowed visible e' →
        (Expr.apply "add" [e, e']).Within allowed visible := .binary (hbasic .add rfl)
    have hhead : ∀ s ∈ messageHead (utf8Bytes message).length,
        s.1.Within allowed [] ∧ s.2.Within allowed [] := by
      rw [messageHead, List.forall_mem_cons, List.forall_mem_cons, List.forall_mem_singleton]
      exact ⟨⟨.number _, .number _⟩, ⟨.number _, .number _⟩, hsum (.number _) (.number _), .number _⟩
    have hposition : (Expr.var "reasonPos").Within allowed ["reasonPos"] := .var (by decide)
    have hwords : ∀ s ∈ messageWords (chunks wordBytes (utf8Bytes message)),
        s.1.Within allowed ["reasonPos"] ∧ s.2.Within allowed ["reasonPos"] := by
      intro s hs
      obtain ⟨word, -, rfl⟩ := List.mem_map.1 hs
      exact ⟨hsum hposition (.number _), .number _⟩
    refine allWithin_mStores hbasic hhead (.declare (by decide) (hsum (.number _) (.number _)) ?_)
    refine allWithin_mStores hbasic hwords (.perform (.binary hrevert (.number _) ?_) .nil)
    exact hsum hposition (.number _)

end Helper

namespace AbiTuple

variable {types : List SourceType}

/-- One statement for each value of a tuple. -/
theorem allWithin_map {f : SourceType × String × Nat → Stmt} {entries : List (SourceType × String × Nat)}
    (h : ∀ entry ∈ entries, ∀ rest, Stmt.AllWithin allowed visible rest →
      Stmt.AllWithin allowed visible (f entry :: rest)) : Stmt.AllWithin allowed visible (entries.map f) := by
  induction entries with
  | nil => exact .nil
  | cons entry entries ih =>
    rw [List.forall_mem_cons] at h
    exact h.1 _ (ih h.2)

variable (hbasic : ∀ i : Instruction, i.signature.since = .homestead → allowed i.shape)
  (hcleanup : ∀ t ∈ types, allowed t.cleanupDefinition.shape)

include hbasic hcleanup

/-- An encoder calls only basic instructions and the cleanup functions of its types. -/
theorem isWithin_encoder : (encoderDefinition types).IsWithin allowed := by
  have hhead : (Expr.var "headStart").Within allowed ("headStart" :: valueNames types ++ ["tail"]) :=
    .var List.mem_cons_self
  have hposition : ∀ offset, (Expr.apply "add" [.var "headStart", .decimal offset]).Within allowed
      ("headStart" :: valueNames types ++ ["tail"]) := fun _ => .binary (hbasic .add rfl) hhead (.number _)
  refine .assign (by simp) (hposition _) (allWithin_map fun entry hentry rest hrest => ?_)
  have hname := mem_names_of_mem_layout hentry
  refine .perform (.binary (hbasic .mStore rfl) (hposition _) (.unary ?_ (.var ?_))) hrest
  · exact hcleanup _ (mem_types_of_mem_layout hentry)
  · exact List.mem_cons_of_mem _ (List.mem_append_left _ hname)

/-- A decoder calls besides those the function that reverts on short data. -/
theorem isWithin_decoder {revert : String} (hrevert : allowed (revert, 0)) :
    (decoderDefinition revert types).IsWithin allowed := by
  have hhead : (Expr.var "headStart").Within allowed (["headStart", "dataEnd"] ++ valueNames types) := .var (by simp)
  have hend : (Expr.var "dataEnd").Within allowed (["headStart", "dataEnd"] ++ valueNames types) := .var (by simp)
  have htooShort : Stmt.AllWithin allowed (["headStart", "dataEnd"] ++ valueNames types) [.perform revert []] :=
    .perform (.apply hrevert nofun) .nil
  refine .conditional (.binary (hbasic .slt rfl) (.binary (hbasic .sub rfl) hend hhead) (.number _)) htooShort ?_
  refine allWithin_map fun entry hentry rest hrest => .assign ?_ ?_ hrest
  · rw [List.cons_subset]
    refine ⟨?_, List.nil_subset _⟩
    exact List.mem_append_right _ (mem_names_of_mem_layout hentry)
  · refine .unary (hcleanup _ (mem_types_of_mem_layout hentry)) (.unary (hbasic .callDataLoad rfl) ?_)
    exact .binary (hbasic .add rfl) hhead (.number _)

end AbiTuple

/-- A dispatcher calls only its functions, with its inputs, and `invalid`. -/
theorem Dispatcher.isWithin (hinvalid : allowed Instruction.invalid.shape) {arity : Arity} {functions : FunctionSet}
    (h : ∀ f ∈ functions.values, allowed (f.codeName, arity.inputs)) :
    (dispatcherDefinition arity functions).IsWithin allowed := by
  have hshape : ∀ f ∈ functions.values, allowed (f.codeName, ((inputs arity).map Expr.var).length) := by
    simpa [inputs, numberedNames] using h
  have hcall : ∀ f ∈ functions.values, (Expr.apply f.codeName ((inputs arity).map .var)).Within allowed
      (("fun" :: inputs arity) ++ outputs arity) := by
    intro f hf
    refine .apply (hshape f hf) (List.forall_mem_map.2 fun x hx => .var ?_)
    exact List.mem_append_left _ (List.mem_cons_of_mem _ hx)
  refine .switch (.var List.mem_cons_self) ?_ .nil
  rw [List.forall_mem_append, List.forall_mem_map, List.forall_mem_singleton]
  refine ⟨fun f hf => ?_, .perform (.apply hinvalid fun _ h => absurd h List.not_mem_nil) .nil⟩
  change Stmt.AllWithin allowed _ [forward arity f]
  rw [forward]
  split
  next => exact .perform (hcall f hf) .nil
  next => exact .assign (List.subset_append_right _ _) (hcall f hf) .nil

end

end YulBackend
