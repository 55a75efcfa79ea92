import YulBackend.Proofs.Codegen.Helpers
import YulBackend.Proofs.Semantics.Evm

namespace YulBackend

open Evm Execution

section

variable {other : String → List Nat → World → Option (List Nat) × World} {unvalued : Literal → Nat}
  {calls : Calls World} {fuel : Nat} {F : Functions} {V : Locals} {m : Machine World}

/-- An expression has a value, whatever the world is like. -/
def HasValue (I : Interpretation World) (call : String → List Nat → Exec World (List Nat)) (V : Locals)
    (e : Expr) : Prop :=
  ∀ m, ∃ value, eval I call V e m = (.ok [value], m)

theorem hasValue_number (text : String) :
    HasValue (interpretation other unvalued) (calls F) V (.number text) :=
  fun _ => ⟨_, eval_number text⟩

theorem hasValue_var {name : String} (h : (V name).isSome) :
    HasValue (interpretation other unvalued) (calls F) V (.var name) := by
  obtain ⟨value, hvalue⟩ := Option.isSome_iff_exists.1 h
  exact fun _ => ⟨value, eval_var hvalue⟩

theorem hasValue_add {e e' : Expr} (h : HasValue (interpretation other unvalued) (calls F) V e)
    (h' : HasValue (interpretation other unvalued) (calls F) V e') :
    HasValue (interpretation other unvalued) (calls F) V (.apply "add" [e, e']) := by
  intro m
  obtain ⟨value, hvalue⟩ := h m
  obtain ⟨value', hvalue'⟩ := h' m
  exact ⟨_, eval_instruction (i := .add) (evalAll_cons (evalAll_cons evalAll_nil hvalue') hvalue) rfl⟩

/-- Stores these values at these positions. -/
def mStores (stores : List (Expr × Expr)) : List Stmt := stores.map fun s => .perform "mstore" [s.1, s.2]

/-- Storing expressions with values ends normally and keeps the variables. -/
theorem execAll_mStores {stores : List (Expr × Expr)}
    (h : ∀ s ∈ stores, HasValue (interpretation other unvalued) (calls F) V s.1 ∧
      HasValue (interpretation other unvalued) (calls F) V s.2) (m : Machine World) :
    ∃ m', execAll (interpretation other unvalued) calls fuel F V (mStores stores) m = (.ok (.normal, V), m') := by
  induction stores generalizing m with
  | nil => exact ⟨m, rfl⟩
  | cons s stores ih =>
    rw [List.forall_mem_cons] at h
    obtain ⟨position, hposition⟩ := h.1.1 m
    obtain ⟨word, hword⟩ := h.1.2 m
    obtain ⟨m', hm'⟩ := ih h.2 _
    exact ⟨m', (execAll_cons (exec_mStore hposition hword)).trans hm'⟩

theorem execAll_revert {position length : Expr}
    (hposition : HasValue (interpretation other unvalued) (calls F) V position)
    (hlength : HasValue (interpretation other unvalued) (calls F) V length) (m : Machine World) :
    Reverts (execAll (interpretation other unvalued) calls fuel F V [.perform "revert" [position, length]] m) := by
  obtain ⟨value, hvalue⟩ := hposition m
  obtain ⟨value', hvalue'⟩ := hlength m
  exact ⟨_, execAll_cons_of_error (exec_revert hvalue hvalue'), rfl⟩

/-- The stores of a message that is reverted with: what stands before the message, and the message. -/
def messageHead (length : Nat) : List (Expr × Expr) :=
  [(.decimal 0, .number (selectorWord "Error(string)")), (.decimal 4, .hexadecimal 0x20),
    (.apply "add" [.decimal 4, .hexadecimal 0x20], .decimal length)]

def messageWords (words : List (List UInt8)) : List (Expr × Expr) :=
  words.zipIdx.map fun word =>
    (.apply "add" [.var "reasonPos", .hexadecimal (word.2 * wordBytes)], .number (wordText word.1))

/-- When a message is encoded the statements are its head, the start of the text, its words and the `revert`. -/
theorem revertStatements_eq {reverts : RevertStrings} {message : String}
    (h : ¬ (!reverts.includesDebugReasons || (utf8Bytes message).isEmpty)) :
    revertStatements reverts message =
      mStores (messageHead (utf8Bytes message).length) ++
        .let "reasonPos" (.apply "add" [.decimal 4, .hexadecimal 0x40]) ::
          (mStores (messageWords (chunks wordBytes (utf8Bytes message))) ++
            [.perform "revert" [.decimal 0, .apply "add" [.var "reasonPos",
              .hexadecimal ((chunks wordBytes (utf8Bytes message)).length * wordBytes)]]]) := by
  rw [revertStatements, if_neg h, mStores, mStores, messageWords, List.map_map]
  dsimp only
  rw [List.mapIdx_eq_zipIdx_map]
  rfl

/-- Code that reverts ends the run with a revert. -/
theorem execAll_revertStatements (reverts : RevertStrings) (message : String) (m : Machine World) :
    Reverts (execAll (interpretation other unvalued) calls fuel F V (revertStatements reverts message) m) := by
  by_cases h : (!reverts.includesDebugReasons || (utf8Bytes message).isEmpty) = true
  · rw [revertStatements, if_pos h]
    exact execAll_revert (hasValue_number _) (hasValue_number _) m
  · rw [revertStatements_eq h]
    have hhead : ∀ s ∈ messageHead (utf8Bytes message).length,
        HasValue (interpretation other unvalued) (calls F) V s.1 ∧
          HasValue (interpretation other unvalued) (calls F) V s.2 := by
      rw [messageHead, List.forall_mem_cons, List.forall_mem_cons, List.forall_mem_singleton]
      exact ⟨⟨hasValue_number _, hasValue_number _⟩, ⟨hasValue_number _, hasValue_number _⟩,
        hasValue_add (hasValue_number _) (hasValue_number _), hasValue_number _⟩
    obtain ⟨m₁, hm₁⟩ := execAll_mStores hhead m
    have hsum : HasValue (interpretation other unvalued) (calls F) V
        (.apply "add" [.decimal 4, .hexadecimal 0x40]) := hasValue_add (hasValue_number _) (hasValue_number _)
    obtain ⟨position, hposition⟩ := hsum m₁
    have hvar : HasValue (interpretation other unvalued) (calls F) (V.set "reasonPos" position) (.var "reasonPos") :=
      hasValue_var (by simp)
    have hwords : ∀ s ∈ messageWords (chunks wordBytes (utf8Bytes message)),
        HasValue (interpretation other unvalued) (calls F) (V.set "reasonPos" position) s.1 ∧
          HasValue (interpretation other unvalued) (calls F) (V.set "reasonPos" position) s.2 := by
      intro s hs
      obtain ⟨word, -, rfl⟩ := List.mem_map.1 hs
      exact ⟨hasValue_add hvar (hasValue_number _), hasValue_number _⟩
    obtain ⟨m₂, hm₂⟩ := execAll_mStores hwords m₁
    rw [execAll_append hm₁, execAll_cons (exec_let hposition), execAll_append hm₂]
    exact execAll_revert (hasValue_number _) (hasValue_add hvar (hasValue_number _)) m₂

/-- The function that reverts ends the run with a revert. -/
theorem callFunction_revert {reverts : RevertStrings} {message : String} {F' : Functions}
    (hfind : F.find? (Helper.revertDefinition reverts message).name =
      some (Helper.revertDefinition reverts message, F'))
    (m : Machine World) :
    Reverts (callFunction (interpretation other unvalued) (fuel + 1) F (Helper.revertDefinition reverts message).name []
      m) := by
  obtain ⟨m', hm', hreverted⟩ := execAll_revertStatements reverts message m
  exact ⟨m', callFunction_of_error hfind rfl rfl hm', hreverted⟩

end

end YulBackend
