import YulBackend.Proofs.Optimizer.Walk
import YulBackend.Proofs.Semantics.Locals

namespace YulBackend

open Evaluation Encoder Execution ConstantConditions

namespace Locals

/-- Visible variables stay, and keep their values if they are tracked. -/
def Keeps (tracked : String → Bool) (visible : List String) (V V' : Locals) : Prop :=
  ∀ x ∈ visible, (V' x).isSome ∧ (tracked x → V' x = V x)

namespace Keeps

variable {tracked : String → Bool} {visible : List String} {V V' V'' : Locals}

theorem refl (h : ∀ x ∈ visible, (V x).isSome) : Keeps tracked visible V V :=
  fun x hx => ⟨h x hx, fun _ => rfl⟩

theorem trans (h : Keeps tracked visible V V') (h' : Keeps tracked visible V' V'') :
    Keeps tracked visible V V'' := by
  intro x hx
  obtain ⟨_, hsame⟩ := h x hx
  obtain ⟨hsome, hsame'⟩ := h' x hx
  exact ⟨hsome, fun htracked => (hsame' htracked).trans (hsame htracked)⟩

theorem of_subset {visible' : List String} (h : Keeps tracked visible V V') (hsubset : visible' ⊆ visible) :
    Keeps tracked visible' V V' :=
  fun x hx => h x (hsubset hx)

/-- Leaving a block keeps what its statements kept of the outer variables. -/
theorem restrict (h : Keeps tracked visible V V') (hvisible : ∀ x ∈ visible, (V x).isSome) :
    Keeps tracked visible V (V'.restrict V) := by
  intro x hx
  rw [Locals.restrict, if_pos (hvisible x hx)]
  exact h x hx

/-- An assignment to variables that are not tracked. -/
theorem setAll_of_untracked {pairs : List (String × Nat)} (hvisible : ∀ x ∈ visible, (V x).isSome)
    (h : ∀ x ∈ pairs.map (·.1), tracked x = false) : Keeps tracked visible V (V.setAll pairs) := by
  intro x hx
  refine ⟨isSome_setAll_of_isSome (hvisible x hx) pairs, fun htracked => setAll_of_not_mem fun hmem => ?_⟩
  rw [h x hmem] at htracked
  cases htracked

/-- A declaration of variables that are not visible before. -/
theorem setAll_of_unseen {pairs : List (String × Nat)} (hvisible : ∀ x ∈ visible, (V x).isSome)
    (h : ∀ x ∈ pairs.map (·.1), x ∉ visible) : Keeps tracked visible V (V.setAll pairs) := by
  intro x hx
  have hsame : V.setAll pairs x = V x := setAll_of_not_mem fun hmem => h x hmem hx
  exact ⟨hsame ▸ hvisible x hx, fun _ => hsame⟩

end Keeps

end Locals

/-- The variables have values under which all assertions can be true. -/
structure Encoding.Fits (tracked : String → Bool) (c : Encoding Session) (visible : List String)
    (V : Locals) : Prop where
  isSome : ∀ x ∈ visible, (V x).isSome
  satisfied : ∃ ρ, c.Satisfied ρ ∧ Linked tracked c.bindings visible V ρ

namespace Encoding.Fits

variable {tracked : String → Bool} {c c' : Encoding Session} {visible names : List String}
variable {V V' : Locals}

/-- Behind code that runs, what the walk over it asserted can be true. -/
theorem walked (h : c.Fits tracked visible V) (hkeeps : Locals.Keeps tracked visible V V')
    (hwalked : c.Walked c' names) (hunseen : ∀ x ∈ names, x ∉ visible) : c'.Fits tracked visible V' := by
  obtain ⟨ρ, hρ, hlinked⟩ := h.satisfied
  obtain ⟨ρ', hρ', hsame⟩ := hwalked.satisfied ρ hρ
  refine ⟨fun x hx => (hkeeps x hx).1, ρ', hρ', fun x hx htracked hbound => ?_⟩
  have hnames : x ∉ names := fun hmem => hunseen x hmem hx
  have hbound' := (hwalked.contains_or_mem x hbound).resolve_right hnames
  obtain ⟨n, hn, hvalue⟩ := hlinked x hx htracked hbound'
  exact ⟨n, ((hkeeps x hx).2 htracked).trans hn, (hsame x hnames).trans hvalue⟩

theorem keeps (h : c.Fits tracked visible V) (hkeeps : Locals.Keeps tracked visible V V')
    (hwellFormed : c.WellFormed) : c.Fits tracked visible V' :=
  h.walked hkeeps (.refl hwellFormed []) fun _ hx => absurd hx List.not_mem_nil

/-- Variables that no formula is bound to yet may come into sight with any values. -/
theorem append (h : c.Fits tracked visible V) (hkeeps : Locals.Keeps tracked visible V V')
    (hwellFormed : c.WellFormed) (hunbound : ∀ x ∈ names, c.bindings.contains x = false)
    (hsome : ∀ x ∈ names, (V' x).isSome) : c.Fits tracked (names ++ visible) V' := by
  obtain ⟨hvisible, ρ, hρ, hlinked⟩ := h.keeps hkeeps hwellFormed
  refine ⟨fun x hx => ?_, ρ, hρ, fun x hx htracked hbound => ?_⟩
  · exact (List.mem_append.1 hx).elim (hsome x) (hvisible x)
  · rcases List.mem_append.1 hx with hx | hx
    · rw [hunbound x hx] at hbound
      cases hbound
    · exact hlinked x hx htracked hbound

variable {d : Dialect} {σ : State Session}

/-- Behind the definition of a tracked variable, its variable has the value that was assigned. -/
theorem defined {x : String} {value : Expr} {n : Nat} (h : σ.encoding.Fits tracked visible V)
    (hready : σ.encoding.Ready visible [x]) (hscoped : value.isScoped visible)
    (hvalue : CanDenote tracked (ConstantConditions.defined d tracked x value σ).encoding.bindings visible V
      σ.encoding.fresh (formula d tracked
        (ConstantConditions.defined d tracked x value σ).encoding.bindings σ.encoding.fresh value).1 n) :
    (ConstantConditions.defined d tracked x value σ).encoding.Fits tracked (x :: visible)
      (V.setAll [(x, n)]) := by
  have hunbound := hready.unbound x List.mem_cons_self
  have hunseen := hready.unseen x List.mem_cons_self
  have hne : ∀ y ∈ visible, y ≠ x := fun y hy heq => hunseen (heq ▸ hy)
  obtain ⟨ρ, hρ, hlinked⟩ := h.satisfied
  have hlinked' : Linked tracked (ConstantConditions.defined d tracked x value σ).encoding.bindings
      visible V ρ := by
    intro y hy htracked hbound
    exact hlinked y hy htracked ((contains_defined.1 hbound).resolve_left (hne y hy))
  obtain ⟨ρ', hsame, hn⟩ := hvalue ρ hlinked'
  have hρ' : σ.encoding.Satisfied ρ' := hsame.holds hρ hready.wellFormed.ne_freshName
  refine ⟨fun y hy => ?_, _, satisfied_defined hready.wellFormed hunbound hscoped hunseen hρ' hn,
    fun y hy htracked hbound => ?_⟩
  · rcases List.mem_cons.1 hy with rfl | hy
    · exact Locals.isSome_setAll_of_mem List.mem_cons_self
    · exact Locals.isSome_setAll_of_isSome (h.isSome y hy) _
  · rcases List.mem_cons.1 hy with rfl | hy
    · exact ⟨n, if_pos rfl, Function.update_self _ _ _⟩
    · obtain ⟨m, hm, hvalue⟩ := hsame.linked hlinked' y hy htracked hbound
      refine ⟨m, (if_neg (hne y hy)).trans hm, ?_⟩
      have hname : boundName y ≠ boundName x := fun heq => hne y hy (boundName_injective heq)
      rw [Function.update_of_ne hname, hvalue]

/-- The body of an `if` runs only where its condition is not zero. -/
theorem entered {condition : Expr} {n : Nat} (h : σ.encoding.Fits tracked visible V)
    (hwellFormed : σ.encoding.WellFormed) (hne : n ≠ 0)
    (hvalue : CanDenote tracked σ.encoding.bindings visible V σ.encoding.fresh
      (conditionFormula d tracked condition σ) n) :
    (entered d tracked condition σ).encoding.Fits tracked visible V := by
  obtain ⟨ρ, hρ, hlinked⟩ := h.satisfied
  obtain ⟨ρ', hsame, hn⟩ := hvalue ρ hlinked
  refine ⟨h.isSome, ρ', fun f hf => ?_, hsame.linked hlinked⟩
  rw [assertions_entered] at hf
  rcases List.mem_append.1 hf with hf | hf
  · exact hsame.holds hρ hwellFormed.ne_freshName f hf
  · rw [List.mem_singleton.1 hf]
    exact (hn.holds_notEq_iff (Formula.denotes_int ρ' 0)).2 (Int.natCast_ne_zero.2 hne)

end Encoding.Fits

/-- A function after a walk over its body in a state that holds nothing against its being called. -/
structure Definition.Simplified (d : Dialect) (tracked : String → Bool) (f f' : Definition) : Prop where
  name : f'.name = f.name
  parameters : f'.parameters = f.parameters
  returns : f'.returns = f.returns
  body : ∃ σ, f'.body = (visitBlock (evaluating d tracked) f.body σ).1 ∧
    σ.encoding.Ready (f.parameters ++ f.returns) f.body.declaredNames ∧
    ∀ V, (∀ x ∈ f.parameters ++ f.returns, (V x).isSome) →
      σ.encoding.Fits tracked (f.parameters ++ f.returns) V
  isScoped : f.body.isScoped (f.parameters ++ f.returns)
  untracked : ∀ x ∈ f.body.assignedNames, tracked x = false

abbrev Functions.Simplified (d : Dialect) (tracked : String → Bool) : Functions → Functions → Prop :=
  List.Forall₂ (List.Forall₂ (Definition.Simplified d tracked))

/-- A name stands for the same function before and after. -/
theorem Functions.Simplified.find? {d : Dialect} {tracked : String → Bool} {F F' : Functions}
    (h : F.Simplified d tracked F') (name : String) :
    (F.find? name = none ∧ F'.find? name = none) ∨
      ∃ f f' G G', F.find? name = some (f, G) ∧ F'.find? name = some (f', G') ∧
        f.Simplified d tracked f' ∧ G.Simplified d tracked G' := by
  have hframe : ∀ {frame frame' : List Definition},
      List.Forall₂ (Definition.Simplified d tracked) frame frame' →
      (frame.find? (·.name = name) = none ∧ frame'.find? (·.name = name) = none) ∨
        ∃ f f', frame.find? (·.name = name) = some f ∧ frame'.find? (·.name = name) = some f' ∧
          f.Simplified d tracked f' := by
    intro frame frame' hframe
    induction hframe with
    | nil => exact .inl ⟨rfl, rfl⟩
    | @cons f f' rest rest' hf _ ih =>
      rw [List.find?_cons, List.find?_cons, hf.name]
      by_cases heq : f.name = name
      · exact .inr ⟨f, f', by simp [heq], by simp [heq], hf⟩
      · simpa [heq] using ih
  induction h with
  | nil => exact .inl ⟨rfl, rfl⟩
  | cons hf hrest ih =>
    rw [Functions.find?, Functions.find?]
    rcases hframe hf with ⟨hnone, hnone'⟩ | ⟨f, f', hsome, hsome', hfound⟩
    · rw [hnone, hnone']
      exact ih
    · rw [hsome, hsome']
      exact .inr ⟨f, f', _, _, rfl, rfl, hfound, .cons hf hrest⟩

section

variable {d : Dialect} {tracked : String → Bool} {visible : List String}

/-- A function met in a ready state is found in the replaced code with its body replaced from a state of its own, in
which nothing is visible. -/
theorem simplified_function {span : Span} {name : String} {parameters returns : List Identifier}
    {body : Block} {σ : State Session} {ρ : Assignment}
    (hscoped : (Stmt.function span name parameters returns body).isScoped visible)
    (hready : σ.encoding.Ready visible (Stmt.function span name parameters returns body).declaredNames)
    (huntracked : ∀ x ∈ body.assignedNames, tracked x = false) (hρ : σ.encoding.Satisfied ρ) :
    Definition.Simplified d tracked
      ⟨name, parameters.map (·.name), returns.map (·.name), body⟩
      ⟨name, parameters.map (·.name), returns.map (·.name),
        (visitBlock (evaluating d tracked) body σ).1⟩ := by
  rw [Stmt.isScoped, List.map_append] at hscoped
  rw [Stmt.declaredNames, List.map_append] at hready
  refine ⟨rfl, rfl, rfl, ⟨σ, rfl, ?_, fun V hV => ⟨hV, ρ, hρ, fun x hx _ hbound => ?_⟩⟩, hscoped,
    huntracked⟩
  · have hsublist := (List.sublist_append_right (parameters.map (·.name) ++ returns.map (·.name))
      body.declaredNames).cons name
    refine (hready.of_sublist hsublist).of_visible fun x hx hmem => ?_
    obtain ⟨_, _, hdisjoint⟩ := List.nodup_append.1 (List.nodup_cons.1 hready.nodup).2
    exact hdisjoint x hmem x hx rfl
  · rw [hready.unbound x (List.mem_cons_of_mem _ (List.mem_append_left _ hx))] at hbound
    cases hbound

/-- The functions of statements met in a ready state are all found in the replaced code with their bodies replaced. -/
theorem simplified_definitions : ∀ (statements : List Stmt) (σ : State Session) {visible : List String}
    {ρ : Assignment}, Stmt.allScoped visible statements →
    σ.encoding.Ready visible (Stmt.allDeclaredNames statements) →
    (∀ x ∈ Stmt.allAssignedNames statements, tracked x = false) → σ.encoding.Satisfied ρ →
    List.Forall₂ (Definition.Simplified d tracked) (Stmt.definitions statements)
      (Stmt.definitions (visitStmts (evaluating d tracked) statements σ).1)
  | [], _, _, _, _, _, _, _ => .nil
  | s :: rest, σ, visible, ρ, hscoped, hready, huntracked, hρ => by
    rw [Stmt.allScoped, Bool.and_eq_true] at hscoped
    rw [Stmt.allDeclaredNames] at hready
    rw [Stmt.allAssignedNames, List.forall_mem_append] at huntracked
    have hwalked := walked_visitStmt d tracked s σ hscoped.1 hready.left
    have hready' := hready.next hwalked fun x hx => Stmt.mem_or_mem_of_mem_newVariables hx
    obtain ⟨ρ', hρ', _⟩ := hwalked.satisfied ρ hρ
    have hrest := simplified_definitions rest _ hscoped.2 hready' huntracked.2 hρ'
    rw [visitStmts_cons]
    cases s with
    | function span name parameters returns body =>
      exact .cons (simplified_function hscoped.1 hready.left huntracked.1 hρ) hrest
    | conditional span condition body =>
      rw [visitStmt_conditional] at hrest ⊢
      exact hrest
    | _ => exact hrest

end

end YulBackend
