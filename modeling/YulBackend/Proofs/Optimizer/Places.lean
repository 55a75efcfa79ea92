import YulBackend.Proofs.Optimizer.Transcript
import YulBackend.Proofs.Parser.Places
import YulBackend.Proofs.Syntax.Conditions

namespace YulBackend

namespace Node

variable {source : String} {conditions : List Expr} {n n' : Node}

/-- A number, zero or one, where a condition stood. -/
def Replaces (conditions : List Expr) (n : Node) : Prop :=
  ∃ condition ∈ conditions, ∃ text, (text = "0" ∨ text = "1") ∧
    let value := { Literal.number text with span := condition.span }
    n = expr (.literal value) ∨ n = literal value

/-- A node has its place in the text and, unless it replaces a condition, is what the text reads there. -/
def Remains (source : String) (conditions : List Expr) (n : Node) : Prop :=
  n.Nests source ∧ (n.Shows source ∨ n.Replaces conditions)

/-- A node has come to stand where another stood, and everything in it remains in its place. -/
structure Kept (source : String) (conditions : List Expr) (n n' : Node) : Prop where
  span : n'.span = n.span
  remains : ∀ m, n'.Contains m → m.Remains source conditions

theorem Stands.kept (h : n.Stands source) : Kept source conditions n n :=
  ⟨rfl, fun m hm => ⟨(h m hm).1, .inl (h m hm).2⟩⟩

theorem Stands.kept_map {α : Type} {f : α → Node} {xs : List α} (h : ∀ x ∈ xs, (f x).Stands source) :
    List.Forall₂ (Kept source conditions) (xs.map f) (xs.map f) :=
  List.forall₂_same.2 (List.forall_mem_map.2 fun x hx => (h x hx).kept)

/-- Nodes kept one by one have the same spans, and nothing in them is moved. -/
theorem Kept.all {ns ns' : List Node} (h : List.Forall₂ (Kept source conditions) ns ns') :
    ns'.map Node.span = ns.map Node.span ∧ ∀ c ∈ ns', ∀ m, c.Contains m → m.Remains source conditions := by
  induction h with
  | nil => exact ⟨rfl, nofun⟩
  | cons hkept _ ih =>
    refine ⟨?_, List.forall_mem_cons.2 ⟨hkept.remains, ih.2⟩⟩
    rw [List.map_cons, List.map_cons, hkept.span, ih.1]

/-- A node keeps its place with its children. -/
theorem Stands.kept_of_children (h : n.Stands source) (hspan : n'.span = n.span) (hshows : n'.Shows source)
    (hchildren : List.Forall₂ (Kept source conditions) n.children n'.children) : Kept source conditions n n' := by
  obtain ⟨hspans, hremains⟩ := Kept.all hchildren
  exact ⟨hspan, forall_contains ⟨(h n (.self n)).1.congr hspan hspans, .inl hshows⟩ hremains⟩

/-- A literal that replaces a condition stands where this stood. -/
theorem Stands.kept_replaced {condition : Expr} {text : String} (h : (expr condition).Stands source)
    (hmem : condition ∈ conditions) (htext : text = "0" ∨ text = "1") :
    Kept source conditions (expr condition) (expr (.literal { Literal.number text with span := condition.span })) := by
  have hcondition := (h _ (.self _)).1
  have hreplaces (m : Node) (hm : m = expr (.literal { Literal.number text with span := condition.span }) ∨
      m = literal { Literal.number text with span := condition.span }) : m.Replaces conditions :=
    ⟨condition, hmem, text, htext, hm⟩
  refine ⟨rfl, forall_contains ⟨?_, .inr (hreplaces _ (.inl rfl))⟩ ?_⟩
  · exact ⟨hcondition.start_le_stop, hcondition.stop_le, hcondition.start, hcondition.stop,
      List.forall_mem_singleton.2 ⟨le_rfl, le_rfl⟩, List.pairwise_singleton _ _⟩
  · refine List.forall_mem_singleton.2 (forall_contains ⟨?_, .inr (hreplaces _ (.inr rfl))⟩ nofun)
    exact ⟨hcondition.start_le_stop, hcondition.stop_le, hcondition.start, hcondition.stop, nofun, .nil⟩

end Node

namespace ConstantConditions

open Node (Kept)

variable {σ : Type} {source : String} {conditions : List Expr}

/-- A condition is left alone, or becomes `0` or `1` with the span it had. -/
theorem enterConditional_replaces (encoder : Encoder σ) (condition : Expr) (state : State σ) :
    (enterConditional encoder condition state).1 = condition ∨ ∃ text, (text = "0" ∨ text = "1") ∧
      (enterConditional encoder condition state).1 = .literal { Literal.number text with span := condition.span } := by
  have hdecide : ∀ neverZero alwaysZero (state : State σ), (decide condition neverZero alwaysZero state).1 = condition ∨
      ∃ text, (text = "0" ∨ text = "1") ∧ (decide condition neverZero alwaysZero state).1 =
        .literal { Literal.number text with span := condition.span } := by
    rintro (_ | _) (_ | _) state
    · exact .inl rfl
    · exact .inr ⟨"0", .inl rfl, rfl⟩
    · exact .inr ⟨"1", .inr rfl, rfl⟩
    · exact .inr ⟨"0", .inl rfl, rfl⟩
  exact hdecide _ _ _

variable (encoder : Encoder σ)

mutual

/-- Replacing conditions in a statement keeps every other node of it where it stands. The induction is on the
statement. -/
theorem kept_visitStmt : ∀ (s : Stmt) (state : State σ), (Node.stmt s).Stands source → s.conditions ⊆ conditions →
    Kept source conditions (.stmt s) (.stmt (visitStmt encoder s state).1)
  | .conditional span condition body, state, h, hmem => by
    rw [Stmt.conditions, List.cons_subset] at hmem
    have hcondition : (Node.expr condition).Stands source := h.child List.mem_cons_self
    have hbody : (Node.block body).Stands source := h.child (List.mem_cons_of_mem _ List.mem_cons_self)
    rw [visitStmt_conditional_apply]
    refine h.kept_of_children rfl trivial (.cons ?_ (.cons (kept_visitBlock body _ hbody hmem.2) .nil))
    obtain hkeeps | ⟨text, htext, hreplaced⟩ := enterConditional_replaces encoder condition state
    · rw [hkeeps]
      exact hcondition.kept
    · rw [hreplaced]
      exact hcondition.kept_replaced hmem.1 htext
  | .function span name parameters returns body, state, h, hmem => by
    have hbody : (Node.block body).Stands source := h.child (by simp [Node.children])
    refine h.kept_of_children rfl trivial (List.rel_append (List.rel_append ?_ ?_) ?_)
    · exact Node.Stands.kept_map fun x hx => h.child (by simp [Node.children, hx])
    · exact Node.Stands.kept_map fun x hx => h.child (by simp [Node.children, hx])
    · exact .cons (kept_visitBlock body state hbody hmem) .nil
  | .switch span scrutinee cases, state, h, hmem => by
    have hscrutinee : (Node.expr scrutinee).Stands source := h.child List.mem_cons_self
    have hcases : ∀ c ∈ cases, (Node.clause c).Stands source := fun c hc =>
      h.child (List.mem_cons_of_mem _ (List.mem_map_of_mem hc))
    exact h.kept_of_children rfl trivial (.cons hscrutinee.kept (kept_visitCases cases state hcases hmem))
  | .loop span pre condition post body, state, h, hmem => by
    rw [Stmt.conditions, List.append_subset, List.append_subset] at hmem
    obtain ⟨hpre, hbody, hpost⟩ := hmem
    have hstands : ∀ n ∈ [Node.block pre, .expr condition, .block post, .block body], n.Stands source :=
      fun n hn => h.child hn
    simp only [List.forall_mem_cons] at hstands
    obtain ⟨hstands₁, hstands₂, hstands₃, hstands₄, -⟩ := hstands
    exact h.kept_of_children rfl trivial (.cons (kept_visitBlock pre _ hstands₁ hpre) (.cons hstands₂.kept
      (.cons (kept_visitBlock post _ hstands₃ hpost) (.cons (kept_visitBlock body _ hstands₄ hbody) .nil))))
  | .block body, state, h, hmem => by
    have hkept := kept_visitBlock body state (h.child List.mem_cons_self) hmem
    exact h.kept_of_children hkept.span trivial (.cons hkept .nil)
  | .declaration .., _, h, _ | .expression _, _, h, _ | .assignment .., _, h, _ | .break _, _, h, _
  | .continue _, _, h, _ | .leave _, _, h, _ => h.kept

/-- Replacing conditions in a block keeps every other node of it where it stands. -/
theorem kept_visitBlock : ∀ (b : Block) (state : State σ), (Node.block b).Stands source → b.conditions ⊆ conditions →
    Kept source conditions (.block b) (.block (visitBlock encoder b state).1)
  | ⟨_, statements⟩, state, h, hmem =>
    h.kept_of_children rfl trivial
      (kept_visitStmts statements state (fun _ hs => h.child (List.mem_map_of_mem hs)) hmem)

/-- Replacing conditions in statements keeps them one by one. -/
theorem kept_visitStmts : ∀ (statements : List Stmt) (state : State σ),
    (∀ s ∈ statements, (Node.stmt s).Stands source) → Stmt.allConditions statements ⊆ conditions →
    List.Forall₂ (Kept source conditions) (statements.map .stmt) ((visitStmts encoder statements state).1.map .stmt)
  | [], _, _, _ => .nil
  | s :: rest, state, h, hmem => by
    rw [Stmt.allConditions, List.append_subset] at hmem
    rw [List.forall_mem_cons] at h
    exact .cons (kept_visitStmt s state h.1 hmem.1) (kept_visitStmts rest _ h.2 hmem.2)

/-- Replacing conditions in cases keeps them one by one. -/
theorem kept_visitCases : ∀ (cases : List Case) (state : State σ),
    (∀ c ∈ cases, (Node.clause c).Stands source) → Case.allConditions cases ⊆ conditions →
    List.Forall₂ (Kept source conditions) (cases.map .clause) ((visitCases encoder cases state).1.map .clause)
  | [], _, _, _ => .nil
  | ⟨span, value, body⟩ :: rest, state, h, hmem => by
    rw [Case.allConditions, List.append_subset] at hmem
    rw [List.forall_mem_cons] at h
    have hbody : (Node.block body).Stands source := h.1.child (by simp [Node.children])
    refine .cons (h.1.kept_of_children rfl trivial (List.rel_append ?_ ?_)) (kept_visitCases rest _ h.2 hmem.2)
    · exact Node.Stands.kept_map fun x hx => h.1.child (by simpa [Node.children] using hx)
    · exact .cons (kept_visitBlock body state hbody hmem.1) .nil

end

end ConstantConditions

/-- Every node of a program that `parse` read is a piece of the text, between characters, and its parts are pieces of
this piece, in the order of the text and apart from each other. What the text reads there is the name, the number or
the truth value of the node, and where an expression stands it reads that expression, moved, if it is the only argument
of a call. After `runWith` every node still is such a piece, and only the numbers that took the places of conditions
are not what the text reads. -/
theorem parse_places {source : String} {program : Block} (h : parse source = .ok program) :
    (∀ n, (Node.block program).Contains n → n.Nests source ∧ n.Shows source) ∧
      ∀ {σ : Type} (prover : Prover σ) (dialect : Dialect) (session : σ) (n : Node),
        (Node.block (ConstantConditions.runWith prover dialect program session).1.1).Contains n →
        n.Nests source ∧ (n.Shows source ∨ n.Replaces program.conditions) := by
  have hstands := stands_of_parse h
  refine ⟨hstands, fun prover dialect session => ?_⟩
  exact (ConstantConditions.kept_visitBlock _ program _ hstands (List.Subset.refl _)).remains

/-- A name of two letters in a call, behind a comment with a letter of two bytes, and a condition that is replaced. -/
theorem parse_places_comment :
    let source := "\x7b // é\n let x := add(ab, 0x1) if eq(x, x) \x7b f(\"\\x41\") \x7d \x7d"
    ∃ program, parse source = .ok program ∧
      (∀ n, (Node.block program).Contains n → n.Nests source ∧ n.Shows source) ∧
      ∀ {σ : Type} (prover : Prover σ) (dialect : Dialect) (session : σ) (n : Node),
        (Node.block (ConstantConditions.runWith prover dialect program session).1.1).Contains n →
        n.Nests source ∧ (n.Shows source ∨ n.Replaces program.conditions) := by
  intro source
  obtain ⟨program, hparse⟩ := accepts_iff_parse.1 (show accepts source by decide +kernel)
  exact ⟨program, hparse, parse_places hparse⟩

end YulBackend
