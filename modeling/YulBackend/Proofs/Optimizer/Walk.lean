import YulBackend.Proofs.Optimizer.EncodingSound
import YulBackend.Optimizer.ConstantConditions

namespace YulBackend

open Evaluation Encoder

/-- Whether a formula contradicts what is asserted. -/
def Evaluation.Session.refutes (s : Session) (q : Formula) : Bool :=
  decide ((Problem.ofList (s.assertions ++ [q])).verdict = .unsatisfiable)

namespace ConstantConditions

variable (d : Dialect) (tracked : String → Bool)

/-- The formula of a condition that is met in a state. -/
def conditionFormula (condition : Expr) (σ : State Session) : Formula :=
  (formula d tracked σ.encoding.bindings σ.encoding.fresh condition).1

/-- Whether being zero is ruled out for a condition that is met in a state. -/
def neverZero (condition : Expr) (σ : State Session) : Bool :=
  σ.encoding.session.refutes (.eq (conditionFormula d tracked condition σ) (.int 0))

/-- Whether being anything but zero is ruled out for it. -/
def alwaysZero (condition : Expr) (σ : State Session) : Bool :=
  σ.encoding.session.refutes (.notEq (conditionFormula d tracked condition σ) (.int 0))

/-- A condition that is met in a state, as it stands in the result. -/
def decided (condition : Expr) (σ : State Session) : Expr :=
  if alwaysZero d tracked condition σ then
    .literal { Literal.number "0" with span := condition.span }
  else if neverZero d tracked condition σ then
    .literal { Literal.number "1" with span := condition.span }
  else condition

/-- The state that the body of an `if` is met in. -/
def entered (condition : Expr) (σ : State Session) : State Session where
  encoding.bindings := σ.encoding.bindings
  encoding.fresh := (formula d tracked σ.encoding.bindings σ.encoding.fresh condition).2
  encoding.session :=
    Session.assert (Session.push { σ.encoding.session with checks := σ.encoding.session.checks + 2 })
      (.notEq (conditionFormula d tracked condition σ) (.int 0))
  counts :=
    if alwaysZero d tracked condition σ then { σ.counts with toFalse := σ.counts.toFalse + 1 }
    else if neverZero d tracked condition σ then { σ.counts with toTrue := σ.counts.toTrue + 1 }
    else σ.counts

/-- The state behind the definition of a tracked variable. -/
def defined (x : String) (value : Expr) (σ : State Session) : State Session :=
  let bindings := σ.encoding.bindings.insert x (.var (boundName x) .int)
  let definition := formula d tracked bindings σ.encoding.fresh value
  { σ with encoding :=
      { bindings
        fresh := definition.2
        session := σ.encoding.session.assert (.eq (.var (boundName x) .int) definition.1) } }

/-- The state behind an `if` whose body leaves a state behind. -/
def left (σ : State Session) : State Session :=
  { σ with encoding := { σ.encoding with session := σ.encoding.session.pop } }

variable {d tracked}

/-- Deciding on a condition puts `0` or `1` in its place, with its span, where it is constant, and counts which. -/
theorem decide_eq (condition : Expr) (neverZero alwaysZero : Bool) (σ : State Session) :
    decide condition neverZero alwaysZero σ =
      (if alwaysZero then .literal { Literal.number "0" with span := condition.span }
        else if neverZero then .literal { Literal.number "1" with span := condition.span }
        else condition,
        { σ with counts :=
          if alwaysZero then { σ.counts with toFalse := σ.counts.toFalse + 1 }
          else if neverZero then { σ.counts with toTrue := σ.counts.toTrue + 1 }
          else σ.counts }) := by
  cases alwaysZero <;> cases neverZero <;> rfl

/-- Visiting a conditional replaces its condition if it is constant and visits the body with the condition assumed. -/
theorem visitStmt_conditional (span : Span) (condition : Expr) (body : Block) (σ : State Session) :
    visitStmt (evaluating d tracked) (.conditional span condition body) σ =
      (.conditional span (decided d tracked condition σ)
        (visitBlock (evaluating d tracked) body (entered d tracked condition σ)).1,
        left (visitBlock (evaluating d tracked) body (entered d tracked condition σ)).2) := by
  rw [visitStmt]
  refine (StateM.bind_apply _ _ _).trans ?_
  simp only [encodingStep, encode_eq]
  refine (StateM.bind_apply _ _ _).trans ?_
  simp only [ask, encodingStep, Encoder.ask, Session.refutes_eq]
  refine (StateM.bind_apply _ _ _).trans ?_
  simp only [encodingStep, Encoder.ask, Session.refutes_eq]
  refine (StateM.bind_apply _ _ _).trans ?_
  rw [decide_eq]
  rfl

section

variable (d tracked) (σ : State Session)

theorem visitStmt_function (span : Span) (name : String) (parameters returns : List Identifier)
    (body : Block) :
    visitStmt (evaluating d tracked) (.function span name parameters returns body) σ =
      (.function span name parameters returns (visitBlock (evaluating d tracked) body σ).1,
        (visitBlock (evaluating d tracked) body σ).2) := rfl

theorem visitStmt_switch (span : Span) (scrutinee : Expr) (cases : List Case) :
    visitStmt (evaluating d tracked) (.switch span scrutinee cases) σ =
      (.switch span scrutinee (visitCases (evaluating d tracked) cases σ).1,
        (visitCases (evaluating d tracked) cases σ).2) := rfl

/-- Visiting a loop visits its three blocks in turn and leaves the condition alone. -/
theorem visitStmt_loop (span : Span) (pre : Block) (condition : Expr) (post body : Block) :
    visitStmt (evaluating d tracked) (.loop span pre condition post body) σ =
      let pre := visitBlock (evaluating d tracked) pre σ
      let body := visitBlock (evaluating d tracked) body pre.2
      let post := visitBlock (evaluating d tracked) post body.2
      (.loop span pre.1 condition post.1 body.1, post.2) := rfl

theorem visitStmt_block (body : Block) :
    visitStmt (evaluating d tracked) (.block body) σ =
      (.block (visitBlock (evaluating d tracked) body σ).1,
        (visitBlock (evaluating d tracked) body σ).2) := rfl

theorem visitBlock_mk (span : Span) (statements : List Stmt) :
    visitBlock (evaluating d tracked) ⟨span, statements⟩ σ =
      (⟨span, (visitStmts (evaluating d tracked) statements σ).1⟩,
        (visitStmts (evaluating d tracked) statements σ).2) := rfl

theorem visitStmts_cons (s : Stmt) (rest : List Stmt) :
    visitStmts (evaluating d tracked) (s :: rest) σ =
      let first := visitStmt (evaluating d tracked) s σ
      let rest := visitStmts (evaluating d tracked) rest first.2
      (first.1 :: rest.1, rest.2) := rfl

theorem visitCases_cons (span : Span) (value : Option Literal) (body : Block) (rest : List Case) :
    visitCases (evaluating d tracked) (⟨span, value, body⟩ :: rest) σ =
      let first := visitBlock (evaluating d tracked) body σ
      let rest := visitCases (evaluating d tracked) rest first.2
      (⟨span, value, first.1⟩ :: rest.1, rest.2) := rfl

end

/-- The definition of a tracked variable is asserted. -/
theorem visitStmt_defined (span : Span) {name : Identifier} (htracked : tracked name.name) (value : Expr)
    (σ : State Session) :
    visitStmt (evaluating d tracked) (.declaration span [name] (some value)) σ =
      (.declaration span [name] (some value), defined d tracked name.name value σ) := by
  rw [visitStmt]
  refine (StateM.bind_apply _ _ _).trans ?_
  rw [visitDeclaration, if_pos htracked, StateM.bind_apply, StateM.bind_apply]
  simp only [encodingStep, encode_eq]
  rfl

/-- No other declaration changes anything. -/
theorem visitStmt_declaration (span : Span) {declared : List Identifier} {value : Option Expr}
    (h : ∀ name v, declared = [name] → value = some v → tracked name.name = false) (σ : State Session) :
    visitStmt (evaluating d tracked) (.declaration span declared value) σ =
      (.declaration span declared value, σ) := by
  rw [visitStmt]
  refine (StateM.bind_apply _ _ _).trans ?_
  rw [visitDeclaration.eq_def]
  split
  next name v =>
    have htracked : (evaluating d tracked).tracked name.name = false := h name v rfl rfl
    rw [htracked]
    rfl
  next => rfl

end ConstantConditions

/-- A variable that has been made: that of a bound name, or a fresh one. -/
def Encoding.Knows (c : Encoding Session) (v : String) : Prop :=
  (∃ x, c.bindings.contains x ∧ v = boundName x) ∨ ∃ j, j < c.fresh ∧ v = freshName j

structure Encoding.WellFormed (c : Encoding Session) : Prop where
  bindsNames : BindsNames c.bindings
  knows : ∀ f ∈ c.session.assertions, ∀ v ∈ f.variableNames, c.Knows v

/-- An assignment under which all assertions are true. -/
def Encoding.Satisfied (c : Encoding Session) (ρ : Assignment) : Prop :=
  ∀ f ∈ c.session.assertions, f.Holds ρ

/-- Code that declares these names may be met where these variables are visible. -/
structure Encoding.Ready (c : Encoding Session) (visible names : List String) : Prop where
  wellFormed : c.WellFormed
  nodup : names.Nodup
  unbound : ∀ x ∈ names, c.bindings.contains x = false
  unseen : ∀ x ∈ names, x ∉ visible

/-- What code that declares these names does to an encoding. Whatever was true before can still be true. -/
structure Encoding.Walked (c c' : Encoding Session) (names : List String) : Prop where
  wellFormed : c'.WellFormed
  fresh_le : c.fresh ≤ c'.fresh
  contains : ∀ x, c.bindings.contains x → c'.bindings.contains x
  contains_or_mem : ∀ x, c'.bindings.contains x → c.bindings.contains x ∨ x ∈ names
  extends_ : ∃ fs, c.session.Extends c'.session fs
  satisfied : ∀ ρ, c.Satisfied ρ →
    ∃ ρ', c'.Satisfied ρ' ∧ ∀ x, x ∉ names → ρ' (boundName x) = ρ (boundName x)

namespace Encoding

variable {c c' c'' : Encoding Session} {visible visible' names names' : List String}

/-- A variable that is known stays known while the walk goes on. -/
theorem Knows.mono {v : String} (h : c.Knows v) (hfresh : c.fresh ≤ c'.fresh)
    (hcontains : ∀ x, c.bindings.contains x → c'.bindings.contains x) : c'.Knows v := by
  rcases h with ⟨x, hx, rfl⟩ | ⟨j, hj, rfl⟩
  · exact .inl ⟨x, hcontains x hx, rfl⟩
  · exact .inr ⟨j, by omega, rfl⟩

/-- A fresh variable occurs in no assertion. -/
theorem WellFormed.ne_freshName (h : c.WellFormed) :
    ∀ f ∈ c.session.assertions, ∀ v ∈ f.variableNames, ∀ j, c.fresh ≤ j → v ≠ freshName j := by
  intro f hf v hv j hj heq
  rcases h.knows f hf v hv with ⟨x, _, rfl⟩ | ⟨i, hi, rfl⟩
  · exact boundName_ne_freshName x j heq
  · have := freshName_injective heq
    omega

/-- The variable of a name that is not bound occurs in no assertion. -/
theorem WellFormed.ne_boundName (h : c.WellFormed) {x : String} (hx : c.bindings.contains x = false) :
    ∀ f ∈ c.session.assertions, ∀ v ∈ f.variableNames, v ≠ boundName x := by
  intro f hf v hv heq
  rcases h.knows f hf v hv with ⟨y, hy, rfl⟩ | ⟨j, _, rfl⟩
  · rw [boundName_injective heq, hx] at hy
    cases hy
  · exact boundName_ne_freshName x j heq.symm

namespace Ready

/-- A session ready for some names is ready for fewer. -/
theorem of_sublist (h : c.Ready visible names) (hnames : names'.Sublist names) :
    c.Ready visible names' where
  wellFormed := h.wellFormed
  nodup := h.nodup.sublist hnames
  unbound x hx := h.unbound x (hnames.subset hx)
  unseen x hx := h.unseen x (hnames.subset hx)

theorem of_visible (h : c.Ready visible names) (hvisible : ∀ x ∈ names, x ∉ visible') :
    c.Ready visible' names :=
  { h with unseen := hvisible }

theorem left (h : c.Ready visible (names ++ names')) : c.Ready visible names :=
  h.of_sublist (List.sublist_append_left names names')

/-- Behind code, that which declares other names may be met. -/
theorem next (h : c.Ready visible (names ++ names')) (hwalked : c.Walked c' names)
    (hvisible : ∀ x ∈ visible', x ∈ visible ∨ x ∈ names) : c'.Ready visible' names' := by
  obtain ⟨_, hnodup, hdisjoint⟩ := List.nodup_append.1 h.nodup
  refine ⟨hwalked.wellFormed, hnodup, fun x hx => ?_, fun x hx hmem => ?_⟩
  · rw [← Bool.not_eq_true]
    intro hcontains
    rcases hwalked.contains_or_mem x hcontains with hbound | hmem
    · rw [h.unbound x (List.mem_append_right _ hx)] at hbound
      cases hbound
    · exact hdisjoint x hmem x hx rfl
  · rcases hvisible x hmem with hseen | hmem
    · exact h.unseen x (List.mem_append_right _ hx) hseen
    · exact hdisjoint x hmem x hx rfl

end Ready

namespace Walked

/-- Doing nothing is a stretch of a walk. -/
theorem refl (h : c.WellFormed) (names : List String) : c.Walked c names where
  wellFormed := h
  fresh_le := Nat.le_refl _
  contains _ hx := hx
  contains_or_mem _ hx := .inl hx
  extends_ := ⟨[], .refl _⟩
  satisfied ρ hρ := ⟨ρ, hρ, fun _ _ => rfl⟩

/-- Two stretches of a walk, one behind the other, are one stretch that declares what both do. -/
theorem trans (h : c.Walked c' names) (h' : c'.Walked c'' names') : c.Walked c'' (names ++ names') where
  wellFormed := h'.wellFormed
  fresh_le := Nat.le_trans h.fresh_le h'.fresh_le
  contains x hx := h'.contains x (h.contains x hx)
  contains_or_mem x hx := by
    rcases h'.contains_or_mem x hx with hx | hx
    · exact (h.contains_or_mem x hx).imp_right (List.mem_append_left _)
    · exact .inr (List.mem_append_right _ hx)
  extends_ := by
    obtain ⟨fs, hfs⟩ := h.extends_
    obtain ⟨fs', hfs'⟩ := h'.extends_
    exact ⟨fs ++ fs', hfs.trans hfs'⟩
  satisfied ρ hρ := by
    obtain ⟨ρ₁, hρ₁, hsame₁⟩ := h.satisfied ρ hρ
    obtain ⟨ρ₂, hρ₂, hsame₂⟩ := h'.satisfied ρ₁ hρ₁
    refine ⟨ρ₂, hρ₂, fun x hx => ?_⟩
    rw [List.mem_append, not_or] at hx
    rw [hsame₂ x hx.2, hsame₁ x hx.1]

/-- A stretch of a walk may be said to declare more names than it does. -/
theorem mono (h : c.Walked c' names) (hnames : names ⊆ names') : c.Walked c' names' :=
  { h with
    contains_or_mem := fun x hx => (h.contains_or_mem x hx).imp_right (hnames ·)
    satisfied := fun ρ hρ => by
      obtain ⟨ρ', hρ', hsame⟩ := h.satisfied ρ hρ
      exact ⟨ρ', hρ', fun x hx => hsame x fun hmem => hx (hnames hmem)⟩ }

end Walked

end Encoding

/-- The variables of a formula are known behind its encoding. -/
theorem Encoding.knows_of_isVariable {c : Encoding Session} {bindings : SortedMap String Formula}
    {visible : List String} {j : Nat} {v : String} (h : IsVariable bindings visible j c.fresh v)
    (hbindings : c.bindings = bindings) : c.Knows v := by
  rcases h with ⟨x, _, hx, rfl⟩ | ⟨i, _, hi, rfl⟩
  · exact .inl ⟨x, hbindings ▸ hx, rfl⟩
  · exact .inr ⟨i, hi, rfl⟩

namespace ConstantConditions

variable {d : Dialect} {tracked : String → Bool} {σ : State Session} {visible names : List String}

section

variable {x : String} {value : Expr}

theorem assertions_defined (x : String) (value : Expr) (σ : State Session) :
    (defined d tracked x value σ).encoding.session.assertions =
      σ.encoding.session.assertions ++ [.eq (.var (boundName x) .int)
        (formula d tracked (defined d tracked x value σ).encoding.bindings σ.encoding.fresh value).1] :=
  Session.assertions_assert _ _

/-- A tracked declaration binds its name to the name's own prover variable. -/
theorem bindsNames_defined (h : BindsNames σ.encoding.bindings) (x : String) (value : Expr) :
    BindsNames (defined d tracked x value σ).encoding.bindings := by
  intro y f hy
  rw [defined, SortedMap.get?_insert] at hy
  split at hy
  next heq =>
    cases hy
    rw [heq]
  next => exact h y f hy

theorem contains_defined {y : String} :
    (defined d tracked x value σ).encoding.bindings.contains y ↔ y = x ∨ σ.encoding.bindings.contains y := by
  rw [defined, SortedMap.contains, SortedMap.get?_insert]
  split
  next heq => simp [heq]
  next hne => simp [hne, SortedMap.contains]

/-- A tracked declaration keeps the session well formed, its equation being about known variables. -/
theorem wellFormed_defined (h : σ.encoding.WellFormed) (hscoped : value.isScoped visible) :
    (defined d tracked x value σ).encoding.WellFormed := by
  have hbindings : BindsNames (defined d tracked x value σ).encoding.bindings :=
    bindsNames_defined h.bindsNames x value
  have hle : σ.encoding.fresh ≤ (defined d tracked x value σ).encoding.fresh :=
    le_formula σ.encoding.fresh value
  refine ⟨hbindings, fun f hf v hv => ?_⟩
  rw [assertions_defined] at hf
  rcases List.mem_append.1 hf with hf | hf
  · exact (h.knows f hf v hv).mono hle fun y hy => contains_defined.2 (.inr hy)
  · rw [List.mem_singleton.1 hf] at hv
    rcases List.mem_cons.1 hv with rfl | hv
    · exact .inl ⟨x, contains_defined.2 (.inl rfl), rfl⟩
    · exact Encoding.knows_of_isVariable (isVariable_of_mem_formula hbindings _ value hscoped hv) rfl

/-- The definition of a new variable can be made true. -/
theorem satisfied_defined (h : σ.encoding.WellFormed) (hunbound : σ.encoding.bindings.contains x = false)
    (hscoped : value.isScoped visible) (hunseen : x ∉ visible) {ρ : Assignment}
    (hρ : σ.encoding.Satisfied ρ) {n : Int}
    (hn : (formula d tracked (defined d tracked x value σ).encoding.bindings σ.encoding.fresh value).1.Denotes
      ρ n) :
    (defined d tracked x value σ).encoding.Satisfied (Function.update ρ (boundName x) n) := by
  intro f hf
  rw [assertions_defined] at hf
  rcases List.mem_append.1 hf with hf | hf
  · exact (hρ f hf).congr fun v hv =>
      (Function.update_of_ne (h.ne_boundName hunbound f hf v hv) n ρ).symm
  · rw [List.mem_singleton.1 hf]
    have hvar : (Formula.var (boundName x) .int).Denotes (Function.update ρ (boundName x) n) n := by
      rw [Formula.Denotes, Formula.denote, Function.update_self]
    have hvalue := hn.congr fun v hv => by
      have hne : v ≠ boundName x := by
        rintro rfl
        have hvariable := isVariable_of_mem_formula (bindsNames_defined h.bindsNames x value) _ value hscoped hv
        rcases hvariable with ⟨y, hy, _, heq⟩ | ⟨j, _, _, heq⟩
        · rw [boundName_injective heq] at hunseen
          exact hunseen hy
        · exact boundName_ne_freshName x j heq
      exact (Function.update_of_ne hne n ρ).symm
    exact (hvar.holds_eq_iff hvalue).2 rfl

/-- A tracked declaration of a name not yet bound only adds a definition of a new variable. -/
theorem walked_defined (h : σ.encoding.Ready visible [x]) (hscoped : value.isScoped visible) :
    σ.encoding.Walked (defined d tracked x value σ).encoding [x] where
  wellFormed := wellFormed_defined h.wellFormed hscoped
  fresh_le := le_formula σ.encoding.fresh value
  contains y hy := contains_defined.2 (.inr hy)
  contains_or_mem y hy := by
    rcases contains_defined.1 hy with rfl | hy
    · exact .inr List.mem_cons_self
    · exact .inl hy
  extends_ := ⟨_, .assert _ _⟩
  satisfied ρ hρ := by
    obtain ⟨n, hn⟩ := exists_denotes d (bindsNames_defined h.wellFormed.bindsNames x value) ρ
      σ.encoding.fresh value
    have hunbound := h.unbound x List.mem_cons_self
    have hunseen := h.unseen x List.mem_cons_self
    refine ⟨_, satisfied_defined h.wellFormed hunbound hscoped hunseen hρ hn, fun y hy => ?_⟩
    refine Function.update_of_ne (fun heq => hy ?_) n ρ
    rw [boundName_injective heq]
    exact List.mem_cons_self

end

section

variable {condition : Expr}

theorem assertions_entered (condition : Expr) (σ : State Session) :
    (entered d tracked condition σ).encoding.session.assertions =
      σ.encoding.session.assertions ++ [.notEq (conditionFormula d tracked condition σ) (.int 0)] := by
  rw [entered, Session.assertions_assert]
  simp [Session.push, Session.assertions]

/-- Entering a conditional leaves the session ready for the names of its body. -/
theorem ready_entered (h : σ.encoding.Ready visible names) (hscoped : condition.isScoped visible) :
    (entered d tracked condition σ).encoding.Ready visible names := by
  have hle : σ.encoding.fresh ≤ (entered d tracked condition σ).encoding.fresh :=
    le_formula σ.encoding.fresh condition
  refine ⟨⟨h.wellFormed.bindsNames, fun f hf v hv => ?_⟩, h.nodup, h.unbound, h.unseen⟩
  rw [assertions_entered] at hf
  rcases List.mem_append.1 hf with hf | hf
  · exact (h.wellFormed.knows f hf v hv).mono hle fun _ hy => hy
  · rw [List.mem_singleton.1 hf] at hv
    have hv : v ∈ (conditionFormula d tracked condition σ).variableNames := by
      simpa [Formula.notEq, Formula.variableNames] using hv
    exact Encoding.knows_of_isVariable
      (isVariable_of_mem_formula h.wellFormed.bindsNames _ condition hscoped hv) rfl

/-- Nothing that is asserted in the body of an `if` stays behind it. -/
theorem extends_left {τ : State Session}
    (h : ∃ fs, (entered d tracked condition σ).encoding.session.Extends τ.encoding.session fs) :
    σ.encoding.session.Extends (left τ).encoding.session [] := by
  obtain ⟨fs, hfs⟩ := h
  have hpop := Session.Extends.pop ((Session.Extends.assert _ _).trans hfs)
  exact ⟨hpop.base, hpop.scopes⟩

/-- What was asserted in the body of a conditional is gone behind it, so that the whole conditional only adds
definitions. -/
theorem walked_left {τ : State Session} (h : σ.encoding.WellFormed)
    (hwalked : (entered d tracked condition σ).encoding.Walked τ.encoding names) :
    σ.encoding.Walked (left τ).encoding names := by
  have hfresh : σ.encoding.fresh ≤ τ.encoding.fresh :=
    Nat.le_trans (le_formula σ.encoding.fresh condition) hwalked.fresh_le
  have hextends := extends_left hwalked.extends_
  have hassertions : (left τ).encoding.session.assertions = σ.encoding.session.assertions :=
    hextends.assertions.trans (List.append_nil _)
  refine ⟨⟨hwalked.wellFormed.bindsNames, fun f hf v hv => ?_⟩, hfresh, hwalked.contains,
    hwalked.contains_or_mem, ⟨[], hextends⟩, fun ρ hρ => ⟨ρ, ?_, fun _ _ => rfl⟩⟩
  · rw [hassertions] at hf
    exact (h.knows f hf v hv).mono hfresh hwalked.contains
  · intro f hf
    rw [hassertions] at hf
    exact hρ f hf

end

variable (d tracked)

mutual

/-- Visiting a scoped statement only adds definitions of variables that are new. The induction is on the statement. -/
theorem walked_visitStmt : ∀ (s : Stmt) (σ : State Session) {visible : List String},
    s.isScoped visible → σ.encoding.Ready visible s.declaredNames →
    σ.encoding.Walked (visitStmt (evaluating d tracked) s σ).2.encoding s.declaredNames
  | .declaration span declared value, σ, visible, hscoped, h => by
    obtain ⟨name, v, rfl, rfl, htracked⟩ | huntracked := defines_cases tracked declared value
    · rw [visitStmt_defined span htracked]
      rw [Stmt.isScoped, Option.all_some] at hscoped
      exact walked_defined h hscoped
    · rw [visitStmt_declaration span huntracked]
      exact .refl h.wellFormed _
  | .function span name parameters returns body, σ, visible, hscoped, h => by
    rw [Stmt.isScoped] at hscoped
    rw [Stmt.declaredNames] at h ⊢
    rw [visitStmt_function]
    -- A body sees no variables but the parameters and results, and these are declared nowhere else.
    have hsublist : body.declaredNames.Sublist
        (name :: ((parameters ++ returns).map (·.name) ++ body.declaredNames)) :=
      .cons _ (List.sublist_append_right _ _)
    have hunseen : ∀ x ∈ body.declaredNames, x ∉ (parameters ++ returns).map (·.name) := by
      obtain ⟨_, _, hdisjoint⟩ := List.nodup_append.1 (List.nodup_cons.1 h.nodup).2
      exact fun x hx hmem => hdisjoint x hmem x hx rfl
    have hbody := walked_visitBlock body σ hscoped ((h.of_sublist hsublist).of_visible hunseen)
    exact hbody.mono hsublist.subset
  | .conditional span condition body, σ, visible, hscoped, h => by
    rw [Stmt.isScoped, Bool.and_eq_true] at hscoped
    rw [visitStmt_conditional]
    have hbody := walked_visitBlock body (entered d tracked condition σ) hscoped.2
      (ready_entered h hscoped.1)
    exact walked_left h.wellFormed hbody
  | .switch span scrutinee cases, σ, visible, hscoped, h => by
    rw [Stmt.isScoped, Bool.and_eq_true] at hscoped
    rw [visitStmt_switch]
    exact walked_visitCases cases σ hscoped.2 h
  | .loop span pre condition post body, σ, visible, hscoped, h => by
    simp only [Stmt.isScoped, Bool.and_eq_true] at hscoped
    obtain ⟨⟨⟨hpre, _⟩, hbody⟩, hpost⟩ := hscoped
    rw [Stmt.declaredNames] at h ⊢
    rw [visitStmt_loop]
    have hwalked := walked_visitBlock pre σ hpre h.left
    have hready := h.next hwalked fun x hx => Block.mem_or_mem_of_mem_scopeAfter hx
    have hwalked' := walked_visitBlock body _ hbody hready.left
    have hready' := hready.next hwalked' fun x hx => .inl hx
    exact hwalked.trans (hwalked'.trans (walked_visitBlock post _ hpost hready'))
  | .block body, σ, visible, hscoped, h => by
    rw [visitStmt_block]
    exact walked_visitBlock body σ hscoped h
  | .expression _, _, _, _, h | .assignment .., _, _, _, h | .break _, _, _, _, h
  | .continue _, _, _, _, h | .leave _, _, _, _, h => .refl h.wellFormed _

theorem walked_visitBlock : ∀ (b : Block) (σ : State Session) {visible : List String},
    b.isScoped visible → σ.encoding.Ready visible b.declaredNames →
    σ.encoding.Walked (visitBlock (evaluating d tracked) b σ).2.encoding b.declaredNames
  | ⟨_, statements⟩, σ, _, hscoped, h => walked_visitStmts statements σ hscoped h

/-- Visiting scoped statements only adds definitions of variables that are new. -/
theorem walked_visitStmts : ∀ (statements : List Stmt) (σ : State Session) {visible : List String},
    Stmt.allScoped visible statements → σ.encoding.Ready visible (Stmt.allDeclaredNames statements) →
    σ.encoding.Walked (visitStmts (evaluating d tracked) statements σ).2.encoding
      (Stmt.allDeclaredNames statements)
  | [], _, _, _, h => .refl h.wellFormed _
  | s :: rest, σ, visible, hscoped, h => by
    rw [Stmt.allScoped, Bool.and_eq_true] at hscoped
    rw [Stmt.allDeclaredNames] at h ⊢
    rw [visitStmts_cons]
    have hwalked := walked_visitStmt s σ hscoped.1 h.left
    have hready := h.next hwalked fun x hx => Stmt.mem_or_mem_of_mem_newVariables hx
    exact hwalked.trans (walked_visitStmts rest _ hscoped.2 hready)

/-- Visiting scoped cases only adds definitions of variables that are new. -/
theorem walked_visitCases : ∀ (cases : List Case) (σ : State Session) {visible : List String},
    Case.allScoped visible cases → σ.encoding.Ready visible (Case.allDeclaredNames cases) →
    σ.encoding.Walked (visitCases (evaluating d tracked) cases σ).2.encoding (Case.allDeclaredNames cases)
  | [], _, _, _, h => .refl h.wellFormed _
  | ⟨_, _, body⟩ :: rest, σ, visible, hscoped, h => by
    rw [Case.allScoped, Bool.and_eq_true] at hscoped
    rw [Case.allDeclaredNames] at h ⊢
    rw [visitCases_cons]
    have hwalked := walked_visitBlock body σ hscoped.1 h.left
    have hready := h.next hwalked fun x hx => .inl hx
    exact hwalked.trans (walked_visitCases rest _ hscoped.2 hready)

end

end ConstantConditions

end YulBackend
