import YulBackend.Proofs.Logic.Renaming
import YulBackend.Proofs.Optimizer.ReplacedConditions
import YulBackend.Proofs.Optimizer.SingleAssignment
import YulBackend.Proofs.Optimizer.Walk

namespace YulBackend

open Evaluation

mutual

/-- Conditions neither declare nor assign: a statement has the same sites without them. -/
theorem Stmt.sites_eraseConditions : ∀ s : Stmt, s.eraseConditions.sites = s.sites
  | .function _ _ _ _ body | .conditional _ _ body | .block body => by
    rw [Stmt.eraseConditions, Stmt.sites, Stmt.sites, Block.sites_eraseConditions body]
  | .switch _ _ cases => by
    rw [Stmt.eraseConditions, Stmt.sites, Stmt.sites, Case.allSites_eraseAllConditions cases]
  | .loop _ pre _ post body => by
    rw [Stmt.eraseConditions, Stmt.sites, Stmt.sites, Block.sites_eraseConditions pre,
      Block.sites_eraseConditions post, Block.sites_eraseConditions body]
  | .expression _ | .assignment .. | .declaration .. | .break _ | .continue _ | .leave _ => by
    rw [Stmt.eraseConditions]

theorem Block.sites_eraseConditions : ∀ b : Block, b.eraseConditions.sites = b.sites
  | ⟨_, statements⟩ => Stmt.allSites_eraseAllConditions statements

theorem Stmt.allSites_eraseAllConditions : ∀ statements : List Stmt,
    Stmt.allSites (Stmt.eraseAllConditions statements) = Stmt.allSites statements
  | [] => rfl
  | s :: rest => by
    rw [Stmt.eraseAllConditions, Stmt.allSites, Stmt.allSites, Stmt.sites_eraseConditions s,
      Stmt.allSites_eraseAllConditions rest]

theorem Case.allSites_eraseAllConditions : ∀ cases : List Case,
    Case.allSites (Case.eraseAllConditions cases) = Case.allSites cases
  | [] => rfl
  | ⟨_, _, body⟩ :: rest => by
    rw [Case.eraseAllConditions, Case.allSites, Case.allSites, Block.sites_eraseConditions body,
      Case.allSites_eraseAllConditions rest]

end

theorem Block.singleAssignmentValues_eraseConditions (b : Block) :
    b.eraseConditions.singleAssignmentValues = b.singleAssignmentValues := by
  rw [singleAssignmentValues_eq, sites_eraseConditions, ← singleAssignmentValues_eq]

namespace Encoder

open Classical in
/-- Gives other numbers to fresh variables. -/
noncomputable def renumber (r : Nat → Nat) (v : String) : String :=
  if h : ∃ j, v = freshName j then freshName (r h.choose) else v

section

variable {r r' : Nat → Nat}

theorem renumber_freshName (r : Nat → Nat) (j : Nat) : renumber r (freshName j) = freshName (r j) := by
  have h : ∃ i, freshName j = freshName i := ⟨j, rfl⟩
  rw [renumber, dif_pos h, ← freshName_injective h.choose_spec]

theorem renumber_of_forall_ne {v : String} (h : ∀ j, v ≠ freshName j) : renumber r v = v :=
  dif_neg fun ⟨j, hj⟩ => h j hj

theorem renumber_boundName (r : Nat → Nat) (x : String) : renumber r (boundName x) = boundName x :=
  renumber_of_forall_ne (boundName_ne_freshName x)

/-- Renumbering by different numbers keeps variables different. -/
theorem renumber_injective (hr : Function.Injective r) : Function.Injective (renumber r) := by
  intro v w heq
  by_cases hv : ∃ i, v = freshName i <;> by_cases hw : ∃ j, w = freshName j
  · obtain ⟨i, rfl⟩ := hv
    obtain ⟨j, rfl⟩ := hw
    rw [renumber_freshName, renumber_freshName] at heq
    rw [hr (freshName_injective heq)]
  · obtain ⟨i, rfl⟩ := hv
    rw [renumber_freshName, renumber_of_forall_ne (not_exists.1 hw)] at heq
    exact absurd ⟨_, heq.symm⟩ hw
  · obtain ⟨j, rfl⟩ := hw
    rw [renumber_freshName, renumber_of_forall_ne (not_exists.1 hv)] at heq
    exact absurd ⟨_, heq⟩ hv
  · rwa [renumber_of_forall_ne (not_exists.1 hv), renumber_of_forall_ne (not_exists.1 hw)] at heq

/-- How a formula is renumbered depends only on the fresh numbers in it. -/
theorem rename_renumber_congr {f : Formula} (h : ∀ j, freshName j ∈ f.variableNames → r j = r' j) :
    f.rename (renumber r) = f.rename (renumber r') := by
  refine Formula.rename_congr fun v hv => ?_
  by_cases hfresh : ∃ j, v = freshName j
  · obtain ⟨j, rfl⟩ := hfresh
    rw [renumber_freshName, renumber_freshName, h j hv]
  · rw [renumber_of_forall_ne (not_exists.1 hfresh), renumber_of_forall_ne (not_exists.1 hfresh)]

end

theorem model?_rename (ρ : String → String) (i : Instruction) (fs : List Formula) :
    model? i (fs.map (·.rename ρ)) = (model? i fs).map (·.rename ρ) := by
  rcases fs with _ | ⟨a, _ | ⟨b, _ | ⟨c, rest⟩⟩⟩ <;> cases i <;> rfl

variable {d : Dialect} {tracked : String → Bool} {bindings : SortedMap String Formula} {r : Nat → Nat}

/-- Two counters a renumbering apart draw fresh variables that are renumbered into each other. -/
theorem fresh_eq {k k' : Nat} (hr : ∀ i, r (k + i) = k' + i) :
    (fresh k).2 = k + 1 ∧ fresh k' = ((fresh k).1.rename (renumber r), k' + 1) := by
  have hnext : r k = k' := hr 0
  refine ⟨rfl, ?_⟩
  rw [fresh, fresh, Formula.rename, renumber_freshName, hnext]

variable (d tracked)

mutual

/-- With another number for the next fresh variable the formula is the same but for such numbers. -/
theorem exists_formula_eq (hbindings : BindsNames bindings) : ∀ (e : Expr) {k k' : Nat},
    (∀ i, r (k + i) = k' + i) → ∃ n, (formula d tracked bindings k e).2 = k + n ∧
      formula d tracked bindings k' e = ((formula d tracked bindings k e).1.rename (renumber r), k' + n)
  | .call _ callee arguments, k, k', hr => by
    rw [formula, formula]
    cases d.instruction? callee.name with
    | none => exact ⟨1, fresh_eq hr⟩
    | some instruction =>
      obtain ⟨n, hn, harguments⟩ := exists_formulas_eq hbindings arguments hr
      dsimp only
      rw [harguments, model?_rename, hn]
      cases model? instruction (formulas d tracked bindings k arguments).1 with
      | none =>
        refine ⟨n + 1, ?_⟩
        exact fresh_eq fun i => by rw [Nat.add_assoc, hr, Nat.add_assoc]
      | some f => exact ⟨n, rfl, rfl⟩
  | .identifier name, k, k', hr => by
    rw [formula, formula]
    cases hbound : bindings.get? name.name with
    | none => exact ⟨1, fresh_eq hr⟩
    | some bound =>
      dsimp only
      split
      · refine ⟨0, rfl, ?_⟩
        rw [hbindings _ _ hbound, Formula.rename, renumber_boundName]
        rfl
      · exact ⟨1, fresh_eq hr⟩
  | .literal value, k, k', hr => by
    rw [formula, formula]
    cases value.word with
    | ok word => exact ⟨0, rfl, rfl⟩
    | error fault => exact ⟨1, fresh_eq hr⟩

/-- Arguments encoded from two counters a renumbering apart have formulas that are renumbered into each other, and
advance the counters alike. -/
theorem exists_formulas_eq (hbindings : BindsNames bindings) : ∀ (es : List Expr) {k k' : Nat},
    (∀ i, r (k + i) = k' + i) → ∃ n, (formulas d tracked bindings k es).2 = k + n ∧
      formulas d tracked bindings k' es =
        ((formulas d tracked bindings k es).1.map (·.rename (renumber r)), k' + n)
  | [], k, k', hr => ⟨0, rfl, rfl⟩
  | e :: rest, k, k', hr => by
    obtain ⟨m, hm, hfirst⟩ := exists_formula_eq hbindings e hr
    have hr' : ∀ i, r (k + m + i) = k' + m + i := fun i => by rw [Nat.add_assoc, hr, Nat.add_assoc]
    obtain ⟨n, hn, hrest⟩ := exists_formulas_eq hbindings rest hr'
    rw [formulas, formulas, hfirst]
    dsimp only
    rw [hm, hrest]
    exact ⟨m + n, hn.trans (Nat.add_assoc k m n), by rw [Nat.add_assoc, List.map_cons]⟩

end

variable {d tracked}

/-- Every fresh number of a formula is below the counter after it. -/
theorem lt_of_freshName_mem_formula (hbindings : BindsNames bindings) {k j : Nat} {e : Expr}
    (h : freshName j ∈ (formula d tracked bindings k e).1.variableNames) :
    j < (formula d tracked bindings k e).2 := by
  have hscoped := e.isScoped_of_names (List.Subset.refl _)
  rcases isVariable_of_mem_formula hbindings k e hscoped h with ⟨x, _, _, heq⟩ | ⟨i, _, hi, heq⟩
  · exact absurd heq.symm (boundName_ne_freshName x j)
  · rwa [freshName_injective heq]

theorem formula_number {text : String} {n : Nat} (h : (Literal.number text).word = .ok n) (span : Span) (k : Nat) :
    formula d tracked bindings k (.literal { Literal.number text with span }) = (.int n, k) := by
  have hword : Literal.word { Literal.number text with span } = .ok n := h
  rw [formula, hword]

/-- Leaves out numbers that only one of two runs has used. -/
def skip (r : Nat → Nat) (k n : Nat) (j : Nat) : Nat := if r j < k then r j else r j + n

/-- Skipping the numbers of a replaced condition keeps a renumbering injective. -/
theorem skip_injective (hr : Function.Injective r) (k n : Nat) : Function.Injective (skip r k n) := by
  intro i j heq
  rw [skip, skip] at heq
  refine hr ?_
  split at heq <;> split at heq <;> omega

end Encoder

namespace Evaluation.Session

variable {s s' : Session} {q q' : Formula}

/-- What is asserted is contradictory. -/
def IsRefuted (s : Session) : Prop := (Problem.ofList s.assertions).verdict = .unsatisfiable

theorem IsRefuted.refutes (h : s.IsRefuted) (q : Formula) : s.refutes q :=
  decide_eq_true (Problem.verdict_ofList_append h [q])

theorem IsRefuted.append (h : s.IsRefuted) {fs : List Formula} (hs' : s'.assertions = s.assertions ++ fs) :
    s'.IsRefuted := by
  rw [IsRefuted, hs']
  exact Problem.verdict_ofList_append h fs

/-- A question that is false under all definitions is refuted. -/
theorem refutes_of_value? (hq : isEquation q = false)
    (hvalue : ∀ definitions, value? definitions q = some (.bool false)) : s.refutes q := by
  refine decide_eq_true ?_
  rw [Problem.ofList_concat, Problem.add_of_not_isEquation hq]
  exact Problem.verdict_eq_of_mem (List.mem_append_right _ List.mem_cons_self) (hvalue _)

/-- A session that says less refutes less. -/
theorem refutes_of_weakens {ρ : String → String} (hρ : Function.Injective ρ)
    (h : List.Forall₂ (Weakens ρ) s.assertions s'.assertions) (hq : Weakens ρ q q')
    (hrefutes : s.refutes q) : s'.refutes q' := by
  have hall : List.Forall₂ (Weakens ρ) (s.assertions ++ [q]) (s'.assertions ++ [q']) :=
    List.rel_append h (.cons hq .nil)
  exact decide_eq_true ((Problem.Weakens.ofList hρ hall).verdict_eq hρ (of_decide_eq_true hrefutes))

end Evaluation.Session

namespace ConstantConditions

open Encoder

variable {d : Dialect} {tracked : String → Bool} {r r' : Nat → Nat} {σ σ' τ τ' : State Session}

/-- A second run is at the place of a first one: its fresh variables have other numbers, and unless the first one
is in code that it found unreachable, all that the second one knows is what the first one knows. -/
structure Rerun (r : Nat → Nat) (σ τ : State Session) : Prop where
  injective : Function.Injective r
  fresh : ∀ i, r (τ.encoding.fresh + i) = σ.encoding.fresh + i
  bindings : τ.encoding.bindings = σ.encoding.bindings
  bindsNames : BindsNames σ.encoding.bindings
  old : ∀ f ∈ σ.encoding.session.assertions, ∀ j, freshName j ∈ f.variableNames → j < σ.encoding.fresh
  counts : τ.counts = σ.counts
  weakens : σ.encoding.session.IsRefuted ∨ List.Forall₂ (Weakens (renumber r)) τ.encoding.session.assertions
    σ.encoding.session.assertions

/-- What code does to two such runs. The numbers that the first one had used keep their counterparts. -/
structure Reran (r : Nat → Nat) (σ τ : State Session) (r' : Nat → Nat) (σ' τ' : State Session) : Prop where
  rerun : Rerun r' σ' τ'
  kept : ∀ j, r j < σ.encoding.fresh → r' j = r j
  fresh_le : σ.encoding.fresh ≤ σ'.encoding.fresh
  extends_ : ∃ fs, σ.encoding.session.Extends σ'.encoding.session fs
  extends_second : ∃ fs, τ.encoding.session.Extends τ'.encoding.session fs

namespace Reran

theorem refl (h : Rerun r σ τ) : Reran r σ τ r σ τ where
  rerun := h
  kept _ _ := rfl
  fresh_le := Nat.le_refl _
  extends_ := ⟨[], .refl _⟩
  extends_second := ⟨[], .refl _⟩

/-- Two stretches of a second run, one behind the other, are one stretch. -/
theorem trans {r'' : Nat → Nat} {σ'' τ'' : State Session} (h : Reran r σ τ r' σ' τ')
    (h' : Reran r' σ' τ' r'' σ'' τ'') : Reran r σ τ r'' σ'' τ'' where
  rerun := h'.rerun
  kept j hj := by
    have hr' := h.kept j hj
    have hr'' := h'.kept j (Nat.lt_of_lt_of_le (by rwa [hr']) h.fresh_le)
    exact hr''.trans hr'
  fresh_le := Nat.le_trans h.fresh_le h'.fresh_le
  extends_ := by
    obtain ⟨fs, hfs⟩ := h.extends_
    obtain ⟨fs', hfs'⟩ := h'.extends_
    exact ⟨fs ++ fs', hfs.trans hfs'⟩
  extends_second := by
    obtain ⟨fs, hfs⟩ := h.extends_second
    obtain ⟨fs', hfs'⟩ := h'.extends_second
    exact ⟨fs ++ fs', hfs.trans hfs'⟩

end Reran

namespace Rerun

theorem renumber_injective (h : Rerun r σ τ) : Function.Injective (renumber r) :=
  Encoder.renumber_injective h.injective

/-- An expression has formulas in both runs that are renumbered into each other. -/
theorem exists_formula_eq (h : Rerun r σ τ) (d : Dialect) (tracked : String → Bool) (e : Expr) :
    ∃ n, (formula d tracked τ.encoding.bindings τ.encoding.fresh e).2 = τ.encoding.fresh + n ∧
      formula d tracked σ.encoding.bindings σ.encoding.fresh e =
        ((formula d tracked τ.encoding.bindings τ.encoding.fresh e).1.rename (renumber r),
          σ.encoding.fresh + n) := by
  rw [h.bindings]
  exact Encoder.exists_formula_eq d tracked h.bindsNames e h.fresh

theorem conditionFormula_eq (h : Rerun r σ τ) (d : Dialect) (tracked : String → Bool) (e : Expr) :
    conditionFormula d tracked e σ = (conditionFormula d tracked e τ).rename (renumber r) := by
  obtain ⟨n, -, heq⟩ := h.exists_formula_eq d tracked e
  exact congrArg Prod.fst heq

/-- A question that the second run sees no reason to deny is not denied in the first one. -/
theorem refutes_of_weakens (h : Rerun r σ τ) {q q' : Formula} (hq : Weakens (renumber r) q q')
    (hrefutes : τ.encoding.session.refutes q) : σ.encoding.session.refutes q' := by
  rcases h.weakens with hrefuted | hweakens
  · exact hrefuted.refutes q'
  · exact Session.refutes_of_weakens h.renumber_injective hweakens hq hrefutes

/-- Formulas that were weakened under one renumbering are so under any that keeps the numbers they use. -/
theorem weakens_of_kept {fs fs' : List Formula} {n : Nat} (h : List.Forall₂ (Weakens (renumber r)) fs fs')
    (hold : ∀ f ∈ fs', ∀ j, freshName j ∈ f.variableNames → j < n) (hkept : ∀ j, r j < n → r' j = r j) :
    List.Forall₂ (Weakens (renumber r')) fs fs' := by
  induction h with
  | nil => exact .nil
  | @cons f f' _ _ hf _ ih =>
    rw [List.forall_mem_cons] at hold
    refine .cons (hf.imp_left fun hrenamed => hrenamed.trans ?_) (ih hold.2)
    refine rename_renumber_congr fun j hj => (hkept j (hold.1 _ ?_)).symm
    rw [hrenamed, Formula.variableNames_rename, ← renumber_freshName]
    exact List.mem_map_of_mem hj

/-- The runs enter the body of an `if`, of which they know conditions that may differ. -/
theorem enter (h : Rerun r σ τ) {condition condition' : Expr} (hinjective : Function.Injective r')
    (hkept : ∀ j, r j < σ.encoding.fresh → r' j = r j)
    (hfresh : ∀ i, r' ((entered d tracked condition' τ).encoding.fresh + i) =
      (entered d tracked condition σ).encoding.fresh + i)
    (hcounts : (entered d tracked condition' τ).counts =
      (entered d tracked condition σ).counts)
    (hweakens : alwaysZero d tracked condition σ ∨
      Weakens (renumber r') (.notEq (conditionFormula d tracked condition' τ) (.int 0))
        (.notEq (conditionFormula d tracked condition σ) (.int 0))) :
    Rerun r' (entered d tracked condition σ)
      (entered d tracked condition' τ) where
  injective := hinjective
  fresh := hfresh
  bindings := h.bindings
  bindsNames := h.bindsNames
  old f hf j hj := by
    rw [assertions_entered] at hf
    rcases List.mem_append.1 hf with hf | hf
    · exact Nat.lt_of_lt_of_le (h.old f hf j hj) (le_formula σ.encoding.fresh condition)
    · rw [List.mem_singleton.1 hf] at hj
      have hj : freshName j ∈ (conditionFormula d tracked condition σ).variableNames := by
        simpa [Formula.notEq, Formula.variableNames] using hj
      exact lt_of_freshName_mem_formula h.bindsNames hj
  counts := hcounts
  weakens := by
    rcases hweakens with hzero | hweakens
    · refine .inl ?_
      rw [Session.IsRefuted, assertions_entered]
      exact of_decide_eq_true hzero
    refine h.weakens.imp (fun hrefuted => hrefuted.append (assertions_entered condition σ)) fun hassertions => ?_
    rw [assertions_entered, assertions_entered]
    exact List.rel_append (weakens_of_kept hassertions h.old hkept) (.cons hweakens .nil)

/-- Both runs assert what a variable is. -/
theorem define (h : Rerun r σ τ) (x : String) (value : Expr) :
    Rerun r (defined d tracked x value σ) (defined d tracked x value τ) := by
  have hbindings : (defined d tracked x value τ).encoding.bindings =
      (defined d tracked x value σ).encoding.bindings :=
    congrArg (·.insert x (.var (boundName x) .int)) h.bindings
  have hnames : BindsNames (defined d tracked x value σ).encoding.bindings :=
    bindsNames_defined h.bindsNames x value
  obtain ⟨n, hn, hformula⟩ := Encoder.exists_formula_eq d tracked hnames value h.fresh
  have hfresh : (defined d tracked x value σ).encoding.fresh = σ.encoding.fresh + n := congrArg Prod.snd hformula
  have hfresh' : (defined d tracked x value τ).encoding.fresh = τ.encoding.fresh + n := by
    rw [← hn, ← hbindings]
    rfl
  refine ⟨h.injective, fun i => ?_, hbindings, hnames, fun f hf j hj => ?_, h.counts, ?_⟩
  · rw [hfresh, hfresh', Nat.add_assoc, h.fresh, Nat.add_assoc]
  · rw [assertions_defined] at hf
    rcases List.mem_append.1 hf with hf | hf
    · rw [hfresh]
      exact Nat.lt_add_right n (h.old f hf j hj)
    · rw [List.mem_singleton.1 hf] at hj
      rcases List.mem_cons.1 hj with heq | hj
      · exact absurd heq.symm (boundName_ne_freshName x j)
      · exact lt_of_freshName_mem_formula hnames hj
  · refine h.weakens.imp (fun hrefuted => hrefuted.append (assertions_defined x value σ)) fun hassertions => ?_
    rw [assertions_defined, assertions_defined]
    refine List.rel_append hassertions (.cons (.inl ?_) .nil)
    rw [hbindings, hformula, Formula.rename, Formula.rename, renumber_boundName]

theorem reran_defined (h : Rerun r σ τ) (x : String) (value : Expr) :
    Reran r σ τ r (defined d tracked x value σ) (defined d tracked x value τ) where
  rerun := h.define x value
  kept _ _ := rfl
  fresh_le := le_formula σ.encoding.fresh value
  extends_ := ⟨_, .assert _ _⟩
  extends_second := ⟨_, .assert _ _⟩

theorem neverZero_number_one (d : Dialect) (tracked : String → Bool) (span : Span) (τ : State Session) :
    neverZero d tracked (.literal { Literal.number "1" with span }) τ := by
  have hone : (Literal.number "1").word = .ok 1 := rfl
  rw [neverZero, conditionFormula, formula_number hone]
  exact Session.refutes_of_value? rfl fun definitions => by simp [value?]

theorem alwaysZero_number_zero (d : Dialect) (tracked : String → Bool) (span : Span) (τ : State Session) :
    alwaysZero d tracked (.literal { Literal.number "0" with span }) τ := by
  have hzero : (Literal.number "0").word = .ok 0 := rfl
  rw [alwaysZero, conditionFormula, formula_number hzero]
  exact Session.refutes_of_value? rfl fun definitions => by simp [Formula.notEq, value?]

theorem isValid_one_notEq_zero : IsValid (.notEq (.int 1) (.int 0)) :=
  ⟨rfl, fun definitions => by simp [Formula.notEq, value?]⟩

theorem counts_entered (condition : Expr) (σ : State Session) :
    (entered d tracked condition σ).counts =
      if alwaysZero d tracked condition σ then { σ.counts with toFalse := σ.counts.toFalse + 1 }
      else if neverZero d tracked condition σ then { σ.counts with toTrue := σ.counts.toTrue + 1 }
      else σ.counts := rfl

/-- Where the second run finds a number, it is behind by the fresh variables that the first one used for the
condition. -/
theorem exists_enter_number (h : Rerun r σ τ) (condition : Expr) {text : String} {m : Nat}
    (hword : (Literal.number text).word = .ok m)
    (hcounts : (entered d tracked (.literal { Literal.number text with span := condition.span }) τ).counts =
      (entered d tracked condition σ).counts)
    (hweakens : alwaysZero d tracked condition σ ∨ IsValid (.notEq (.int m) (.int 0))) :
    ∃ r', Rerun r' (entered d tracked condition σ)
        (entered d tracked (.literal { Literal.number text with span := condition.span }) τ) ∧
      ∀ j, r j < σ.encoding.fresh → r' j = r j := by
  obtain ⟨n, -, hformula⟩ := h.exists_formula_eq d tracked condition
  have hnumber : formula d tracked τ.encoding.bindings τ.encoding.fresh
      (.literal { Literal.number text with span := condition.span }) = (.int m, τ.encoding.fresh) :=
    formula_number hword condition.span τ.encoding.fresh
  have hkept : ∀ j, r j < σ.encoding.fresh → skip r σ.encoding.fresh n j = r j := fun j hj => if_pos hj
  refine ⟨skip r σ.encoding.fresh n, h.enter (skip_injective h.injective _ _) hkept (fun i => ?_) hcounts ?_, hkept⟩
  · rw [entered, entered, hnumber, hformula]
    dsimp only
    rw [skip, h.fresh, if_neg (by omega)]
    omega
  · refine hweakens.imp_right fun hvalid => .inr ⟨?_, rfl⟩
    rwa [conditionFormula, hnumber]

/-- The second run comes to the same condition, and to the body with the same counts. -/
theorem exists_enter (h : Rerun r σ τ) (d : Dialect) (tracked : String → Bool) (condition : Expr) :
    decided d tracked (decided d tracked condition σ) τ = decided d tracked condition σ ∧
      ∃ r', Rerun r' (entered d tracked condition σ)
          (entered d tracked (decided d tracked condition σ) τ) ∧
        ∀ j, r j < σ.encoding.fresh → r' j = r j := by
  by_cases hzero : alwaysZero d tracked condition σ
  · have hzero' := alwaysZero_number_zero d tracked condition.span τ
    rw [decided, decided, if_pos hzero, if_pos hzero']
    refine ⟨rfl, h.exists_enter_number condition rfl ?_ (.inl hzero)⟩
    rw [counts_entered, counts_entered, if_pos hzero, if_pos hzero', h.counts]
  by_cases hone : neverZero d tracked condition σ
  · have hone' := neverZero_number_one d tracked condition.span τ
    have hzero' : ¬ alwaysZero d tracked (.literal { Literal.number "1" with span := condition.span }) τ := by
      intro hrefutes
      have hword : (Literal.number "1").word = .ok 1 := rfl
      rw [alwaysZero, conditionFormula, formula_number hword] at hrefutes
      exact hzero (h.refutes_of_weakens (.inr ⟨isValid_one_notEq_zero, rfl⟩) hrefutes)
    rw [decided, decided, if_neg hzero, if_pos hone, if_neg hzero', if_pos hone']
    refine ⟨rfl, h.exists_enter_number condition rfl ?_ (.inr isValid_one_notEq_zero)⟩
    rw [counts_entered, counts_entered, if_neg hzero, if_pos hone, if_neg hzero', if_pos hone', h.counts]
  · have hformula := h.conditionFormula_eq d tracked condition
    have hnonZero : Weakens (renumber r) (.notEq (conditionFormula d tracked condition τ) (.int 0))
        (.notEq (conditionFormula d tracked condition σ) (.int 0)) := by
      rw [hformula]
      exact .inl rfl
    have heqZero : Weakens (renumber r) (.eq (conditionFormula d tracked condition τ) (.int 0))
        (.eq (conditionFormula d tracked condition σ) (.int 0)) := by
      rw [hformula]
      exact .inl rfl
    have hzero' : ¬ alwaysZero d tracked condition τ := mt (h.refutes_of_weakens hnonZero) hzero
    have hone' : ¬ neverZero d tracked condition τ := mt (h.refutes_of_weakens heqZero) hone
    obtain ⟨n, hn, hcondition⟩ := h.exists_formula_eq d tracked condition
    rw [decided, decided, if_neg hzero, if_neg hone, if_neg hzero', if_neg hone']
    refine ⟨rfl, r, h.enter h.injective (fun _ _ => rfl) (fun i => ?_) ?_ (.inr hnonZero), fun _ _ => rfl⟩
    · rw [entered, entered, hn, hcondition, Nat.add_assoc, h.fresh, Nat.add_assoc]
    · rw [counts_entered, counts_entered, if_neg hzero, if_neg hone, if_neg hzero', if_neg hone', h.counts]

/-- Behind an `if` both runs know what they knew before it. -/
theorem leave (h : Rerun r σ τ) {condition condition' : Expr} {r₁ : Nat → Nat}
    (hkept : ∀ j, r j < σ.encoding.fresh → r₁ j = r j)
    (hbody : Reran r₁ (entered d tracked condition σ) (entered d tracked condition' τ) r' σ' τ') :
    Reran r σ τ r' (left σ') (left τ') := by
  have hextends := extends_left hbody.extends_
  have hextends' := extends_left hbody.extends_second
  have hassertions : (left σ').encoding.session.assertions = σ.encoding.session.assertions :=
    hextends.assertions.trans (List.append_nil _)
  have hassertions' : (left τ').encoding.session.assertions = τ.encoding.session.assertions :=
    hextends'.assertions.trans (List.append_nil _)
  have hentered : σ.encoding.fresh ≤ (entered d tracked condition σ).encoding.fresh :=
    le_formula σ.encoding.fresh condition
  have hle : σ.encoding.fresh ≤ σ'.encoding.fresh := Nat.le_trans hentered hbody.fresh_le
  have hkept' : ∀ j, r j < σ.encoding.fresh → r' j = r j := fun j hj =>
    (hbody.kept j (by rw [hkept j hj]; exact Nat.lt_of_lt_of_le hj hentered)).trans (hkept j hj)
  refine ⟨⟨hbody.rerun.injective, hbody.rerun.fresh, hbody.rerun.bindings, hbody.rerun.bindsNames, ?_,
    hbody.rerun.counts, ?_⟩, hkept', hle, ⟨[], hextends⟩, ⟨[], hextends'⟩⟩
  · rw [hassertions]
    exact fun f hf j hj => Nat.lt_of_lt_of_le (h.old f hf j hj) hle
  · rw [Session.IsRefuted, hassertions, hassertions']
    exact h.weakens.imp_right fun hweakens => weakens_of_kept hweakens h.old hkept'

end Rerun

variable (d tracked)

mutual

/-- A second run makes of a statement what the first one made of it. -/
theorem exists_reran_visitStmt : ∀ (s : Stmt) {r : Nat → Nat} {σ τ : State Session}, Rerun r σ τ →
    let first := visitStmt (evaluating d tracked) s σ
    let second := visitStmt (evaluating d tracked) first.1 τ
    second.1 = first.1 ∧ ∃ r', Reran r σ τ r' first.2 second.2
  | .declaration span declared value, r, σ, τ, h => by
    obtain ⟨name, v, rfl, rfl, htracked⟩ | huntracked := defines_cases tracked declared value
    · rw [visitStmt_defined span htracked v σ]
      dsimp only
      rw [visitStmt_defined span htracked v τ]
      exact ⟨rfl, r, h.reran_defined name.name v⟩
    · rw [visitStmt_declaration span huntracked σ]
      dsimp only
      rw [visitStmt_declaration span huntracked τ]
      exact ⟨rfl, r, .refl h⟩
  | .function span name parameters returns body, r, σ, τ, h => by
    obtain ⟨hbody, hreran⟩ := exists_reran_visitBlock body h
    exact ⟨congrArg (Stmt.function span name parameters returns) hbody, hreran⟩
  | .conditional span condition body, r, σ, τ, h => by
    -- A condition that was replaced draws fewer fresh variables now, so the renumbering changes here.
    obtain ⟨hcondition, r₁, hentered, hkept⟩ := h.exists_enter d tracked condition
    obtain ⟨hbody, r', hreran⟩ := exists_reran_visitBlock body hentered
    rw [visitStmt_conditional]
    dsimp only
    rw [visitStmt_conditional]
    refine ⟨?_, r', h.leave hkept hreran⟩
    rw [hcondition, hbody]
  | .switch span scrutinee cases, r, σ, τ, h => by
    obtain ⟨hcases, hreran⟩ := exists_reran_visitCases cases h
    exact ⟨congrArg (Stmt.switch span scrutinee) hcases, hreran⟩
  | .loop span pre condition post body, r, σ, τ, h => by
    obtain ⟨hpre, r₁, hreran⟩ := exists_reran_visitBlock pre h
    obtain ⟨hbody, r₂, hreran'⟩ := exists_reran_visitBlock body hreran.rerun
    obtain ⟨hpost, r₃, hreran''⟩ := exists_reran_visitBlock post hreran'.rerun
    refine ⟨?_, r₃, hreran.trans (hreran'.trans hreran'')⟩
    rw [visitStmt_loop]
    dsimp only
    rw [visitStmt_loop]
    dsimp only
    rw [hpre, hbody, hpost]
  | .block body, r, σ, τ, h => by
    obtain ⟨hbody, hreran⟩ := exists_reran_visitBlock body h
    exact ⟨congrArg Stmt.block hbody, hreran⟩
  | .expression _, r, _, _, h | .assignment .., r, _, _, h | .break _, r, _, _, h
  | .continue _, r, _, _, h | .leave _, r, _, _, h => ⟨rfl, r, .refl h⟩

/-- A second walk over a replaced block finds what the first found, and leaves it as it is. -/
theorem exists_reran_visitBlock : ∀ (b : Block) {r : Nat → Nat} {σ τ : State Session}, Rerun r σ τ →
    let first := visitBlock (evaluating d tracked) b σ
    let second := visitBlock (evaluating d tracked) first.1 τ
    second.1 = first.1 ∧ ∃ r', Reran r σ τ r' first.2 second.2
  | ⟨span, statements⟩, r, σ, τ, h => by
    obtain ⟨hstatements, hreran⟩ := exists_reran_visitStmts statements h
    exact ⟨congrArg (Block.mk span) hstatements, hreran⟩

/-- A second walk over replaced statements finds what the first found, one statement after the other. -/
theorem exists_reran_visitStmts : ∀ (statements : List Stmt) {r : Nat → Nat} {σ τ : State Session},
    Rerun r σ τ →
    let first := visitStmts (evaluating d tracked) statements σ
    let second := visitStmts (evaluating d tracked) first.1 τ
    second.1 = first.1 ∧ ∃ r', Reran r σ τ r' first.2 second.2
  | [], r, _, _, h => ⟨rfl, r, .refl h⟩
  | s :: rest, r, σ, τ, h => by
    obtain ⟨hfirst, r₁, hreran⟩ := exists_reran_visitStmt s h
    obtain ⟨hrest, r₂, hreran'⟩ := exists_reran_visitStmts rest hreran.rerun
    exact ⟨congrArg₂ List.cons hfirst hrest, r₂, hreran.trans hreran'⟩

/-- A second walk over replaced cases finds what the first found, one case after the other. -/
theorem exists_reran_visitCases : ∀ (cases : List Case) {r : Nat → Nat} {σ τ : State Session},
    Rerun r σ τ →
    let first := visitCases (evaluating d tracked) cases σ
    let second := visitCases (evaluating d tracked) first.1 τ
    second.1 = first.1 ∧ ∃ r', Reran r σ τ r' first.2 second.2
  | [], r, _, _, h => ⟨rfl, r, .refl h⟩
  | ⟨span, value, body⟩ :: rest, r, σ, τ, h => by
    obtain ⟨hbody, r₁, hreran⟩ := exists_reran_visitBlock body h
    obtain ⟨hrest, r₂, hreran'⟩ := exists_reran_visitCases rest hreran.rerun
    exact ⟨congrArg₂ (fun body rest => Case.mk span value body :: rest) hbody hrest, r₂, hreran.trans hreran'⟩

end

/-- `run` on the result of `run` changes nothing more, and finds as much. The second run knows less: where a condition
was replaced it assumes nothing of it, and it numbers later fresh variables differently. But it is only asked about
conditions that were not replaced and about literals, so that it does not need what it does not know. -/
theorem run_run (block : Block) : run d (run d block).1 = run d block := by
  let start : State Session := { encoding := { session := {} } }
  have htracked : (run d block).1.singleAssignmentValues = block.singleAssignmentValues := by
    rw [← Block.singleAssignmentValues_eraseConditions, ← Block.singleAssignmentValues_eraseConditions block]
    exact congrArg _ (eraseConditions_visitBlock _ block _)
  have hstart : Rerun id start start :=
    { injective := Function.injective_id
      fresh := fun _ => rfl
      bindings := rfl
      bindsNames := fun _ _ h => by cases h
      old := fun _ hf => absurd hf List.not_mem_nil
      counts := rfl
      weakens := .inr .nil }
  obtain ⟨hblock, r, hreran⟩ := exists_reran_visitBlock d block.singleAssignmentValues.contains block hstart
  rw [run, runWith, htracked]
  exact Prod.ext hblock hreran.rerun.counts

end ConstantConditions

end YulBackend
