import YulBackend.Proofs.Semantics.Execution
import YulBackend.Proofs.Syntax.Names
import YulBackend.Proofs.Syntax.Spans

namespace YulBackend

/-- The name of what is called, and how many arguments it is given. -/
abbrev CallShape := String × Nat

mutual

/-- The calls in an expression, at any depth. -/
def Expr.calls : Expr → List CallShape
  | .call _ callee arguments => (callee.name, arguments.length) :: Expr.allCalls arguments
  | .identifier _ | .literal _ => []

def Expr.allCalls : List Expr → List CallShape
  | [] => []
  | e :: rest => e.calls ++ Expr.allCalls rest

end

mutual

/-- The calls in a statement, at any depth. -/
def Stmt.calls : Stmt → List CallShape
  | .expression value | .assignment _ _ value | .declaration _ _ (some value) => value.calls
  | .function _ _ _ _ body | .block body => body.calls
  | .conditional _ condition body => condition.calls ++ body.calls
  | .switch _ scrutinee cases => scrutinee.calls ++ Case.allCalls cases
  | .loop _ pre condition post body => pre.calls ++ (condition.calls ++ (body.calls ++ post.calls))
  | .declaration _ _ none | .break _ | .continue _ | .leave _ => []

def Block.calls : Block → List CallShape
  | ⟨_, statements⟩ => Stmt.allCalls statements

def Stmt.allCalls : List Stmt → List CallShape
  | [] => []
  | s :: rest => s.calls ++ Stmt.allCalls rest

def Case.allCalls : List Case → List CallShape
  | [] => []
  | ⟨_, _, body⟩ :: rest => body.calls ++ Case.allCalls rest

end

/-- The calls in expressions in a row are the calls in each of them. -/
theorem Expr.mem_allCalls_iff {call : CallShape} {es : List Expr} :
    call ∈ Expr.allCalls es ↔ ∃ e ∈ es, call ∈ e.calls := by
  induction es with
  | nil => simp [Expr.allCalls]
  | cons e rest ih => simp [Expr.allCalls, ih]

/-- The calls in statements in a row are the calls in each of them. -/
theorem Stmt.mem_allCalls_iff {call : CallShape} {statements : List Stmt} :
    call ∈ Stmt.allCalls statements ↔ ∃ s ∈ statements, call ∈ s.calls := by
  induction statements with
  | nil => simp [Stmt.allCalls]
  | cons s rest ih => simp [Stmt.allCalls, ih]

/-- The calls in the clauses of a `switch` are the calls in their bodies. -/
theorem Case.mem_allCalls_iff {call : CallShape} {cases : List Case} :
    call ∈ Case.allCalls cases ↔ ∃ c ∈ cases, call ∈ c.body.calls := by
  induction cases with
  | nil => simp [Case.allCalls]
  | cons c rest ih =>
    obtain ⟨_, _, body⟩ := c
    simp [Case.allCalls, ih]

theorem Expr.length_eraseAll (es : List Expr) : (Expr.eraseAll es).length = es.length := by
  induction es with
  | nil => rfl
  | cons e rest ih => rw [Expr.eraseAll, List.length_cons, List.length_cons, ih]

theorem Identifier.map_name_eraseSpan (names : List Identifier) :
    (names.map (·.eraseSpan)).map (·.name) = names.map (·.name) := by
  rw [List.map_map]
  rfl

mutual

@[simp]
theorem Expr.calls_eraseSpans : ∀ e : Expr, e.eraseSpans.calls = e.calls
  | .call _ callee arguments => by
    rw [Expr.eraseSpans, Expr.calls, Expr.calls, Expr.length_eraseAll, Expr.allCalls_eraseAll arguments]
    rfl
  | .identifier _ => rfl
  | .literal _ => rfl

theorem Expr.allCalls_eraseAll : ∀ es : List Expr, Expr.allCalls (Expr.eraseAll es) = Expr.allCalls es
  | [] => rfl
  | e :: rest => by
    rw [Expr.eraseAll, Expr.allCalls, Expr.allCalls, e.calls_eraseSpans, Expr.allCalls_eraseAll rest]

end

mutual

/-- Which functions a statement calls does not depend on spans. -/
theorem Stmt.calls_eraseSpans : ∀ s : Stmt, s.eraseSpans.calls = s.calls
  | .expression value => value.calls_eraseSpans
  | .assignment _ _ value => value.calls_eraseSpans
  | .declaration _ _ none => rfl
  | .declaration _ _ (some value) => value.calls_eraseSpans
  | .function _ _ _ _ body => body.calls_eraseSpans
  | .conditional _ _ body => by simp [Stmt.eraseSpans, Stmt.calls, body.calls_eraseSpans]
  | .switch _ _ clauses => by simp [Stmt.eraseSpans, Stmt.calls, Case.allCalls_eraseAll clauses]
  | .loop _ pre _ post body => by
    simp [Stmt.eraseSpans, Stmt.calls, pre.calls_eraseSpans, post.calls_eraseSpans, body.calls_eraseSpans]
  | .block body => body.calls_eraseSpans
  | .break _ => rfl
  | .continue _ => rfl
  | .leave _ => rfl

theorem Block.calls_eraseSpans : ∀ b : Block, b.eraseSpans.calls = b.calls
  | ⟨_, statements⟩ => Stmt.allCalls_eraseAll statements

theorem Stmt.allCalls_eraseAll : ∀ ss : List Stmt, Stmt.allCalls (Stmt.eraseAll ss) = Stmt.allCalls ss
  | [] => rfl
  | s :: rest => by
    rw [Stmt.eraseAll, Stmt.allCalls, Stmt.allCalls, s.calls_eraseSpans, Stmt.allCalls_eraseAll rest]

theorem Case.allCalls_eraseAll : ∀ clauses : List Case, Case.allCalls (Case.eraseAll clauses) = Case.allCalls clauses
  | [] => rfl
  | ⟨_, _, body⟩ :: rest => by
    rw [Case.eraseAll, Case.allCalls, Case.allCalls, body.calls_eraseSpans, Case.allCalls_eraseAll rest]

end

/-- Erasing spans keeps the variables that a statement brings into scope. -/
theorem Stmt.newVariables_eraseSpans (s : Stmt) : s.eraseSpans.newVariables = s.newVariables := by
  cases s with
  | declaration _ declared _ => exact Identifier.map_name_eraseSpan declared
  | _ => rfl

theorem Stmt.scopeAfter_eraseAll (visible : List String) (statements : List Stmt) :
    Stmt.scopeAfter visible (Stmt.eraseAll statements) = Stmt.scopeAfter visible statements := by
  induction statements generalizing visible with
  | nil => rfl
  | cons s rest ih => rw [Stmt.eraseAll, Stmt.scopeAfter, Stmt.scopeAfter, s.newVariables_eraseSpans, ih]

mutual

@[simp]
theorem Expr.isScoped_eraseSpans (visible : List String) : ∀ e : Expr,
    e.eraseSpans.isScoped visible = e.isScoped visible
  | .call _ _ arguments => Expr.allScoped_eraseAll visible arguments
  | .identifier _ => rfl
  | .literal _ => rfl

theorem Expr.allScoped_eraseAll (visible : List String) : ∀ es : List Expr,
    Expr.allScoped visible (Expr.eraseAll es) = Expr.allScoped visible es
  | [] => rfl
  | e :: rest => by
    rw [Expr.eraseAll, Expr.allScoped, Expr.allScoped, e.isScoped_eraseSpans visible,
      Expr.allScoped_eraseAll visible rest]

end

mutual

/-- Whether the names in a statement are in scope does not depend on spans. -/
theorem Stmt.isScoped_eraseSpans (visible : List String) : ∀ s : Stmt,
    s.eraseSpans.isScoped visible = s.isScoped visible
  | .expression value => value.isScoped_eraseSpans visible
  | .assignment _ targets value => by
    simp [Stmt.eraseSpans, Stmt.isScoped, Function.comp_def, Identifier.eraseSpan]
  | .declaration _ _ none => rfl
  | .declaration _ _ (some value) => value.isScoped_eraseSpans visible
  | .function _ _ parameters returns body => by
    rw [Stmt.eraseSpans, Stmt.isScoped, Stmt.isScoped, ← List.map_append, Identifier.map_name_eraseSpan,
      body.isScoped_eraseSpans]
  | .conditional _ _ body => by simp [Stmt.eraseSpans, Stmt.isScoped, body.isScoped_eraseSpans visible]
  | .switch _ _ clauses => by simp [Stmt.eraseSpans, Stmt.isScoped, Case.allScoped_eraseAll visible clauses]
  | .loop _ ⟨_, pre⟩ _ post body => by
    simp [Stmt.eraseSpans, Block.eraseSpans, Stmt.isScoped, Block.isScoped, Stmt.scopeAfter_eraseAll,
      Stmt.allScoped_eraseAll visible pre, post.isScoped_eraseSpans, body.isScoped_eraseSpans]
  | .block body => body.isScoped_eraseSpans visible
  | .break _ => rfl
  | .continue _ => rfl
  | .leave _ => rfl

theorem Block.isScoped_eraseSpans (visible : List String) : ∀ b : Block,
    b.eraseSpans.isScoped visible = b.isScoped visible
  | ⟨_, statements⟩ => Stmt.allScoped_eraseAll visible statements

theorem Stmt.allScoped_eraseAll (visible : List String) : ∀ ss : List Stmt,
    Stmt.allScoped visible (Stmt.eraseAll ss) = Stmt.allScoped visible ss
  | [] => rfl
  | s :: rest => by
    rw [Stmt.eraseAll, Stmt.allScoped, Stmt.allScoped, s.isScoped_eraseSpans visible, s.newVariables_eraseSpans,
      Stmt.allScoped_eraseAll _ rest]

theorem Case.allScoped_eraseAll (visible : List String) : ∀ clauses : List Case,
    Case.allScoped visible (Case.eraseAll clauses) = Case.allScoped visible clauses
  | [] => rfl
  | ⟨_, _, body⟩ :: rest => by
    rw [Case.eraseAll, Case.allScoped, Case.allScoped, body.isScoped_eraseSpans visible,
      Case.allScoped_eraseAll visible rest]

end

/-- What a function is called by, and how many arguments it takes. -/
def Definition.shape (d : Definition) : CallShape := (d.name, d.parameters.length)

def Stmt.isFunction : Stmt → Bool
  | .function .. => true
  | _ => false

/-- A block of functions in name order, in which every call is one of a builtin or of a function of the block,
with as many arguments as it takes, and every variable is one of the function that uses it. -/
structure Block.IsLibrary (dialect : Dialect) (b : Block) : Prop where
  functions : ∀ s ∈ b.statements, s.isFunction
  increasing : ((Stmt.definitions b.statements).map (·.name)).Pairwise (· < ·)
  resolved : ∀ call ∈ b.calls,
    (∃ builtin, dialect.builtin? call.1 = some builtin ∧ builtin.parameters = call.2) ∨
      call ∈ (Stmt.definitions b.statements).map Definition.shape
  inScope : b.isScoped []

theorem Stmt.all_isFunction_eraseAll (statements : List Stmt) :
    (Stmt.eraseAll statements).all Stmt.isFunction = statements.all Stmt.isFunction := by
  induction statements with
  | nil => rfl
  | cons s rest ih =>
    rw [Stmt.eraseAll, List.all_cons, List.all_cons, ih]
    cases s <;> rfl

/-- Erasing spans keeps the name and the arities of every function that is defined. -/
theorem Stmt.shape_definitions_eraseAll (statements : List Stmt) :
    (Stmt.definitions (Stmt.eraseAll statements)).map Definition.shape =
      (Stmt.definitions statements).map Definition.shape := by
  induction statements with
  | nil => rfl
  | cons s rest ih =>
    cases s with
    | function _ name parameters returns body =>
      simpa [Stmt.eraseAll, Stmt.eraseSpans, Stmt.definitions, Definition.shape] using ih
    | _ => exact ih

theorem Block.statements_eraseSpans : ∀ b : Block, b.eraseSpans.statements = Stmt.eraseAll b.statements
  | ⟨_, _⟩ => rfl

section

variable {dialect : Dialect} {b b' : Block} (h : b.eraseSpans = b'.eraseSpans)

include h

theorem Block.eraseAll_statements_congr : Stmt.eraseAll b.statements = Stmt.eraseAll b'.statements := by
  rw [← b.statements_eraseSpans, h, b'.statements_eraseSpans]

theorem Block.shapes_congr :
    (Stmt.definitions b.statements).map Definition.shape = (Stmt.definitions b'.statements).map Definition.shape := by
  rw [← Stmt.shape_definitions_eraseAll, Block.eraseAll_statements_congr h, Stmt.shape_definitions_eraseAll]

theorem Block.names_congr :
    (Stmt.definitions b.statements).map (·.name) = (Stmt.definitions b'.statements).map (·.name) := by
  have hnames := congrArg (List.map Prod.fst) (Block.shapes_congr h)
  rwa [List.map_map, List.map_map] at hnames

/-- Whether a block is complete does not depend on its spans. -/
theorem Block.IsLibrary.congr (hlibrary : b'.IsLibrary dialect) : b.IsLibrary dialect := by
  have hfunctions : b.statements.all Stmt.isFunction = b'.statements.all Stmt.isFunction := by
    rw [← Stmt.all_isFunction_eraseAll, Block.eraseAll_statements_congr h, Stmt.all_isFunction_eraseAll]
  have hcalls : b.calls = b'.calls := by rw [← b.calls_eraseSpans, h, b'.calls_eraseSpans]
  have hscoped : b.isScoped [] = b'.isScoped [] := by rw [← b.isScoped_eraseSpans, h, b'.isScoped_eraseSpans]
  refine ⟨?_, ?_, ?_, hscoped.trans hlibrary.inScope⟩
  · rw [← List.all_eq_true, hfunctions, List.all_eq_true]
    exact hlibrary.functions
  · rw [Block.names_congr h]
    exact hlibrary.increasing
  · rw [hcalls, Block.shapes_congr h]
    exact hlibrary.resolved

end

end YulBackend
