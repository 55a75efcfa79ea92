import YulBackend.Syntax

namespace YulBackend

mutual

/-- Every name that a statement declares at any depth: variables, functions, parameters and returns. -/
def Stmt.declaredNames : Stmt → List String
  | .declaration _ declared _ => declared.map (·.name)
  | .function _ name parameters returns body =>
    name :: ((parameters ++ returns).map (·.name) ++ body.declaredNames)
  | .conditional _ _ body => body.declaredNames
  | .switch _ _ cases => Case.allDeclaredNames cases
  | .loop _ pre _ post body => pre.declaredNames ++ (body.declaredNames ++ post.declaredNames)
  | .block body => body.declaredNames
  | .expression _ | .assignment .. | .break _ | .continue _ | .leave _ => []

def Block.declaredNames : Block → List String
  | ⟨_, statements⟩ => Stmt.allDeclaredNames statements

def Stmt.allDeclaredNames : List Stmt → List String
  | [] => []
  | s :: rest => s.declaredNames ++ Stmt.allDeclaredNames rest

def Case.allDeclaredNames : List Case → List String
  | [] => []
  | ⟨_, _, body⟩ :: rest => body.declaredNames ++ Case.allDeclaredNames rest

end

mutual

/-- Every name that a statement assigns at any depth. -/
def Stmt.assignedNames : Stmt → List String
  | .assignment _ targets _ => targets.map (·.name)
  | .function _ _ _ _ body => body.assignedNames
  | .conditional _ _ body => body.assignedNames
  | .switch _ _ cases => Case.allAssignedNames cases
  | .loop _ pre _ post body => pre.assignedNames ++ (body.assignedNames ++ post.assignedNames)
  | .block body => body.assignedNames
  | .declaration .. | .expression _ | .break _ | .continue _ | .leave _ => []

def Block.assignedNames : Block → List String
  | ⟨_, statements⟩ => Stmt.allAssignedNames statements

def Stmt.allAssignedNames : List Stmt → List String
  | [] => []
  | s :: rest => s.assignedNames ++ Stmt.allAssignedNames rest

def Case.allAssignedNames : List Case → List String
  | [] => []
  | ⟨_, _, body⟩ :: rest => body.assignedNames ++ Case.allAssignedNames rest

end

mutual

/-- An expression reads visible variables only. -/
def Expr.isScoped (visible : List String) : Expr → Bool
  | .call _ _ arguments => Expr.allScoped visible arguments
  | .identifier name => visible.contains name.name
  | .literal _ => true

def Expr.allScoped (visible : List String) : List Expr → Bool
  | [] => true
  | e :: rest => e.isScoped visible && Expr.allScoped visible rest

end

mutual

/-- The names that are read in an expression. -/
def Expr.names : Expr → List String
  | .call _ _ arguments => Expr.allNames arguments
  | .identifier name => [name.name]
  | .literal _ => []

def Expr.allNames : List Expr → List String
  | [] => []
  | e :: rest => e.names ++ Expr.allNames rest

end

mutual

/-- An expression is scoped if all the names in it are visible. -/
theorem Expr.isScoped_of_names {visible : List String} : ∀ e : Expr, e.names ⊆ visible → e.isScoped visible
  | .call _ _ arguments, h => by
    rw [Expr.isScoped]
    exact Expr.allScoped_of_names arguments h
  | .identifier name, h => by
    rw [Expr.isScoped]
    exact List.contains_iff_mem.2 (h List.mem_cons_self)
  | .literal _, _ => rfl

theorem Expr.allScoped_of_names {visible : List String} : ∀ es : List Expr, Expr.allNames es ⊆ visible →
    Expr.allScoped visible es
  | [], _ => rfl
  | e :: rest, h => by
    obtain ⟨hfirst, hrest⟩ := List.append_subset.1 h
    rw [Expr.allScoped, Expr.isScoped_of_names e hfirst, Expr.allScoped_of_names rest hrest]
    rfl

end

/-- The variables that a statement adds to the scope that it stands in. -/
def Stmt.newVariables : Stmt → List String
  | .declaration _ declared _ => declared.map (·.name)
  | _ => []

/-- What is visible behind statements. -/
def Stmt.scopeAfter (visible : List String) : List Stmt → List String
  | [] => visible
  | s :: rest => Stmt.scopeAfter (s.newVariables ++ visible) rest

mutual

/-- A statement reads and assigns visible variables only. A variable is visible behind its declaration up
to the end of its block, and to no function but the one that declares it. -/
def Stmt.isScoped (visible : List String) : Stmt → Bool
  | .expression value => value.isScoped visible
  | .assignment _ targets value =>
    targets.all (fun t => visible.contains t.name) && value.isScoped visible
  | .declaration _ _ value => value.all (·.isScoped visible)
  | .function _ _ parameters returns body => body.isScoped ((parameters ++ returns).map (·.name))
  | .conditional _ condition body => condition.isScoped visible && body.isScoped visible
  | .switch _ scrutinee cases => scrutinee.isScoped visible && Case.allScoped visible cases
  | .loop _ pre condition post body =>
    let inner := Stmt.scopeAfter visible pre.statements
    pre.isScoped visible && condition.isScoped inner && body.isScoped inner && post.isScoped inner
  | .block body => body.isScoped visible
  | .break _ | .continue _ | .leave _ => true

def Block.isScoped (visible : List String) : Block → Bool
  | ⟨_, statements⟩ => Stmt.allScoped visible statements

def Stmt.allScoped (visible : List String) : List Stmt → Bool
  | [] => true
  | s :: rest => s.isScoped visible && Stmt.allScoped (s.newVariables ++ visible) rest

def Case.allScoped (visible : List String) : List Case → Bool
  | [] => true
  | ⟨_, _, body⟩ :: rest => body.isScoped visible && Case.allScoped visible rest

end

/-- Names that are declared at once hide no visible one and no other of them. -/
def areNew (visible names : List String) : Bool :=
  decide names.Nodup && names.all fun name => !visible.contains name

mutual

/-- No variable of a statement hides a visible one, not even one that its function cannot use. -/
def Stmt.isUnshadowed (visible : List String) : Stmt → Bool
  | .declaration _ declared _ => areNew visible (declared.map (·.name))
  | .function _ _ parameters returns body =>
    let names := (parameters ++ returns).map (·.name)
    areNew visible names && body.isUnshadowed (names ++ visible)
  | .conditional _ _ body | .block body => body.isUnshadowed visible
  | .switch _ _ cases => Case.allUnshadowed visible cases
  | .loop _ pre _ post body =>
    let inner := Stmt.scopeAfter visible pre.statements
    pre.isUnshadowed visible && body.isUnshadowed inner && post.isUnshadowed inner
  | .expression _ | .assignment .. | .break _ | .continue _ | .leave _ => true

def Block.isUnshadowed (visible : List String) : Block → Bool
  | ⟨_, statements⟩ => Stmt.allUnshadowed visible statements

def Stmt.allUnshadowed (visible : List String) : List Stmt → Bool
  | [] => true
  | s :: rest => s.isUnshadowed visible && Stmt.allUnshadowed (s.newVariables ++ visible) rest

def Case.allUnshadowed (visible : List String) : List Case → Bool
  | [] => true
  | ⟨_, _, body⟩ :: rest => body.isUnshadowed visible && Case.allUnshadowed visible rest

end

/-- A variable that a statement brings into scope is declared in it. -/
theorem Stmt.mem_declaredNames_of_mem_newVariables {s : Stmt} {x : String} (h : x ∈ s.newVariables) :
    x ∈ s.declaredNames := by
  cases s with
  | declaration span declared value => exact h
  | _ => cases h

theorem Stmt.mem_scopeAfter_of_mem {visible : List String} {x : String} (h : x ∈ visible) :
    ∀ statements, x ∈ Stmt.scopeAfter visible statements
  | [] => h
  | _ :: rest => Stmt.mem_scopeAfter_of_mem (List.mem_append_right _ h) rest

/-- What is visible behind statements was visible before or is declared by one of them. -/
theorem Stmt.mem_or_mem_of_mem_scopeAfter {visible : List String} {x : String} {statements : List Stmt}
    (h : x ∈ Stmt.scopeAfter visible statements) :
    x ∈ visible ∨ x ∈ Stmt.allDeclaredNames statements := by
  induction statements generalizing visible with
  | nil => exact .inl h
  | cons s rest ih =>
    rw [Stmt.allDeclaredNames, List.mem_append]
    rcases ih h with hx | hx
    · rcases List.mem_append.1 hx with hnew | hx
      · exact .inr (.inl (Stmt.mem_declaredNames_of_mem_newVariables hnew))
      · exact .inl hx
    · exact .inr (.inr hx)

theorem Stmt.mem_or_mem_of_mem_newVariables {visible : List String} {s : Stmt} {x : String}
    (h : x ∈ s.newVariables ++ visible) : x ∈ visible ∨ x ∈ s.declaredNames :=
  (List.mem_append.1 h).symm.imp_right Stmt.mem_declaredNames_of_mem_newVariables

/-- A variable that is visible at the end of a block was visible at its start, or the block declares it. -/
theorem Block.mem_or_mem_of_mem_scopeAfter {visible : List String} {x : String} :
    ∀ {b : Block}, x ∈ Stmt.scopeAfter visible b.statements → x ∈ visible ∨ x ∈ b.declaredNames
  | ⟨_, _⟩, h => Stmt.mem_or_mem_of_mem_scopeAfter h

end YulBackend
