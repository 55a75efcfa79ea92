import YulBackend.Proofs.Syntax.Positions

namespace YulBackend

mutual

/-- The conditions of the `if` statements of a statement: that of an `if` before those in its body. -/
def Stmt.conditions : Stmt → List Expr
  | .conditional _ condition body => condition :: body.conditions
  | .function _ _ _ _ body | .block body => body.conditions
  | .switch _ _ cases => Case.allConditions cases
  | .loop _ pre _ post body => pre.conditions ++ (body.conditions ++ post.conditions)
  | .expression _ | .assignment .. | .declaration .. | .break _ | .continue _ | .leave _ => []

def Block.conditions : Block → List Expr
  | ⟨_, statements⟩ => Stmt.allConditions statements

def Stmt.allConditions : List Stmt → List Expr
  | [] => []
  | s :: rest => s.conditions ++ Stmt.allConditions rest

def Case.allConditions : List Case → List Expr
  | [] => []
  | ⟨_, _, body⟩ :: rest => body.conditions ++ Case.allConditions rest

end

mutual

/-- A statement in which every `if` has the same condition. -/
def Stmt.eraseConditions : Stmt → Stmt
  | .conditional span _ body => .conditional span (.number "0") body.eraseConditions
  | .function span name parameters returns body =>
    .function span name parameters returns body.eraseConditions
  | .switch span scrutinee cases => .switch span scrutinee (Case.eraseAllConditions cases)
  | .loop span pre condition post body =>
    .loop span pre.eraseConditions condition post.eraseConditions body.eraseConditions
  | .block body => .block body.eraseConditions
  | .expression value => .expression value
  | .assignment span targets value => .assignment span targets value
  | .declaration span declared value => .declaration span declared value
  | .break span => .break span
  | .continue span => .continue span
  | .leave span => .leave span

def Block.eraseConditions : Block → Block
  | ⟨span, statements⟩ => ⟨span, Stmt.eraseAllConditions statements⟩

def Stmt.eraseAllConditions : List Stmt → List Stmt
  | [] => []
  | s :: rest => s.eraseConditions :: Stmt.eraseAllConditions rest

def Case.eraseAllConditions : List Case → List Case
  | [] => []
  | ⟨span, value, body⟩ :: rest => ⟨span, value, body.eraseConditions⟩ :: Case.eraseAllConditions rest

end

/-- The condition of the `if` that a walk meets. -/
def Event.condition? : Event → Option Expr
  | .enter _ (.conditional _ condition _) => some condition
  | _ => none

theorem Stmt.filterMap_condition?_around (s : Stmt) (p : Position) (events : List Event) :
    List.filterMap Event.condition? (.enter p s :: events ++ [.exit p s]) =
      (Event.condition? (.enter p s)).toList ++ events.filterMap Event.condition? := by
  rw [List.filterMap_append, List.filterMap_cons]
  cases Event.condition? (.enter p s) <;> simp [Event.condition?]

mutual

/-- The conditions that a walk comes by in a statement are its conditions, in the same order. -/
theorem Stmt.filterMap_condition?_events : ∀ (s : Stmt) (p : Position),
    List.filterMap Event.condition? (.enter p s :: s.innerEvents p ++ [.exit p s]) = s.conditions
  | .conditional _ _ body, p | .function _ _ _ _ body, p | .block body, p => by
    rw [Stmt.filterMap_condition?_around, Stmt.innerEvents, body.filterMap_condition?_events]
    rfl
  | .switch _ _ cases, p => by
    rw [Stmt.filterMap_condition?_around, Stmt.innerEvents, Case.filterMap_condition?_events cases]
    rfl
  | .loop _ pre _ post body, p => by
    rw [Stmt.filterMap_condition?_around, Stmt.innerEvents, List.filterMap_append, List.filterMap_append,
      pre.filterMap_condition?_events, body.filterMap_condition?_events, post.filterMap_condition?_events]
    rfl
  | .expression _, _ | .assignment .., _ | .declaration .., _ | .break _, _ | .continue _, _
  | .leave _, _ => rfl

/-- A walk comes by the conditions in their order. -/
theorem Block.filterMap_condition?_events : ∀ (b : Block) (path : Path),
    (b.events path).filterMap Event.condition? = b.conditions
  | ⟨_, statements⟩, path => by
    rw [Block.events, Block.conditions]
    exact Stmt.filterMap_condition?_allEvents statements path 0

/-- The conditions that a walk comes by in statements in a row are theirs, in the same order. -/
theorem Stmt.filterMap_condition?_allEvents : ∀ (statements : List Stmt) (path : Path) (index : Nat),
    (Stmt.allEvents path index statements).filterMap Event.condition? = Stmt.allConditions statements
  | [], _, _ => rfl
  | s :: rest, path, index => by
    rw [Stmt.allEvents, List.append_cons, List.filterMap_append, s.filterMap_condition?_events,
      Stmt.filterMap_condition?_allEvents rest, Stmt.allConditions]

/-- The conditions that a walk comes by in the clauses of a `switch` are theirs, in the same order. -/
theorem Case.filterMap_condition?_events : ∀ (cases : List Case) (p : Position) (block : Nat),
    (Case.allEvents p block cases).filterMap Event.condition? = Case.allConditions cases
  | [], _, _ => rfl
  | ⟨_, _, body⟩ :: rest, p, block => by
    rw [Case.allEvents, List.filterMap_append, body.filterMap_condition?_events,
      Case.filterMap_condition?_events rest, Case.allConditions]

end

end YulBackend
