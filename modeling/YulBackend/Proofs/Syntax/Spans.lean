import YulBackend.Parser

namespace YulBackend

/-- The same name, read from nowhere. Two trees are equal up to spans if they agree once every span
is erased. -/
def Identifier.eraseSpan (name : Identifier) : Identifier := { name with span := {} }

def Literal.eraseSpan (value : Literal) : Literal := { value with span := {} }

mutual

def Expr.eraseSpans : Expr → Expr
  | .call _ callee arguments => .call {} callee.eraseSpan (Expr.eraseAll arguments)
  | .identifier name => .identifier name.eraseSpan
  | .literal value => .literal value.eraseSpan

def Expr.eraseAll : List Expr → List Expr
  | [] => []
  | e :: rest => e.eraseSpans :: Expr.eraseAll rest

end

mutual

def Stmt.eraseSpans : Stmt → Stmt
  | .expression value => .expression value.eraseSpans
  | .assignment _ targets value => .assignment {} (targets.map (·.eraseSpan)) value.eraseSpans
  | .declaration _ declared value =>
    .declaration {} (declared.map (·.eraseSpan)) (value.map (·.eraseSpans))
  | .function _ name parameters returns body =>
    .function {} name (parameters.map (·.eraseSpan)) (returns.map (·.eraseSpan)) body.eraseSpans
  | .conditional _ condition body => .conditional {} condition.eraseSpans body.eraseSpans
  | .switch _ scrutinee cases => .switch {} scrutinee.eraseSpans (Case.eraseAll cases)
  | .loop _ pre condition post body =>
    .loop {} pre.eraseSpans condition.eraseSpans post.eraseSpans body.eraseSpans
  | .break _ => .break {}
  | .continue _ => .continue {}
  | .leave _ => .leave {}
  | .block body => .block body.eraseSpans

def Block.eraseSpans : Block → Block
  | ⟨_, statements⟩ => ⟨{}, Stmt.eraseAll statements⟩

def Stmt.eraseAll : List Stmt → List Stmt
  | [] => []
  | s :: rest => s.eraseSpans :: Stmt.eraseAll rest

def Case.eraseAll : List Case → List Case
  | [] => []
  | ⟨_, value, body⟩ :: rest =>
    ⟨{}, value.map (·.eraseSpan), body.eraseSpans⟩ :: Case.eraseAll rest

end

def Expr.isBareName : Expr → Bool
  | .identifier _ => true
  | _ => false

mutual

/-- Whether some declaration in a statement takes its value from a bare name. -/
def Stmt.hasBareInitialiser : Stmt → Bool
  | .declaration _ _ (some value) => value.isBareName
  | .function _ _ _ _ body => body.hasBareInitialiser
  | .conditional _ _ body => body.hasBareInitialiser
  | .switch _ _ cases => Case.anyBareInitialiser cases
  | .loop _ pre _ post body =>
    pre.hasBareInitialiser || post.hasBareInitialiser || body.hasBareInitialiser
  | .block body => body.hasBareInitialiser
  | _ => false

def Block.hasBareInitialiser : Block → Bool
  | ⟨_, statements⟩ => Stmt.anyBareInitialiser statements

def Stmt.anyBareInitialiser : List Stmt → Bool
  | [] => false
  | s :: rest => s.hasBareInitialiser || Stmt.anyBareInitialiser rest

def Case.anyBareInitialiser : List Case → Bool
  | [] => false
  | ⟨_, _, body⟩ :: rest => body.hasBareInitialiser || Case.anyBareInitialiser rest

end

mutual

/-- A statement in which every bare name that initialises has joined the declared names. -/
def Stmt.joinInitialisers : Stmt → Stmt
  | .declaration span declared value => Parser.declaration span declared value
  | .function span name parameters returns body =>
    .function span name parameters returns body.joinInitialisers
  | .conditional span condition body => .conditional span condition body.joinInitialisers
  | .switch span scrutinee cases => .switch span scrutinee (Case.joinAll cases)
  | .loop span pre condition post body =>
    .loop span pre.joinInitialisers condition post.joinInitialisers body.joinInitialisers
  | .block body => .block body.joinInitialisers
  | .expression value => .expression value
  | .assignment span targets value => .assignment span targets value
  | .break span => .break span
  | .continue span => .continue span
  | .leave span => .leave span

def Block.joinInitialisers : Block → Block
  | ⟨span, statements⟩ => ⟨span, Stmt.joinAll statements⟩

def Stmt.joinAll : List Stmt → List Stmt
  | [] => []
  | s :: rest => s.joinInitialisers :: Stmt.joinAll rest

def Case.joinAll : List Case → List Case
  | [] => []
  | ⟨span, value, body⟩ :: rest => ⟨span, value, body.joinInitialisers⟩ :: Case.joinAll rest

end

/-- `declaration` keeps what it is given, up to spans, if and only if the initialiser is no bare name. -/
theorem Parser.eraseSpans_declaration_eq_iff (span : Span) (declared : List Identifier) (value : Option Expr) :
    (Parser.declaration span declared value).eraseSpans =
        (Stmt.declaration span declared value).eraseSpans ↔
      (Stmt.declaration span declared value).hasBareInitialiser = false := by
  cases value with
  | none => simp [Parser.declaration, Stmt.hasBareInitialiser]
  | some value =>
    cases value <;> simp [Parser.declaration, Stmt.hasBareInitialiser, Stmt.eraseSpans, Expr.isBareName]

theorem Parser.eraseSpans_declaration_congr {span span' : Span} {names names' : List Identifier}
    {value value' : Expr} (hnames : names.map Identifier.eraseSpan = names'.map Identifier.eraseSpan)
    (hvalue : value.eraseSpans = value'.eraseSpans) :
    (Parser.declaration span names (some value)).eraseSpans =
      (Parser.declaration span' names' (some value')).eraseSpans := by
  cases value <;> cases value' <;> simp_all [Parser.declaration, Stmt.eraseSpans, Expr.eraseSpans]

mutual

/-- Joining changes a tree, spans apart, exactly if there is something to join. -/
theorem Stmt.eraseSpans_joinInitialisers_eq_iff :
    ∀ s : Stmt, s.joinInitialisers.eraseSpans = s.eraseSpans ↔ s.hasBareInitialiser = false
  | .declaration span declared value => by
    rw [Stmt.joinInitialisers]
    exact Parser.eraseSpans_declaration_eq_iff span declared value
  | .function _ _ _ _ body => by
    simp [Stmt.joinInitialisers, Stmt.eraseSpans, Stmt.hasBareInitialiser,
      body.eraseSpans_joinInitialisers_eq_iff]
  | .conditional _ _ body => by
    simp [Stmt.joinInitialisers, Stmt.eraseSpans, Stmt.hasBareInitialiser,
      body.eraseSpans_joinInitialisers_eq_iff]
  | .switch _ _ cases => by
    simp [Stmt.joinInitialisers, Stmt.eraseSpans, Stmt.hasBareInitialiser, Case.eraseAll_joinAll_eq_iff cases]
  | .loop _ pre _ post body => by
    simp [Stmt.joinInitialisers, Stmt.eraseSpans, Stmt.hasBareInitialiser,
      pre.eraseSpans_joinInitialisers_eq_iff, post.eraseSpans_joinInitialisers_eq_iff,
      body.eraseSpans_joinInitialisers_eq_iff, and_assoc]
  | .block body => by
    simp [Stmt.joinInitialisers, Stmt.eraseSpans, Stmt.hasBareInitialiser,
      body.eraseSpans_joinInitialisers_eq_iff]
  | .expression _ => by simp [Stmt.joinInitialisers, Stmt.hasBareInitialiser]
  | .assignment _ _ _ => by simp [Stmt.joinInitialisers, Stmt.hasBareInitialiser]
  | .break _ => by simp [Stmt.joinInitialisers, Stmt.hasBareInitialiser]
  | .continue _ => by simp [Stmt.joinInitialisers, Stmt.hasBareInitialiser]
  | .leave _ => by simp [Stmt.joinInitialisers, Stmt.hasBareInitialiser]

/-- Joining initialisers changes a block, up to spans, if and only if the block has a bare one. -/
theorem Block.eraseSpans_joinInitialisers_eq_iff :
    ∀ b : Block, b.joinInitialisers.eraseSpans = b.eraseSpans ↔ b.hasBareInitialiser = false
  | ⟨_, statements⟩ => by
    simp [Block.joinInitialisers, Block.eraseSpans, Block.hasBareInitialiser,
      Stmt.eraseAll_joinAll_eq_iff statements]

/-- Joining initialisers changes statements in a row if and only if one of them has a bare one. -/
theorem Stmt.eraseAll_joinAll_eq_iff :
    ∀ ss : List Stmt, Stmt.eraseAll (Stmt.joinAll ss) = Stmt.eraseAll ss ↔
      Stmt.anyBareInitialiser ss = false
  | [] => by simp [Stmt.joinAll, Stmt.anyBareInitialiser]
  | s :: rest => by
    simp [Stmt.joinAll, Stmt.eraseAll, Stmt.anyBareInitialiser, s.eraseSpans_joinInitialisers_eq_iff,
      Stmt.eraseAll_joinAll_eq_iff rest]

/-- Joining initialisers changes clauses if and only if one of them has a bare one. -/
theorem Case.eraseAll_joinAll_eq_iff :
    ∀ cs : List Case, Case.eraseAll (Case.joinAll cs) = Case.eraseAll cs ↔
      Case.anyBareInitialiser cs = false
  | [] => by simp [Case.joinAll, Case.anyBareInitialiser]
  | ⟨_, _, body⟩ :: rest => by
    simp [Case.joinAll, Case.eraseAll, Case.anyBareInitialiser, body.eraseSpans_joinInitialisers_eq_iff,
      Case.eraseAll_joinAll_eq_iff rest]

end

end YulBackend
