import YulBackend.Parser
import YulBackend.Proofs.Syntax.ParseTrees

namespace YulBackend

open Grammar (Pair Symbol)

/-- Why no program is built from a tree. -/
inductive BuildError
  | unexpected (context : String) (found : Symbol)
  | missing (what context : String)
  | invalidEscape (escape : String)
deriving DecidableEq, Repr

namespace Grammar.Pair

def isKeyword : Pair → Bool
  | leaf (.keyword _) _ _ => true
  | _ => false

/-- A child pair is smaller than its parent, which is what the builder's recursion goes down on. -/
theorem sizeOf_lt_of_mem_inner {pair child : Pair} (h : child ∈ pair.inner) : sizeOf child < sizeOf pair := by
  cases pair with
  | node r span inner =>
    have hlt : sizeOf child < sizeOf inner := List.sizeOf_lt_of_mem h
    rw [node.sizeOf_spec]
    omega
  | leaf _ _ _ => cases h

/-- The nodes inside a node, which are smaller than it is. -/
def inside (pair : Pair) : List {child : Pair // sizeOf child < sizeOf pair} :=
  pair.inner.attachWith _ fun _ => sizeOf_lt_of_mem_inner

/-- The nodes of a list that are no keywords. -/
def visible (pairs : List Pair) : List Pair := pairs.filter (!·.isKeyword)

/-- The nodes inside a node that are no keywords. -/
def children (pair : Pair) : List {child : Pair // sizeOf child < sizeOf pair} :=
  pair.inside.filter (!·.1.isKeyword)

end Grammar.Pair

namespace Builder

/-- The first of the remaining nodes. -/
def next {α : Type} (what context : String) : List α → Except BuildError (α × List α)
  | [] => .error (.missing what context)
  | child :: rest => .ok (child, rest)

def unescape (raw : List Char) : Except BuildError String :=
  match Escape.decode raw with
  | .ok text => .ok (String.ofList text)
  | .error escape => .error (.invalidEscape escape)

def identifier : Pair → Identifier
  | .node _ span _ => ⟨span, ""⟩
  | .leaf _ span text => ⟨span, String.ofList text⟩

def literal (pair : Pair) : Except BuildError Literal :=
  match pair with
  | .leaf .hexNumber span text => return ⟨span, .number, String.ofList text⟩
  | .leaf .decimalNumber span text => return ⟨span, .number, String.ofList text⟩
  | .leaf .boolLiteral span text => return ⟨span, .boolean, String.ofList text⟩
  | .leaf .stringLiteral span text => return ⟨span, .string, ← unescape text⟩
  | found => .error (.unexpected "literal" found.symbol)

def expression (pair : Pair) : Except BuildError Expr :=
  match pair.symbol with
  | .rule .functionCall => do
    let (callee, rest) ← next "name" "call" pair.inside
    let arguments ← rest.mapM fun argument => expression argument.1
    return .call pair.span (identifier callee.1) arguments
  | .terminal .identifier => return .identifier (identifier pair)
  | _ => return .literal (← literal pair)
termination_by sizeOf pair
decreasing_by exact argument.2

/-- What a child of a declaration adds: a name, wherever it stands, or else the value. -/
def declare (read : List Identifier × Option Expr) (child : Pair) :
    Except BuildError (List Identifier × Option Expr) :=
  match child.symbol with
  | .terminal .identifier => return (read.1 ++ [identifier child], read.2)
  | _ => return (read.1, some (← expression child))

/-- What a child of an assignment adds: a target, as long as there is no value, or else the value. -/
def assign (read : List Identifier × Option Expr) (child : Pair) :
    Except BuildError (List Identifier × Option Expr) :=
  match child.symbol, read.2 with
  | .terminal .identifier, none => return (read.1 ++ [identifier child], none)
  | _, _ => return (read.1, some (← expression child))

mutual

def block (pair : Pair) : Except BuildError Block := do
  let statements ← pair.children.mapM fun child => statement child.1
  return ⟨pair.span, statements⟩
termination_by (sizeOf pair, 0)
decreasing_by exact .left _ _ child.2

def functionDefinition (pair : Pair) : Except BuildError Stmt := do
  let (name, rest) ← next "name" "function definition" pair.children
  let (parameters, rest) ← next "parameters" "function definition" rest
  let (returns, rest) ← next "return variables" "function definition" rest
  let (body, _) ← next "body" "function definition" rest
  return .function pair.span (identifier name.1).name (parameters.1.inner.map identifier)
    (returns.1.inner.map identifier) (← block body.1)
termination_by (sizeOf pair, 0)
decreasing_by exact .left _ _ body.2

def clause (pair : Pair) : Except BuildError Case :=
  match pair.symbol with
  | .rule .caseClause => do
    let (value, rest) ← next "value" "case" pair.children
    let value ← literal value.1
    let (body, _) ← next "body" "case" rest
    return ⟨pair.span, some value, ← block body.1⟩
  | .rule .defaultClause => do
    let (body, _) ← next "body" "default" pair.children
    return ⟨pair.span, none, ← block body.1⟩
  | found => .error (.unexpected "switch case" found)
termination_by (sizeOf pair, 0)
decreasing_by all_goals exact .left _ _ body.2

def statement (pair : Pair) : Except BuildError Stmt :=
  match pair.symbol with
  | .rule .block => return .block (← block pair)
  | .rule .functionDefinition => functionDefinition pair
  | .rule .variableDeclaration => do
    let (names, value) ← (Grammar.Pair.visible pair.inner).foldlM declare ([], none)
    return .declaration pair.span names value
  | .rule .assignment => do
    let (targets, value) ← (Grammar.Pair.visible pair.inner).foldlM assign ([], none)
    match value, targets.getLast? with
    | some value, _ => return .assignment pair.span targets value
    -- The last name may have been the assigned value itself.
    | none, some last => return .assignment pair.span targets.dropLast (.identifier last)
    | none, none => .error (.missing "value" "assignment")
  | .rule .expressionStatement => do
    let (call, _) ← next "call" "expression statement" pair.children
    return .expression (← expression call.1)
  | .rule .ifStatement => do
    let (condition, rest) ← next "condition" "if" pair.children
    let condition ← expression condition.1
    let (body, _) ← next "body" "if" rest
    return .conditional pair.span condition (← block body.1)
  | .rule .switchStatement => do
    let (scrutinee, rest) ← next "expression" "switch" pair.children
    let scrutinee ← expression scrutinee.1
    let cases ← rest.mapM fun child => clause child.1
    return .switch pair.span scrutinee cases
  | .rule .forLoop => do
    let (pre, rest) ← next "init block" "for" pair.children
    let pre ← block pre.1
    let (condition, rest) ← next "condition" "for" rest
    let condition ← expression condition.1
    let (post, rest) ← next "post block" "for" rest
    let post ← block post.1
    let (body, _) ← next "body" "for" rest
    return .loop pair.span pre condition post (← block body.1)
  | .rule .breakStatement => return .break pair.span
  | .rule .continueStatement => return .continue pair.span
  | .rule .leaveStatement => return .leave pair.span
  | found => .error (.unexpected "statement" found)
termination_by (sizeOf pair, 1)
decreasing_by
  all_goals first
    | exact .right _ Nat.zero_lt_one
    | exact .left _ _ (Subtype.property (p := fun child => sizeOf child < sizeOf pair) _)

end

end Builder

/-- The program of a tree: its block. -/
def buildProgram (pairs : List Pair) : Except BuildError Block :=
  match pairs.find? (·.symbol = .rule .block) with
  | some pair => Builder.block pair
  | none => .error (.missing "block" "program")

namespace Grammar.Pair

/-- The word for a name. -/
def ofName (name : Identifier) : Pair := .leaf .identifier name.span name.name.toList

@[simp]
theorem visible_nil : visible [] = [] := rfl

@[simp]
theorem visible_keyword (word : Keyword) (span : Span) (text : List Char) (pairs : List Pair) :
    visible (.leaf (.keyword word) span text :: pairs) = visible pairs := rfl

theorem visible_cons {pair : Pair} (h : pair.isKeyword = false) (pairs : List Pair) :
    visible (pair :: pairs) = pair :: visible pairs :=
  List.filter_cons_of_pos (by simp [h])

theorem visible_map_ofName (names : List Identifier) (pairs : List Pair) :
    visible (names.map ofName ++ pairs) = names.map ofName ++ visible pairs := by
  rw [visible, List.filter_append, List.filter_eq_self.2 (by simp [ofName, isKeyword]), visible]

theorem map_val_inside (pair : Pair) : pair.inside.map (·.1) = pair.inner :=
  List.attachWith_map_subtype_val _

/-- Forgetting the size bounds of a node's children gives its visible pairs. -/
theorem map_val_children (r : Rule) (span : Span) {inner pairs : List Pair} (h : visible inner = pairs) :
    (node r span inner).children.map (·.1) = pairs := by
  have hinside : (node r span inner).inside.map (·.1) = inner := map_val_inside _
  have hfilter := congrArg visible hinside
  rw [visible, List.filter_map] at hfilter
  exact hfilter.trans h

end Grammar.Pair

namespace Builder

open Grammar.Pair (ofName visible map_val_inside map_val_children)

variable {p : Pair → Prop} {children : List {child : Pair // p child}} {span : Span} {inner pairs rest : List Pair}
  {names : List Identifier} {pair first second third fourth : Pair}

/-- Children with a known first pair are taken apart into that pair with its bound and the others. -/
theorem exists_first (h : children.map (·.1) = first :: rest) :
    ∃ hfirst others, children = ⟨first, hfirst⟩ :: others ∧ others.map (·.1) = rest := by
  obtain ⟨⟨_, hfirst⟩, others, rfl, rfl, hrest⟩ := List.map_eq_cons_iff.1 h
  exact ⟨hfirst, others, rfl, hrest⟩

theorem mapM_val {α : Type} (build : Pair → Except BuildError α) (h : children.map (·.1) = pairs) :
    children.mapM (fun child => build child.1) = pairs.mapM build := by
  rw [← h, List.mapM_map]
  rfl

@[simp]
theorem identifier_ofName (name : Identifier) : identifier (ofName name) = name := by
  rw [ofName, identifier, String.ofList_toList]

theorem map_identifier_ofName (names : List Identifier) : (names.map ofName).map identifier = names := by
  simp [Function.comp_def]

/-- A call node is built from its name leaf and by building every argument in order. -/
theorem expression_call (callee : Identifier) (arguments : List Pair) :
    expression (.node .functionCall span (ofName callee :: arguments)) = (do
      let arguments ← arguments.mapM expression
      return .call span callee arguments) := by
  have hinner := map_val_inside (.node .functionCall span (ofName callee :: arguments))
  obtain ⟨_, others, hinside, hothers⟩ := exists_first hinner
  rw [expression, ← mapM_val expression hothers]
  simp only [Grammar.Pair.symbol, hinside, next]
  simp only [bind, Except.bind, identifier_ofName, Grammar.Pair.span]

theorem block_node : block (.node .block span inner) = (do
    let statements ← (visible inner).mapM statement
    return ⟨span, statements⟩) := by
  rw [block, mapM_val statement (map_val_children .block span rfl)]
  rfl

theorem statement_block (h : pair.symbol = .rule .block) : statement pair = (do return .block (← block pair)) := by
  rw [statement, h]

/-- A function node with its four visible children is built from the name, the two name lists and the body. -/
theorem statement_function (h : visible inner = [first, second, third, fourth]) :
    statement (.node .functionDefinition span inner) = (do
      let body ← block fourth
      return .function span (identifier first).name (second.inner.map identifier) (third.inner.map identifier)
        body) := by
  obtain ⟨_, _, hchildren, h₂⟩ := exists_first (map_val_children .functionDefinition span h)
  obtain ⟨_, _, rfl, h₃⟩ := exists_first h₂
  obtain ⟨_, _, rfl, h₄⟩ := exists_first h₃
  obtain ⟨_, _, rfl, -⟩ := exists_first h₄
  rw [statement]
  simp only [Grammar.Pair.symbol]
  rw [functionDefinition, hchildren]
  rfl

/-- The fold over identifier children declares each of them and leaves the value alone. -/
theorem foldlM_declare (names declared : List Identifier) (value : Option Expr) :
    (names.map ofName).foldlM declare (declared, value) = .ok (declared ++ names, value) := by
  induction names generalizing declared with
  | nil => simp [pure, Except.pure]
  | cons name names ih =>
    rw [List.map_cons, List.foldlM_cons]
    have hname : declare (declared, value) (ofName name) = .ok (declared ++ [identifier (ofName name)], value) := rfl
    rw [hname, identifier_ofName]
    exact (ih (declared ++ [name])).trans (by rw [List.append_assoc, List.singleton_append])

/-- The fold over identifier children collects each of them as a target while no value is there. -/
theorem foldlM_assign (names targets : List Identifier) :
    (names.map ofName).foldlM assign (targets, none) = .ok (targets ++ names, none) := by
  induction names generalizing targets with
  | nil => simp [pure, Except.pure]
  | cons name names ih =>
    rw [List.map_cons, List.foldlM_cons]
    have hname : assign (targets, none) (ofName name) = .ok (targets ++ [identifier (ofName name)], none) := rfl
    rw [hname, identifier_ofName]
    exact (ih (targets ++ [name])).trans (by rw [List.append_assoc, List.singleton_append])

/-- A declaration node with identifier children only declares them all without a value, the initialiser included. -/
theorem statement_declaration (h : visible inner = names.map ofName) :
    statement (.node .variableDeclaration span inner) = .ok (.declaration span names none) := by
  rw [statement]
  simp only [Grammar.Pair.symbol, Grammar.Pair.inner, h, foldlM_declare]
  rfl

theorem expression_of_symbol (h : pair.symbol = .terminal .identifier) :
    expression pair = .ok (.identifier (identifier pair)) := by
  rw [expression, h]
  rfl

/-- Only a word for a name is built into a name. -/
theorem symbol_of_expression {name : Identifier} (h : expression pair = .ok (.identifier name)) :
    pair.symbol = .terminal .identifier := by
  rw [expression] at h
  split at h
  · simp only [bind, Except.bind] at h
    split at h
    · cases h
    · split at h <;> cases h
  next hsymbol => exact hsymbol
  · simp only [bind, Except.bind] at h
    split at h <;> cases h

/-- An initialiser that is a bare name is built like a declared name. -/
theorem statement_initialised (h : visible inner = names.map ofName ++ [first]) :
    statement (.node .variableDeclaration span inner) = (do
      let value ← expression first
      return Parser.declaration span names (some value)) := by
  rw [statement]
  simp only [Grammar.Pair.symbol, Grammar.Pair.inner, h, List.foldlM_append, foldlM_declare]
  by_cases hsymbol : first.symbol = .terminal .identifier
  · simp [declare, expression_of_symbol, hsymbol, Parser.declaration, Grammar.Pair.span, bind, Except.bind, pure,
      Except.pure]
  · cases hvalue : expression first with
    | error e => simp [declare, hvalue, bind, Except.bind]
    | ok value =>
      have hjoin : Parser.declaration span names (some value) = .declaration span names (some value) := by
        cases value with
        | identifier name => exact absurd (symbol_of_expression hvalue) hsymbol
        | literal _ => rfl
        | call _ _ _ => rfl
      simp [declare, hvalue, hjoin, bind, Except.bind, pure, Except.pure, Grammar.Pair.span]

/-- A bare name that is assigned is built like a target first. -/
theorem statement_assignment (h : visible inner = names.map ofName ++ [first]) :
    statement (.node .assignment span inner) = (do
      let value ← expression first
      return .assignment span names value) := by
  rw [statement]
  simp only [Grammar.Pair.symbol, Grammar.Pair.inner, h, List.foldlM_append, foldlM_assign]
  by_cases hsymbol : first.symbol = .terminal .identifier
  · simp [assign, expression_of_symbol, hsymbol, bind, Except.bind, pure, Except.pure, Grammar.Pair.span]
  · cases hvalue : expression first with
    | error e => simp [assign, hsymbol, hvalue, bind, Except.bind]
    | ok value => simp [assign, hsymbol, hvalue, bind, Except.bind, pure, Except.pure, Grammar.Pair.span]

/-- An `if` node is built from its condition and body. -/
theorem statement_if (h : visible inner = [first, second]) : statement (.node .ifStatement span inner) = (do
    let condition ← expression first
    let body ← block second
    return .conditional span condition body) := by
  obtain ⟨_, _, hchildren, h₂⟩ := exists_first (map_val_children _ span h)
  obtain ⟨_, _, rfl, -⟩ := exists_first h₂
  rw [statement]
  simp only [Grammar.Pair.symbol]
  rw [hchildren]
  rfl

/-- A `switch` node is built from its scrutinee and by building every clause in order. -/
theorem statement_switch (h : visible inner = first :: rest) : statement (.node .switchStatement span inner) = (do
    let scrutinee ← expression first
    let cases ← rest.mapM clause
    return .switch span scrutinee cases) := by
  obtain ⟨_, others, hchildren, hothers⟩ := exists_first (map_val_children _ span h)
  rw [statement, ← mapM_val clause hothers]
  simp only [Grammar.Pair.symbol]
  rw [hchildren]
  rfl

/-- A `for` node is built from its initialisation, condition, post block and body. -/
theorem statement_for (h : visible inner = [first, second, third, fourth]) :
    statement (.node .forLoop span inner) = (do
      let pre ← block first
      let condition ← expression second
      let post ← block third
      let body ← block fourth
      return .loop span pre condition post body) := by
  obtain ⟨_, _, hchildren, h₂⟩ := exists_first (map_val_children .forLoop span h)
  obtain ⟨_, _, rfl, h₃⟩ := exists_first h₂
  obtain ⟨_, _, rfl, h₄⟩ := exists_first h₃
  obtain ⟨_, _, rfl, -⟩ := exists_first h₄
  rw [statement]
  simp only [Grammar.Pair.symbol]
  rw [hchildren]
  rfl

/-- An expression statement node is built from its one expression. -/
theorem statement_expression (h : visible inner = [first]) : statement (.node .expressionStatement span inner) = (do
    return .expression (← expression first)) := by
  obtain ⟨_, others, hchildren, -⟩ := exists_first (map_val_children _ span h)
  rw [statement]
  simp only [Grammar.Pair.symbol]
  rw [hchildren]
  rfl

/-- A case node is built from its literal and body. -/
theorem clause_case (h : visible inner = [first, second]) : clause (.node .caseClause span inner) = (do
    let value ← literal first
    let body ← block second
    return ⟨span, some value, body⟩) := by
  obtain ⟨_, _, hchildren, h₂⟩ := exists_first (map_val_children _ span h)
  obtain ⟨_, _, rfl, -⟩ := exists_first h₂
  rw [clause]
  simp only [Grammar.Pair.symbol]
  rw [hchildren]
  rfl

/-- A default node is built from its body alone. -/
theorem clause_default (h : visible inner = [first]) : clause (.node .defaultClause span inner) = (do
    let body ← block first
    return ⟨span, none, body⟩) := by
  obtain ⟨_, others, hchildren, -⟩ := exists_first (map_val_children _ span h)
  rw [clause]
  simp only [Grammar.Pair.symbol]
  rw [hchildren]
  rfl

end Builder

end YulBackend
