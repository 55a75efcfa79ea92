import YulBackend.Proofs.Syntax.Names

namespace YulBackend

/-- Where a block stands in another, from the inside out: the number of the statement that it belongs to, and
which of its blocks it is. -/
abbrev Path := List (Nat × Nat)

/-- Where a statement stands: its block, and its number in there. -/
structure Position where
  path : Path
  index : Nat
deriving DecidableEq

/-- Where a block of a statement stands. -/
def Position.inside (p : Position) (block : Nat) : Path := (p.index, block) :: p.path

/-- What a name refers to: a variable that is declared at a position, or a parameter or a return variable of
the function that is defined there. -/
inductive Binder
  | declared (p : Position)
  | parameter (p : Position)
  | result (p : Position)
deriving DecidableEq

/-- What visible names refer to, innermost first. -/
abbrev Scope := List (String × Binder)

namespace Scope

/-- The visible names. -/
def names (scope : Scope) : List String := scope.map (·.1)

/-- The scope in a function at a position. -/
def ofFunction (p : Position) (parameters returns : List Identifier) : Scope :=
  parameters.map (fun name => (name.name, .parameter p)) ++
    returns.map (fun name => (name.name, .result p))

end Scope

namespace Stmt

/-- What a statement at a position adds to the scope that it stands in. -/
def binders (p : Position) : Stmt → Scope
  | .declaration _ declared _ => declared.map fun name => (name.name, .declared p)
  | _ => []

/-- The scope behind statements of the block at a path, of which the first has this number. -/
def allBinders (path : Path) (scope : Scope) : Nat → List Stmt → Scope
  | _, [] => scope
  | index, s :: rest => allBinders path (s.binders ⟨path, index⟩ ++ scope) (index + 1) rest

/-- The blocks of a statement, each with the scope in it. -/
def blocks (p : Position) (scope : Scope) : Stmt → List (Block × Scope)
  | .function _ _ parameters returns body => [(body, .ofFunction p parameters returns)]
  | .conditional _ _ body | .block body => [(body, scope)]
  | .switch _ _ cases => cases.map fun c => (c.body, scope)
  | .loop _ pre _ post body =>
    let inner := allBinders (p.inside 0) scope 0 pre.statements
    [(pre, scope), (body, inner), (post, inner)]
  | .expression _ | .assignment .. | .declaration .. | .break _ | .continue _ | .leave _ => []

end Stmt

namespace Block

/-- A statement of a block, and the scope that it stands in. -/
def statement? (b : Block) (path : Path) (scope : Scope) (index : Nat) : Option (Stmt × Scope) := do
  let s ← b.statements[index]?
  return (s, Stmt.allBinders path scope 0 (b.statements.take index))

/-- The block at a path, and the scope in it. -/
def descend (b : Block) : Path → Option (Block × Scope)
  | [] => some (b, [])
  | (index, block) :: outer => do
    let (inner, scope) ← b.descend outer
    let (s, scope) ← inner.statement? outer scope index
    (s.blocks ⟨outer, index⟩ scope)[block]?

/-- The statement at a position, and the scope that it stands in. -/
def find? (b : Block) (p : Position) : Option (Stmt × Scope) := do
  let (inner, scope) ← b.descend p.path
  inner.statement? p.path scope p.index

end Block

/-- What a walk over a block comes by. -/
inductive Event
  | enter (p : Position) (s : Stmt)
  | exit (p : Position) (s : Stmt)

mutual

/-- What a walk comes by in the blocks of a statement. -/
def Stmt.innerEvents (p : Position) : Stmt → List Event
  | .function _ _ _ _ body | .conditional _ _ body | .block body => body.events (p.inside 0)
  | .switch _ _ cases => Case.allEvents p 0 cases
  | .loop _ pre _ post body =>
    pre.events (p.inside 0) ++ (body.events (p.inside 1) ++ post.events (p.inside 2))
  | .expression _ | .assignment .. | .declaration .. | .break _ | .continue _ | .leave _ => []

def Block.events (path : Path) : Block → List Event
  | ⟨_, statements⟩ => Stmt.allEvents path 0 statements

def Stmt.allEvents (path : Path) (index : Nat) : List Stmt → List Event
  | [] => []
  | s :: rest =>
    .enter ⟨path, index⟩ s :: s.innerEvents ⟨path, index⟩ ++
      .exit ⟨path, index⟩ s :: Stmt.allEvents path (index + 1) rest

def Case.allEvents (p : Position) (block : Nat) : List Case → List Event
  | [] => []
  | ⟨_, _, body⟩ :: rest => body.events (p.inside block) ++ Case.allEvents p (block + 1) rest

end

/-- A walk comes by statements in a row one after the other, and by what is inside of each between entering and leaving
it. -/
theorem Stmt.allEvents_eq (path : Path) (index : Nat) (statements : List Stmt) :
    Stmt.allEvents path index statements = (statements.zipIdx index).flatMap fun s =>
      .enter ⟨path, s.2⟩ s.1 :: s.1.innerEvents ⟨path, s.2⟩ ++ [.exit ⟨path, s.2⟩ s.1] := by
  induction statements generalizing index with
  | nil => rfl
  | cons s rest ih => simp [Stmt.allEvents, ih]

theorem Case.allEvents_eq (p : Position) (block : Nat) (cases : List Case) :
    Case.allEvents p block cases =
      (cases.zipIdx block).flatMap fun c => c.1.body.events (p.inside c.2) := by
  induction cases generalizing block with
  | nil => rfl
  | cons c rest ih =>
    obtain ⟨_, _, body⟩ := c
    simp [Case.allEvents, ih]

/-- What a walk comes by in a block is a statement that it enters or leaves, or something inside of one. -/
theorem Block.mem_events_iff {path : Path} {event : Event} {b : Block} :
    event ∈ b.events path ↔ ∃ (index : Nat) (s : Stmt), b.statements[index]? = some s ∧
      (event = .enter ⟨path, index⟩ s ∨ event ∈ s.innerEvents ⟨path, index⟩ ∨
        event = .exit ⟨path, index⟩ s) := by
  obtain ⟨_, statements⟩ := b
  rw [Block.events, Stmt.allEvents_eq, List.mem_flatMap]
  simp only [Prod.exists, List.mem_zipIdx_iff_getElem?, List.cons_append, List.mem_cons,
    List.mem_append, List.not_mem_nil, or_false]
  exact exists_comm

/-- What a walk comes by inside a statement is what it comes by in the blocks of the statement, in their order. -/
theorem Stmt.innerEvents_eq (p : Position) (scope : Scope) (s : Stmt) :
    s.innerEvents p =
      (s.blocks p scope).zipIdx.flatMap fun inner => inner.1.1.events (p.inside inner.2) := by
  cases s with
  | switch span scrutinee cases =>
    rw [innerEvents, Case.allEvents_eq, blocks, List.zipIdx_map, List.flatMap_map]
    rfl
  | _ => simp [innerEvents, blocks]

/-- Something that a walk comes by inside a statement is in one of its blocks, whatever is in scope there. -/
theorem Stmt.mem_innerEvents_iff {p : Position} {event : Event} {s : Stmt} (scope : Scope) :
    event ∈ s.innerEvents p ↔ ∃ (block : Nat) (inner : Block × Scope),
      (s.blocks p scope)[block]? = some inner ∧ event ∈ inner.1.events (p.inside block) := by
  rw [s.innerEvents_eq p scope, List.mem_flatMap]
  simp only [Prod.exists, List.mem_zipIdx_iff_getElem?]
  exact ⟨fun ⟨b, scope, k, h⟩ => ⟨k, b, scope, h⟩, fun ⟨k, b, scope, h⟩ => ⟨b, scope, k, h⟩⟩

/-- A block of a statement is smaller than the statement, which is why following a path comes to an end. -/
theorem Stmt.sizeOf_lt_of_mem_blocks {s : Stmt} {p : Position} {scope : Scope} {inner : Block × Scope}
    (h : inner ∈ s.blocks p scope) : sizeOf inner.1 < sizeOf s := by
  cases s with
  | switch span scrutinee cases =>
    obtain ⟨⟨cspan, value, body⟩, hc, rfl⟩ := List.mem_map.1 h
    have hlt := List.sizeOf_lt_of_mem hc
    simp only [Case.mk.sizeOf_spec] at hlt
    simp only [Stmt.switch.sizeOf_spec]
    omega
  | function | conditional | block =>
    rw [List.mem_singleton.1 h]
    simp only [Stmt.function.sizeOf_spec, Stmt.conditional.sizeOf_spec, Stmt.block.sizeOf_spec]
    omega
  | loop span pre condition post body =>
    simp only [blocks, List.mem_cons, List.not_mem_nil, or_false] at h
    simp only [Stmt.loop.sizeOf_spec]
    rcases h with rfl | rfl | rfl <;> dsimp only <;> omega
  | _ => cases h

namespace Block

/-- `statement?` finds the statement at an index of a block, with the scope that the statements before it leave. -/
theorem statement?_eq_some_iff {b : Block} {path : Path} {scope scope' : Scope} {index : Nat} {s : Stmt} :
    b.statement? path scope index = some (s, scope') ↔
      b.statements[index]? = some s ∧
        Stmt.allBinders path scope 0 (b.statements.take index) = scope' := by
  rw [statement?]
  cases b.statements[index]? <;> simp

theorem find?_eq_some_iff {root : Block} {p : Position} {s : Stmt} {scope : Scope} :
    root.find? p = some (s, scope) ↔
      ∃ b outer, root.descend p.path = some (b, outer) ∧
        b.statement? p.path outer p.index = some (s, scope) := by
  simp [find?, Option.bind_eq_some_iff]

theorem descend_inside_eq_some_iff {root b : Block} {p : Position} {block : Nat} {scope : Scope} :
    root.descend (p.inside block) = some (b, scope) ↔
      ∃ s outer, root.find? p = some (s, outer) ∧ (s.blocks p outer)[block]? = some (b, scope) := by
  cases hdescend : root.descend p.path <;>
    simp [Position.inside, descend, find?, hdescend, Option.bind_eq_some_iff]

theorem sizeOf_lt_of_mem {b : Block} {s : Stmt} (h : s ∈ b.statements) : sizeOf s < sizeOf b := by
  obtain ⟨span, statements⟩ := b
  have hlt := List.sizeOf_lt_of_mem h
  simp only [Block.mk.sizeOf_spec]
  dsimp only at hlt
  omega

/-- What a walk enters stands where it enters it. -/
theorem exists_find?_of_mem_events {root b : Block} {path : Path} {outer : Scope}
    (hb : root.descend path = some (b, outer)) {p : Position} {s : Stmt} (h : .enter p s ∈ b.events path) :
    ∃ scope, root.find? p = some (s, scope) := by
  obtain ⟨index, t, ht, h⟩ := mem_events_iff.1 h
  have hfind : root.find? ⟨path, index⟩ =
      some (t, Stmt.allBinders path outer 0 (b.statements.take index)) :=
    find?_eq_some_iff.2 ⟨b, outer, hb, statement?_eq_some_iff.2 ⟨ht, rfl⟩⟩
  rcases h with h | h | h
  · cases h
    exact ⟨_, hfind⟩
  · obtain ⟨k, ⟨child, inner⟩, hchild, h⟩ := (Stmt.mem_innerEvents_iff _).1 h
    exact exists_find?_of_mem_events (descend_inside_eq_some_iff.2 ⟨t, _, hfind, hchild⟩) h
  · cases h
termination_by sizeOf b
decreasing_by
  have hstatement := sizeOf_lt_of_mem (List.mem_of_getElem? ht)
  exact Nat.lt_trans (Stmt.sizeOf_lt_of_mem_blocks (List.mem_of_getElem? hchild)) hstatement

/-- A walk enters every statement. -/
theorem mem_events_of_find? {root : Block} {p : Position} {s : Stmt} {scope : Scope}
    (h : root.find? p = some (s, scope)) : .enter p s ∈ root.events [] := by
  have hroot : ∀ {path : Path} {b : Block} {outer : Scope}, root.descend path = some (b, outer) →
      ∀ event ∈ b.events path, event ∈ root.events [] := by
    intro path
    induction path with
    | nil =>
      intro b outer hb event hevent
      cases hb
      exact hevent
    | cons step path ih =>
      intro b outer hb event hevent
      have hinside : root.descend (Position.inside ⟨path, step.1⟩ step.2) = some (b, outer) := hb
      obtain ⟨t, scope, hfind, hchild⟩ := descend_inside_eq_some_iff.1 hinside
      obtain ⟨inner, outer, hinner, hstatement⟩ := find?_eq_some_iff.1 hfind
      refine ih hinner event (mem_events_iff.2 ⟨_, t, (statement?_eq_some_iff.1 hstatement).1, ?_⟩)
      exact .inr (.inl ((Stmt.mem_innerEvents_iff scope).2 ⟨_, _, hchild, hevent⟩))
  obtain ⟨b, outer, hb, hstatement⟩ := find?_eq_some_iff.1 h
  exact hroot hb _ (mem_events_iff.2 ⟨_, s, (statement?_eq_some_iff.1 hstatement).1, .inl rfl⟩)

end Block

/-- The name is declared where the binder says. -/
def Binder.Binds (root : Block) (x : String) : Binder → Prop
  | .declared p => ∃ span declared value scope,
    root.find? p = some (.declaration span declared value, scope) ∧ x ∈ declared.map (·.name)
  | .parameter p => ∃ span name parameters returns body scope,
    root.find? p = some (.function span name parameters returns body, scope) ∧
      x ∈ parameters.map (·.name)
  | .result p => ∃ span name parameters returns body scope,
    root.find? p = some (.function span name parameters returns body, scope) ∧
      x ∈ returns.map (·.name)

/-- Every name of a scope is declared where its binder says. -/
def Scope.Binds (root : Block) (scope : Scope) : Prop :=
  ∀ x binder, (x, binder) ∈ scope → binder.Binds root x

section

variable {root : Block}

/-- In the body of a function the scope binds the names to the function's own parameters and return variables. -/
theorem Scope.binds_ofFunction {p : Position} {span : Span} {name : String}
    {parameters returns : List Identifier} {body : Block} {scope : Scope}
    (h : root.find? p = some (.function span name parameters returns body, scope)) :
    (Scope.ofFunction p parameters returns).Binds root := by
  intro x binder hx
  rcases List.mem_append.1 hx with hx | hx
  · obtain ⟨parameter, hparameter, heq⟩ := List.mem_map.1 hx
    cases heq
    exact ⟨_, _, _, _, _, _, h, List.mem_map_of_mem hparameter⟩
  · obtain ⟨result, hresult, heq⟩ := List.mem_map.1 hx
    cases heq
    exact ⟨_, _, _, _, _, _, h, List.mem_map_of_mem hresult⟩

/-- What a statement brings into scope is bound to this statement. -/
theorem Stmt.binds_binders {p : Position} {s : Stmt} {scope : Scope}
    (h : root.find? p = some (s, scope)) : Scope.Binds root (s.binders p) := by
  intro x binder hx
  cases s with
  | declaration span declared value =>
    obtain ⟨name, hname, heq⟩ := List.mem_map.1 hx
    cases heq
    exact ⟨_, _, _, _, h, List.mem_map_of_mem hname⟩
  | _ => cases hx

/-- Behind statements that are found in a block, the scope binds every name to the statement that declares it. -/
theorem Stmt.binds_allBinders {path : Path} {scope : Scope} {index : Nat} {statements : List Stmt}
    (hscope : scope.Binds root)
    (h : ∀ k s, statements[k]? = some s → ∃ outer, root.find? ⟨path, index + k⟩ = some (s, outer)) :
    Scope.Binds root (Stmt.allBinders path scope index statements) := by
  induction statements generalizing scope index with
  | nil => exact hscope
  | cons s rest ih =>
    refine ih (fun x binder hx => ?_) fun k t ht => ?_
    · rcases List.mem_append.1 hx with hx | hx
      · obtain ⟨outer, hfind⟩ := h 0 s rfl
        exact Stmt.binds_binders hfind x binder hx
      · exact hscope x binder hx
    · rw [Nat.add_right_comm]
      exact h (k + 1) t ht

/-- The scope behind the first statements of a block. -/
theorem Block.binds_allBinders {path : Path} {b : Block} {outer : Scope}
    (hb : root.descend path = some (b, outer)) (houter : outer.Binds root) {statements : List Stmt}
    (hfirst : statements <+: b.statements) :
    Scope.Binds root (Stmt.allBinders path outer 0 statements) := by
  refine Stmt.binds_allBinders houter fun k s hs => ?_
  obtain ⟨rest, hrest⟩ := hfirst
  have hstatement : b.statements[k]? = some s := by
    rw [← hrest, List.getElem?_append_left (List.getElem?_eq_some_iff.1 hs).1, hs]
  rw [Nat.zero_add]
  exact ⟨_, find?_eq_some_iff.2 ⟨b, outer, hb, statement?_eq_some_iff.2 ⟨hstatement, rfl⟩⟩⟩

/-- In every block that a path leads to, the scope binds every name to the place that declares it. The induction is on
the path. -/
theorem Block.binds_of_descend {path : Path} {b : Block} {scope : Scope}
    (h : root.descend path = some (b, scope)) : scope.Binds root := by
  induction path generalizing b scope with
  | nil =>
    cases h
    exact fun x binder hx => nomatch hx
  | cons step path ih =>
    have hinside : root.descend (Position.inside ⟨path, step.1⟩ step.2) = some (b, scope) := h
    obtain ⟨s, outer, hfind, hchild⟩ := descend_inside_eq_some_iff.1 hinside
    obtain ⟨inner, outer', hinner, hstatement⟩ := find?_eq_some_iff.1 hfind
    have houter : outer.Binds root := by
      rw [← (statement?_eq_some_iff.1 hstatement).2]
      exact binds_allBinders hinner (ih hinner) (List.take_prefix _ _)
    have hmem := List.mem_of_getElem? hchild
    cases s with
    | function span name parameters returns body =>
      cases List.mem_singleton.1 hmem
      exact Scope.binds_ofFunction hfind
    | conditional | block =>
      cases List.mem_singleton.1 hmem
      exact houter
    | switch span scrutinee cases =>
      obtain ⟨c, _, heq⟩ := List.mem_map.1 hmem
      cases heq
      exact houter
    | loop span pre condition post body =>
      -- the body and the step of a loop see what its start declares
      have hpre : root.descend (Position.inside ⟨path, step.1⟩ 0) = some (pre, outer) :=
        descend_inside_eq_some_iff.2 ⟨_, _, hfind, rfl⟩
      have hinner := binds_allBinders hpre houter List.prefix_rfl
      simp only [Stmt.blocks, List.mem_cons, List.not_mem_nil, or_false] at hmem
      rcases hmem with heq | heq | heq <;> cases heq
      · exact houter
      · exact hinner
      · exact hinner
    | _ => cases hmem

/-- At every statement that is found, the scope binds every name to the place that declares it. -/
theorem Block.binds_of_find? {p : Position} {s : Stmt} {scope : Scope}
    (h : root.find? p = some (s, scope)) : scope.Binds root := by
  obtain ⟨b, outer, hb, hstatement⟩ := find?_eq_some_iff.1 h
  rw [← (statement?_eq_some_iff.1 hstatement).2]
  exact binds_allBinders hb (binds_of_descend hb) (List.take_prefix _ _)

end

/-- A visible name refers to something. -/
theorem Scope.exists_lookup_of_mem_names {scope : Scope} {x : String} (h : x ∈ scope.names) :
    ∃ binder, scope.lookup x = some binder ∧ (x, binder) ∈ scope := by
  cases hlookup : scope.lookup x with
  | none =>
    obtain ⟨⟨y, binder⟩, hmem, rfl⟩ := List.mem_map.1 h
    simpa using List.lookup_eq_none_iff.1 hlookup _ hmem
  | some binder =>
    obtain ⟨before, after, rfl, _⟩ := List.lookup_eq_some_iff.1 hlookup
    exact ⟨binder, rfl, by simp⟩

/-- The names that a statement brings into scope are its new variables. -/
theorem Stmt.names_binders (p : Position) (s : Stmt) : (s.binders p).names = s.newVariables := by
  cases s with
  | declaration => simp [binders, Scope.names, newVariables]
  | _ => rfl

theorem Scope.names_append (scope scope' : Scope) : names (scope ++ scope') = scope.names ++ scope'.names :=
  List.map_append

/-- The names in the scope behind statements are those that `scopeAfter` has. -/
theorem Stmt.names_allBinders (path : Path) (scope : Scope) (index : Nat) (statements : List Stmt) :
    (Stmt.allBinders path scope index statements).names = Stmt.scopeAfter scope.names statements := by
  induction statements generalizing scope index with
  | nil => rfl
  | cons s rest ih => rw [allBinders, ih, Scope.names_append, names_binders, scopeAfter]

theorem Scope.names_ofFunction (p : Position) (parameters returns : List Identifier) :
    (ofFunction p parameters returns).names = (parameters ++ returns).map (·.name) := by
  simp [ofFunction, names, Function.comp_def]

/-- In clauses that are scoped, every body is. -/
theorem Case.isScoped_of_mem {visible : List String} {cases : List Case} (h : Case.allScoped visible cases)
    {c : Case} (hc : c ∈ cases) : c.body.isScoped visible := by
  induction cases with
  | nil => cases hc
  | cons first rest ih =>
    obtain ⟨_, _, body⟩ := first
    rw [Case.allScoped, Bool.and_eq_true] at h
    rcases List.mem_cons.1 hc with rfl | hc
    · exact h.1
    · exact ih h.2 hc

/-- In statements that are scoped, each is scoped behind the ones before it. -/
theorem Stmt.isScoped_of_getElem? {visible : List String} {statements : List Stmt}
    (h : Stmt.allScoped visible statements) {index : Nat} {s : Stmt} (hs : statements[index]? = some s) :
    s.isScoped (Stmt.scopeAfter visible (statements.take index)) := by
  induction statements generalizing visible index with
  | nil => cases hs
  | cons first rest ih =>
    rw [Stmt.allScoped, Bool.and_eq_true] at h
    cases index with
    | zero =>
      cases hs
      exact h.1
    | succ index => exact ih h.2 hs

/-- In a statement that is scoped, every block is, with the scope that the statement opens for it. -/
theorem Stmt.isScoped_of_mem_blocks {s : Stmt} {p : Position} {scope : Scope} (h : s.isScoped scope.names)
    {inner : Block × Scope} (hinner : inner ∈ s.blocks p scope) : inner.1.isScoped inner.2.names := by
  cases s with
  | function span name parameters returns body =>
    rw [List.mem_singleton.1 hinner, Scope.names_ofFunction]
    exact h
  | conditional span condition body =>
    rw [isScoped, Bool.and_eq_true] at h
    rw [List.mem_singleton.1 hinner]
    exact h.2
  | block body =>
    rw [List.mem_singleton.1 hinner]
    exact h
  | switch span scrutinee cases =>
    obtain ⟨c, hc, rfl⟩ := List.mem_map.1 hinner
    rw [isScoped, Bool.and_eq_true] at h
    exact Case.isScoped_of_mem h.2 hc
  | loop span pre condition post body =>
    simp only [isScoped, Bool.and_eq_true] at h
    obtain ⟨⟨⟨hpre, _⟩, hbody⟩, hpost⟩ := h
    rw [← names_allBinders (p.inside 0) scope 0] at hbody hpost
    simp only [Stmt.blocks, List.mem_cons, List.not_mem_nil, or_false] at hinner
    rcases hinner with rfl | rfl | rfl
    · exact hpre
    · exact hbody
    · exact hpost
  | _ => cases hinner

namespace Block

variable {root : Block}

/-- A statement that is found in a scoped block is scoped where it stands. -/
theorem isScoped_statement {b : Block} {path : Path} {outer scope : Scope} {index : Nat} {s : Stmt}
    (hb : b.isScoped outer.names) (h : b.statement? path outer index = some (s, scope)) :
    s.isScoped scope.names := by
  obtain ⟨hs, rfl⟩ := statement?_eq_some_iff.1 h
  obtain ⟨span, statements⟩ := b
  rw [Stmt.names_allBinders]
  exact Stmt.isScoped_of_getElem? hb hs

/-- A block that is found in a scoped block is scoped where it stands. -/
theorem isScoped_of_descend (hroot : root.isScoped []) {path : Path} {b : Block} {scope : Scope}
    (h : root.descend path = some (b, scope)) : b.isScoped scope.names := by
  induction path generalizing b scope with
  | nil =>
    cases h
    exact hroot
  | cons step path ih =>
    have hinside : root.descend (Position.inside ⟨path, step.1⟩ step.2) = some (b, scope) := h
    obtain ⟨s, outer, hfind, hchild⟩ := descend_inside_eq_some_iff.1 hinside
    obtain ⟨inner, outer', hinner, hstatement⟩ := find?_eq_some_iff.1 hfind
    exact Stmt.isScoped_of_mem_blocks (isScoped_statement (ih hinner) hstatement)
      (List.mem_of_getElem? hchild)

/-- A statement of a block in which every name is visible where it is used reads and assigns names of its
scope only. -/
theorem isScoped_of_find? (hroot : root.isScoped []) {p : Position} {s : Stmt} {scope : Scope}
    (h : root.find? p = some (s, scope)) : s.isScoped scope.names := by
  obtain ⟨b, outer, hb, hstatement⟩ := find?_eq_some_iff.1 h
  exact isScoped_statement (isScoped_of_descend hroot hb) hstatement

end Block

end YulBackend
