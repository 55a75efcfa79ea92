import Mathlib
import YulBackend.Optimizer.ConstantConditions
import YulBackend.Proofs.Optimizer.Encoding
import YulBackend.Proofs.Optimizer.SingleAssignment

namespace YulBackend

/-- A name is read in an expression. -/
inductive Expr.Mentions (x : String) : Expr → Prop
  | identifier {name : Identifier} (h : name.name = x) : Mentions x (.identifier name)
  | argument {span : Span} {callee : Identifier} {arguments : List Expr} {a : Expr} (ha : a ∈ arguments)
      (h : Mentions x a) : Mentions x (.call span callee arguments)

/-- Each of some scoped arguments is scoped. -/
theorem Expr.isScoped_of_mem {visible : List String} {es : List Expr} (h : Expr.allScoped visible es) {e : Expr}
    (he : e ∈ es) : e.isScoped visible := by
  induction es with
  | nil => cases he
  | cons first rest ih =>
    rw [Expr.allScoped, Bool.and_eq_true] at h
    rcases List.mem_cons.1 he with rfl | he
    · exact h.1
    · exact ih h.2 he

theorem Expr.Mentions.mem {x : String} {e : Expr} (hx : e.Mentions x) {visible : List String}
    (h : e.isScoped visible) : x ∈ visible := by
  induction hx with
  | identifier hname => simpa [Expr.isScoped, hname] using h
  | argument ha _ ih => exact ih (Expr.isScoped_of_mem h ha)

/-- A walk comes by the declaration of one variable with a value. -/
def Event.Initialises (x : String) (event : Event) : Prop :=
  ∃ p span name value, event = .enter p (.declaration span [name] (some value)) ∧ name.name = x

theorem Event.Initialises.unique {x y : String} {event : Event} (h : event.Initialises x)
    (h' : event.Initialises y) : y = x := by
  obtain ⟨p, span, name, value, rfl, rfl⟩ := h
  obtain ⟨p', span', name', value', heq, rfl⟩ := h'
  cases heq
  rfl

namespace Encoder

variable {σ : Type} (encoder : Encoder σ)

/-- The prover variable that a name is read as, if it is read as one that is bound. -/
def resolve? (c : Encoding σ) (x : String) : Option Formula :=
  if encoder.tracked x then c.bindings.get? x else none

/-- Encoding a variable takes the prover variable its name resolves to, and draws a fresh one where it resolves to
none. -/
theorem encode_identifier (name : Identifier) (c : Encoding σ) :
    encoder.encode (.identifier name) c =
      match encoder.resolve? c name.name with
      | some bound => (bound, c)
      | none => encoder.freshVariable c := by
  rw [encode, resolve?]
  refine (StateM.bind_apply _ _ _).trans ?_
  change (match c.bindings.get? name.name with | some bound => _ | none => _ : StateM _ Formula) c = _
  cases c.bindings.get? name.name with
  | none => rw [ite_self]
  | some bound =>
    dsimp only
    split <;> rfl

mutual

/-- What names are read as stays the same all through an expression. -/
theorem bindings_encode : ∀ (e : Expr) (c : Encoding σ), (encoder.encode e c).2.bindings = c.bindings
  | .call _ callee arguments, c => by
    rw [encode]
    cases encoder.dialect.instruction? callee.name with
    | none => rfl
    | some instruction =>
      have harguments := bindings_encodeAll arguments c
      dsimp only
      rw [StateM.bind_apply]
      cases model? instruction (encoder.encodeAll arguments c).1 with
      | none => exact harguments
      | some f => exact harguments
  | .identifier name, c => by
    rw [encode_identifier]
    split <;> rfl
  | .literal value, c => by
    rw [encode]
    cases value.word <;> rfl

/-- Encoding arguments binds nothing. -/
theorem bindings_encodeAll : ∀ (es : List Expr) (c : Encoding σ),
    (encoder.encodeAll es c).2.bindings = c.bindings
  | [], c => by
    rw [encodeAll]
    rfl
  | e :: rest, c => by
    rw [encodeAll, StateM.bind_apply, StateM.bind_apply]
    exact (bindings_encodeAll rest _).trans (bindings_encode e c)

end

end Encoder

namespace ConstantConditions

variable {σ : Type} (encoder : Encoder σ)

/-- What a walk does at an `if` before it goes into the body. -/
def enterConditional (condition : Expr) : Walk σ Expr := do
  let formula ← encodingStep (encoder.encode condition)
  let neverZero ← ask (encoder.prover.refutes (.eq formula (.int 0)))
  let alwaysZero ← ask (encoder.prover.refutes (.notEq formula (.int 0)))
  let condition ← decide condition neverZero alwaysZero
  ask encoder.prover.push
  ask (encoder.prover.assert (.notEq formula (.int 0)))
  return condition

/-- The state of a walk after an event. -/
def perform (state : State σ) : Event → State σ
  | .enter _ (.declaration _ declared value) => (visitDeclaration encoder declared value state).2
  | .enter _ (.conditional _ condition _) => (enterConditional encoder condition state).2
  | .exit _ (.conditional ..) => (ask encoder.prover.pop state).2
  | _ => state

/-- The state of a walk after events, one after the other. -/
def performAll (state : State σ) (events : List Event) : State σ := events.foldl (perform encoder) state

theorem performAll_append (state : State σ) (events events' : List Event) :
    performAll encoder state (events ++ events') =
      performAll encoder (performAll encoder state events) events' :=
  List.foldl_append

theorem performAll_around (state : State σ) (p : Position) (s : Stmt) (events : List Event) :
    performAll encoder state (.enter p s :: events ++ [.exit p s]) =
      perform encoder (performAll encoder (perform encoder state (.enter p s)) events) (.exit p s) := by
  simp [performAll]

mutual

/-- Visiting a statement is performing its events in order. The induction is on the statement. -/
theorem visitStmt_eq_performAll : ∀ (s : Stmt) (p : Position) (state : State σ),
    (visitStmt encoder s state).2 =
      performAll encoder state (.enter p s :: s.innerEvents p ++ [.exit p s])
  | .declaration _ declared value, p, state => rfl
  | .conditional _ condition body, p, state => by
    rw [performAll_around, Stmt.innerEvents, ← visitBlock_eq_performAll body]
    rw [visitStmt]
    rfl
  | .function _ _ _ _ body, p, state => by
    rw [performAll_around, Stmt.innerEvents]
    exact visitBlock_eq_performAll body (p.inside 0) state
  | .switch _ _ cases, p, state => by
    rw [performAll_around, Stmt.innerEvents]
    exact visitCases_eq_performAll cases p 0 state
  | .loop _ pre condition post body, p, state => by
    have hpre := visitBlock_eq_performAll pre (p.inside 0) state
    have hbody := visitBlock_eq_performAll body (p.inside 1) (visitBlock encoder pre state).2
    have hpost := visitBlock_eq_performAll post (p.inside 2)
      (visitBlock encoder body (visitBlock encoder pre state).2).2
    rw [performAll_around, Stmt.innerEvents, performAll_append, performAll_append]
    change _ = performAll encoder (performAll encoder (performAll encoder state _) _) _
    rw [← hpre, ← hbody, ← hpost]
    rfl
  | .block body, p, state => by
    rw [performAll_around, Stmt.innerEvents]
    exact visitBlock_eq_performAll body (p.inside 0) state
  | .expression _, p, state | .assignment .., p, state | .break _, p, state | .continue _, p, state
  | .leave _, p, state => rfl

theorem visitBlock_eq_performAll : ∀ (b : Block) (path : Path) (state : State σ),
    (visitBlock encoder b state).2 = performAll encoder state (b.events path)
  | ⟨_, statements⟩, path, state => visitStmts_eq_performAll statements path 0 state

/-- Visiting statements is performing their events in order. -/
theorem visitStmts_eq_performAll : ∀ (statements : List Stmt) (path : Path) (index : Nat) (state : State σ),
    (visitStmts encoder statements state).2 =
      performAll encoder state (Stmt.allEvents path index statements)
  | [], _, _, _ => rfl
  | s :: rest, path, index, state => by
    have hfirst := visitStmt_eq_performAll s ⟨path, index⟩ state
    have hrest := visitStmts_eq_performAll rest path (index + 1) (visitStmt encoder s state).2
    rw [Stmt.allEvents, List.append_cons, performAll_append, ← hfirst, ← hrest]
    rfl

/-- Visiting cases is performing their events in order. -/
theorem visitCases_eq_performAll : ∀ (cases : List Case) (p : Position) (block : Nat) (state : State σ),
    (visitCases encoder cases state).2 = performAll encoder state (Case.allEvents p block cases)
  | [], _, _, _ => rfl
  | ⟨_, _, body⟩ :: rest, p, block, state => by
    have hfirst := visitBlock_eq_performAll body (p.inside block) state
    have hrest := visitCases_eq_performAll rest p (block + 1) (visitBlock encoder body state).2
    rw [Case.allEvents, performAll_append, ← hfirst, ← hrest]
    rfl

end

/-- A walk comes by a declaration of a tracked variable. A prover variable is made for it, and is asserted to be
what the initialiser is encoded as. -/
def Defines (state : State σ) (p : Position) (x : String) (bound : Formula) (event : Event) : Prop :=
  ∃ span name value, event = .enter p (.declaration span [name] (some value)) ∧ name.name = x ∧
    let made := encoder.bind x state.encoding
    let definition := encoder.encode value made.2
    bound = made.1 ∧ (perform encoder state event).encoding.session =
      (encoder.prover.assert (.eq bound definition.1) definition.2.session).2

theorem Defines.initialises {state : State σ} {p : Position} {x : String} {bound : Formula} {event : Event}
    (h : Defines encoder state p x bound event) : event.Initialises x := by
  obtain ⟨span, name, value, rfl, rfl, _⟩ := h
  exact ⟨p, span, name, value, rfl, rfl⟩

/-- What a statement has encoded, and what names are read as in it. -/
def encoded? (state : State σ) : Stmt → Option (Expr × Encoding σ)
  | .declaration _ [name] (some value) =>
    if encoder.tracked name.name then some (value, (encoder.bind name.name state.encoding).2) else none
  | .conditional _ condition _ => some (condition, state.encoding)
  | _ => none

section

variable {encoder} {state : State σ}

/-- A tracked declaration encodes its value, binds the name and asserts the equation of the two. -/
theorem visitDeclaration_of_tracked {name : Identifier} (htracked : encoder.tracked name.name) (value : Expr) :
    (visitDeclaration encoder [name] (some value) state).2 =
      { state with encoding :=
        let made := encoder.bind name.name state.encoding
        let definition := encoder.encode value made.2
        (Encoder.ask (encoder.prover.assert (.eq made.1 definition.1)) definition.2).2 } := by
  rw [visitDeclaration, if_pos htracked]
  rfl

/-- A declaration without one tracked name and a value is passed by. -/
theorem visitDeclaration_of_untracked (encoder : Encoder σ) {declared : List Identifier} {value : Option Expr}
    (h : ∀ name v, declared = [name] → value = some v → encoder.tracked name.name = false) (state : State σ) :
    visitDeclaration encoder declared value state = ((), state) := by
  rw [visitDeclaration.eq_def]
  split
  next name v =>
    rw [h name v rfl rfl]
    rfl
  next => rfl

theorem encoding_decide (condition : Expr) (neverZero alwaysZero : Bool) :
    (decide condition neverZero alwaysZero state).2.encoding = state.encoding := by
  cases neverZero <;> cases alwaysZero <;> rfl

theorem bindings_enterConditional (condition : Expr) :
    (enterConditional encoder condition state).2.encoding.bindings = state.encoding.bindings := by
  simp only [enterConditional, StateM.bind_apply]
  change (decide _ _ _ _).2.encoding.bindings = _
  rw [encoding_decide]
  exact encoder.bindings_encode condition state.encoding

/-- An event binds the tracked variable that it initialises, and nothing else. -/
theorem bindings_perform_cases (encoder : Encoder σ) (state : State σ) (event : Event) :
    (∃ p x, encoder.tracked x ∧ Defines encoder state p x (encoder.bind x state.encoding).1 event ∧
      (perform encoder state event).encoding.bindings =
        state.encoding.bindings.insert x (encoder.bind x state.encoding).1) ∨
    (∀ x, encoder.tracked x → ¬ event.Initialises x) ∧
      (perform encoder state event).encoding.bindings = state.encoding.bindings := by
  cases event with
  | exit p s =>
    refine .inr ⟨?_, by cases s <;> rfl⟩
    rintro x _ ⟨p', span, name, value, heq, _⟩
    cases heq
  | enter p s =>
    cases s with
    | declaration span declared value =>
      obtain ⟨name, v, rfl, rfl, htracked⟩ | huntracked := Encoder.defines_cases encoder.tracked declared value
      · refine .inl ⟨p, name.name, htracked, ⟨span, name, v, rfl, rfl, rfl, ?_⟩, ?_⟩
        · rw [perform, visitDeclaration_of_tracked htracked]
          rfl
        · rw [perform, visitDeclaration_of_tracked htracked]
          exact encoder.bindings_encode v _
      · refine .inr ⟨?_, ?_⟩
        · rintro x hx ⟨p', span', name, v, heq, rfl⟩
          cases heq
          rw [huntracked name v rfl rfl] at hx
          cases hx
        · rw [perform, visitDeclaration_of_untracked encoder huntracked]
    | conditional span condition body =>
      refine .inr ⟨?_, bindings_enterConditional condition⟩
      rintro x _ ⟨p', span', name, value, heq, _⟩
      cases heq
    | _ =>
      refine .inr ⟨?_, rfl⟩
      rintro x _ ⟨p', span', name, value, heq, _⟩
      cases heq

/-- What is bound after an event was bound before, or belongs to the variable that the event declares. -/
theorem get?_bindings_perform {event : Event} {x : String} {bound : Formula}
    (h : (perform encoder state event).encoding.bindings.get? x = some bound) :
    state.encoding.bindings.get? x = some bound ∨ ∃ p, Defines encoder state p x bound event := by
  rcases bindings_perform_cases encoder state event with ⟨p, y, _, hdefines, hbindings⟩ | ⟨_, hbindings⟩
  · rw [hbindings, SortedMap.get?_insert] at h
    split at h
    next hx =>
      cases h
      rw [hx]
      exact .inr ⟨p, hdefines⟩
    next => exact .inl h
  · rw [hbindings] at h
    exact .inl h

/-- An event binds a tracked name that it initialises, and no other. -/
theorem contains_bindings_perform_iff {event : Event} {x : String} :
    (perform encoder state event).encoding.bindings.contains x ↔
      state.encoding.bindings.contains x ∨ encoder.tracked x ∧ event.Initialises x := by
  rcases bindings_perform_cases encoder state event with
    ⟨p, y, htracked, hdefines, hbindings⟩ | ⟨hnone, hbindings⟩
  · have hevent := hdefines.initialises
    rw [hbindings, SortedMap.contains, SortedMap.get?_insert]
    split
    next hx =>
      rw [hx]
      exact iff_of_true rfl (.inr ⟨htracked, hevent⟩)
    next hx =>
      refine (or_iff_left ?_).symm
      rintro ⟨_, hinitialises⟩
      exact hx (hevent.unique hinitialises)
  · rw [hbindings]
    exact (or_iff_left fun h => hnone x h.1 h.2).symm

/-- What is bound was bound by a declaration. -/
theorem get?_bindings_performAll {events : List Event} {x : String} {bound : Formula}
    (h : (performAll encoder state events).encoding.bindings.get? x = some bound) :
    state.encoding.bindings.get? x = some bound ∨ ∃ earlier event later p,
      events = earlier ++ event :: later ∧
        Defines encoder (performAll encoder state earlier) p x bound event := by
  induction events using List.reverseRecOn with
  | nil => exact .inl h
  | append_singleton events event ih =>
    rw [performAll_append] at h
    rcases get?_bindings_perform h with h | ⟨p, h⟩
    · refine (ih h).imp_right ?_
      rintro ⟨earlier, event', later, p, rfl, hdefines⟩
      exact ⟨earlier, event', later ++ [event], p, by simp, hdefines⟩
    · exact .inr ⟨events, event, [], p, rfl, h⟩

/-- An expression is encoded for a tracked declaration, whose name is bound by then, or for a condition. -/
theorem encoded?_cases {s : Stmt} {e : Expr} {c : Encoding σ}
    (h : encoded? encoder state s = some (e, c)) :
    (∃ span name, s = .declaration span [name] (some e) ∧ encoder.tracked name.name ∧
      c = (encoder.bind name.name state.encoding).2) ∨
        ∃ span body, s = .conditional span e body ∧ c = state.encoding := by
  rw [encoded?.eq_def] at h
  split at h
  · split at h
    next htracked =>
      cases h
      exact .inl ⟨_, _, rfl, htracked, rfl⟩
    next => cases h
  · cases h
    exact .inr ⟨_, _, rfl, rfl⟩
  · cases h

/-- A name is bound behind some events when it is tracked and one of them initialised it. -/
theorem contains_bindings_performAll_iff {events : List Event} {x : String} :
    (performAll encoder state events).encoding.bindings.contains x ↔
      state.encoding.bindings.contains x ∨ encoder.tracked x ∧ ∃ event ∈ events, event.Initialises x := by
  induction events using List.reverseRecOn with
  | nil => simp [performAll]
  | append_singleton events event ih =>
    rw [performAll_append]
    change (perform encoder (performAll encoder state events) event).encoding.bindings.contains x ↔ _
    rw [contains_bindings_perform_iff, ih, or_assoc, ← and_or_left]
    simp [or_and_right, exists_or]

/-- A name is read as a prover variable that is bound if it is tracked and was initialised. -/
theorem isSome_resolve?_iff {session : σ} {events : List Event} {c : Encoding σ} {x : String}
    (h : (performAll encoder { encoding := { session } } events).encoding.bindings = c.bindings) :
    (encoder.resolve? c x).isSome ↔ encoder.tracked x ∧ ∃ event ∈ events, event.Initialises x := by
  rw [Encoder.resolve?]
  split
  next =>
    change c.bindings.contains x ↔ _
    rw [← h]
    refine contains_bindings_performAll_iff.trans (or_iff_right ?_)
    exact Bool.false_ne_true
  next htracked => exact iff_of_false Bool.false_ne_true fun h => htracked h.1

/-- A name resolves to what the declaration of it that was met defined. -/
theorem defines_of_resolve? {session : σ} {events : List Event} {c : Encoding σ} {x : String}
    (h : (performAll encoder { encoding := { session } } events).encoding.bindings = c.bindings)
    {bound : Formula} (hresolve : encoder.resolve? c x = some bound) :
    encoder.tracked x ∧ ∃ earlier event later p, events = earlier ++ event :: later ∧
      Defines encoder (performAll encoder { encoding := { session } } earlier) p x bound event := by
  rw [Encoder.resolve?] at hresolve
  split at hresolve
  next htracked =>
    rw [← h] at hresolve
    exact ⟨htracked, (get?_bindings_performAll hresolve).resolve_left fun hnone => nomatch hnone⟩
  next => cases hresolve

/-- Names are read as what is bound once the walk has met the statement. -/
theorem bindings_of_encoded? {s : Stmt} {e : Expr} {c : Encoding σ}
    (h : encoded? encoder state s = some (e, c)) (p : Position) :
    (perform encoder state (.enter p s)).encoding.bindings = c.bindings := by
  rcases encoded?_cases h with ⟨span, name, rfl, htracked, rfl⟩ | ⟨span, body, rfl, rfl⟩
  · rw [perform, visitDeclaration_of_tracked htracked]
    exact encoder.bindings_encode e _
  · exact bindings_enterConditional e

/-- What is encoded at a scoped statement is a scoped expression. -/
theorem isScoped_of_encoded? {s : Stmt} {e : Expr} {c : Encoding σ}
    (h : encoded? encoder state s = some (e, c)) {visible : List String} (hs : s.isScoped visible) :
    e.isScoped visible := by
  rcases encoded?_cases h with ⟨span, name, rfl, _, rfl⟩ | ⟨span, body, rfl, rfl⟩
  · simpa [Stmt.isScoped] using hs
  · rw [Stmt.isScoped, Bool.and_eq_true] at hs
    exact hs.1

end

/-- Where a name that is declared by one statement is visible, it is the variable of that statement or a
parameter. -/
theorem lookup_of_tracked {block : Block} {x : String} (htracked : block.singleAssignmentValues.contains x)
    {q : Position} {span : Span} {declared : List Identifier} {value : Option Expr}
    (hq : .enter q (.declaration span declared value) ∈ block.events []) (hx : x ∈ declared.map (·.name))
    {p : Position} {s : Stmt} {scope : Scope} (hfind : block.find? p = some (s, scope))
    (hvisible : x ∈ scope.names) :
    scope.lookup x = some (.declared q) ∨ ∃ f, scope.lookup x = some (.parameter f) := by
  obtain ⟨binder, hlookup, hmem⟩ := Scope.exists_lookup_of_mem_names hvisible
  rw [hlookup]
  have hbinds := Block.binds_of_find? hfind x binder hmem
  cases binder with
  | parameter f => exact .inr ⟨f, rfl⟩
  | declared q' =>
    obtain ⟨span', declared', value', scope', hfind', hx'⟩ := hbinds
    have hsame := Block.eq_of_contains_singleAssignmentValues htracked hq
      (Block.mem_events_of_find? hfind') hx hx'
    cases hsame
    exact .inl rfl
  | result f =>
    obtain ⟨span', name, parameters, returns, body, scope', hfind', hx'⟩ := hbinds
    have hsame := Block.eq_of_contains_singleAssignmentValues htracked hq
      (Block.mem_events_of_find? hfind') hx hx'
    cases hsame

/-- Whatever prover a walk over a block uses in which every name is visible where it is read, and whatever name
`encode` reads in an initialiser or a condition: `resolve?` gives a prover variable if and only if the name is tracked
and a declaration met so far initialises it. This declaration has made the prover variable then and asserted its value,
and the name refers to it, or else to a parameter of a function, which is not counted as declared. -/
theorem binder_of_resolve? {block : Block} (hscoped : block.isScoped []) (dialect : Dialect)
    (prover : Prover σ) (session : σ) :
    let encoder : Encoder σ := { dialect, tracked := block.singleAssignmentValues.contains, prover }
    let stateAfter := performAll encoder { encoding := { session } }
    (runWith prover dialect block session).2 = (stateAfter (block.events [])).encoding.session ∧
      ∀ before p s after, block.events [] = before ++ .enter p s :: after →
        ∀ e c, encoded? encoder (stateAfter before) s = some (e, c) → ∀ x, e.Mentions x →
          ((encoder.resolve? c x).isSome ↔
            encoder.tracked x ∧ ∃ event ∈ before ++ [.enter p s], event.Initialises x) ∧
          ∀ bound, encoder.resolve? c x = some bound →
            ∃ scope q earlier event later, block.find? p = some (s, scope) ∧
              before ++ [.enter p s] = earlier ++ event :: later ∧
              Defines encoder (stateAfter earlier) q x bound event ∧
              (scope.lookup x = some (.declared q) ∨ ∃ f, scope.lookup x = some (.parameter f)) := by
  intro encoder stateAfter
  refine ⟨congrArg (·.encoding.session) (visitBlock_eq_performAll encoder block [] _), ?_⟩
  intro before p s after hevents e c hencoded x hmentions
  have hbindings : (stateAfter (before ++ [.enter p s])).encoding.bindings = c.bindings := by
    rw [← bindings_of_encoded? hencoded p]
    exact congrArg (·.encoding.bindings) (performAll_append encoder _ before [.enter p s])
  refine ⟨isSome_resolve?_iff hbindings, fun bound hresolve => ?_⟩
  obtain ⟨htracked, earlier, event, later, q, hsplit, hdefines⟩ := defines_of_resolve? hbindings hresolve
  have hmem : .enter p s ∈ block.events [] := by
    rw [hevents]
    exact List.mem_append_right _ List.mem_cons_self
  have hroot : block.descend [] = some (block, []) := rfl
  obtain ⟨scope, hfind⟩ := Block.exists_find?_of_mem_events hroot hmem
  have hvisible := hmentions.mem (isScoped_of_encoded? hencoded (Block.isScoped_of_find? hscoped hfind))
  refine ⟨scope, q, earlier, event, later, hfind, hsplit, hdefines, ?_⟩
  obtain ⟨span, name, value, rfl, rfl, _⟩ := hdefines
  have hearlier : .enter q (.declaration span [name] (some value)) ∈ block.events [] := by
    rw [hevents, List.append_cons, hsplit]
    simp
  exact lookup_of_tracked htracked hearlier List.mem_cons_self hfind hvisible

/-- `let x := 1` -/
def declaredOne : Stmt := .declaration {} [{ name := "x" }] (some (.number "1"))

/-- An `if` on `x`. -/
def ifOnX : Stmt := .conditional {} (.var "x") (.ofList [.expression (.apply "f" [.var "x"])])

/-- The `if` reads the variable. -/
def variableRead : Block := .ofList [declaredOne, ifOnX]

/-- The variable is in a block of its own, and the `if` reads the parameter of a function. -/
def parameterRead : Block :=
  .ofList [.block (.ofList [declaredOne]), .function {} "f" [{ name := "x" }] [] (.ofList [ifOnX])]

/-- The encoder for a block whose calls are all calls of user functions. -/
def plainEncoder (block : Block) : Encoder Evaluation.Session :=
  { dialect := .plain, tracked := block.singleAssignmentValues.contains, prover := Evaluation.prover }

/-- The prover variable that the `if` reads was made by the declaration before it. -/
theorem binder_of_resolve?_variableRead :
    variableRead.isScoped [] ∧ ∃ earlier event later,
      [.enter ⟨[], 0⟩ declaredOne, .exit ⟨[], 0⟩ declaredOne, .enter ⟨[], 1⟩ ifOnX] =
        earlier ++ event :: later ∧
      Defines (plainEncoder variableRead)
        (performAll (plainEncoder variableRead) { encoding := { session := {} } } earlier)
        ⟨[], 0⟩ "x" (.var "yul_x" .int) event := by
  have hscoped : variableRead.isScoped [] := by decide
  refine ⟨hscoped, ?_⟩
  obtain ⟨_, hwalk⟩ := binder_of_resolve? hscoped .plain Evaluation.prover {}
  obtain ⟨_, hread⟩ := hwalk [.enter ⟨[], 0⟩ declaredOne, .exit ⟨[], 0⟩ declaredOne] ⟨[], 1⟩ ifOnX
    _ rfl _ _ rfl "x" (.identifier rfl)
  obtain ⟨scope, q, earlier, event, later, hfind, hsplit, hdefines, hrefers⟩ :=
    hread (.var "yul_x" .int) (by decide)
  cases hfind
  rcases hrefers with hrefers | ⟨f, hrefers⟩
  · cases hrefers
    exact ⟨earlier, event, later, hsplit, hdefines⟩
  · cases hrefers

/-- A name that refers to a parameter is read as the variable of another function's block. -/
theorem resolve?_parameterRead :
    parameterRead.isScoped [] ∧ parameterRead.isUnshadowed [] ∧
      (∃ before after scope c, parameterRead.events [] = before ++ .enter ⟨[(1, 0)], 0⟩ ifOnX :: after ∧
        encoded? (plainEncoder parameterRead)
          (performAll (plainEncoder parameterRead) { encoding := { session := {} } } before) ifOnX =
            some (.var "x", c) ∧
        (plainEncoder parameterRead).resolve? c "x" = some (.var "yul_x" .int) ∧
        parameterRead.find? ⟨[(1, 0)], 0⟩ = some (ifOnX, scope) ∧
        scope.lookup "x" = some (.parameter ⟨[], 1⟩)) ∧
      (run .plain parameterRead).2 = ⟨1, 0⟩ := by
  refine ⟨by decide, by decide, ⟨(parameterRead.events []).take 5, (parameterRead.events []).drop 6, _, _,
    rfl, rfl, by decide, rfl, rfl⟩, by cbv⟩

end ConstantConditions

end YulBackend
