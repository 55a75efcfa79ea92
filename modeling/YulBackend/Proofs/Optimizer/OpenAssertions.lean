import YulBackend.Proofs.Optimizer.Transcript
import YulBackend.Proofs.Syntax.Conditions
import YulBackend.Proofs.Syntax.Enclosure

namespace YulBackend

namespace Event

/-- A path leads into the body of an `if` that a walk has left. -/
def isLeft (visited : List Event) (path : Path) : Bool :=
  visited.any fun
    | .exit p (.conditional ..) => p.inside 0 <:+ path
    | _ => false

/-- What a walk has asserted at a declaration stays if the declaration does not stand in the body of an `if`
that was left. -/
def stays (visited : List Event) : Event → Bool
  | .enter p (.declaration ..) => !isLeft visited p.path
  | _ => false

/-- Besides what stays, it holds in the body of an `if` that its condition is not zero. -/
def holdsAt (visited : List Event) (path : Path) : Event → Bool
  | .enter p (.conditional ..) => p.inside 0 <:+ path
  | event => event.stays visited

/-- A path is left in two stretches of a walk when it is left in one of them. -/
theorem isLeft_append (visited visited' : List Event) (path : Path) :
    isLeft (visited ++ visited') path = (isLeft visited path || isLeft visited' path) :=
  List.any_append

theorem isLeft_of_mem {visited : List Event} {p : Position} {span : Span} {condition : Expr} {body : Block}
    (h : .exit p (.conditional span condition body) ∈ visited) {path : Path} (hpath : p.inside 0 <:+ path) :
    isLeft visited path :=
  List.any_eq_true.2 ⟨_, h, decide_eq_true hpath⟩

/-- A path is not left by events none of which encloses it. -/
theorem isLeft_eq_false {visited : List Event} {path : Path}
    (h : ∀ e ∈ visited, ¬ e.position.inside 0 <:+ path) : isLeft visited path = false := by
  refine List.any_eq_false.2 fun e he => ?_
  have hposition := h e he
  cases e with
  | enter p s => exact Bool.false_ne_true
  | exit p s =>
    cases s with
    | conditional span condition body => exact fun hsuffix => hposition (of_decide_eq_true hsuffix)
    | _ => exact Bool.false_ne_true

/-- What was asserted in the body of an `if` does not stay behind it. -/
theorem stays_eq_false {visited : List Event} {p : Position} {span : Span} {condition : Expr} {body : Block}
    (h : .exit p (.conditional span condition body) ∈ visited) {e : Event}
    (hpath : p.inside 0 <:+ e.position.path) : stays visited e = false := by
  rw [stays.eq_def]
  split
  next q span declared value =>
    have hleft : isLeft visited q.path := isLeft_of_mem h hpath
    rw [hleft]
    rfl
  next => rfl

/-- Which assertions stay depends only on which paths are left. -/
theorem stays_congr {visited visited' : List Event} (h : ∀ path, isLeft visited path = isLeft visited' path) :
    stays visited = stays visited' := by
  funext e
  rw [stays.eq_def, stays.eq_def]
  split
  next p span declared value => rw [h p.path]
  next => rfl

theorem holdsAt_congr {visited visited' : List Event} (h : ∀ path, isLeft visited path = isLeft visited' path)
    (path : Path) : holdsAt visited path = holdsAt visited' path := by
  funext e
  rw [holdsAt.eq_def, holdsAt.eq_def, stays_congr h]

/-- Events that do not enclose an assertion's place do not end it. -/
theorem stays_append_left {visited visited' : List Event} {e : Event}
    (h : ∀ e' ∈ visited', ¬ e'.position.inside 0 <:+ e.position.path) :
    stays (visited ++ visited') e = stays visited e := by
  rw [stays.eq_def, stays.eq_def]
  split
  next p span declared value =>
    have hleft : isLeft visited' p.path = false := isLeft_eq_false h
    rw [isLeft_append, hleft, Bool.or_false]
  next => rfl

/-- Earlier events that do not enclose an assertion's place do not end it either. -/
theorem stays_append_right {visited visited' : List Event} {e : Event}
    (h : ∀ e' ∈ visited, ¬ e'.position.inside 0 <:+ e.position.path) :
    stays (visited ++ visited') e = stays visited' e := by
  rw [stays.eq_def, stays.eq_def]
  split
  next p span declared value =>
    have hleft : isLeft visited p.path = false := isLeft_eq_false h
    rw [isLeft_append, hleft, Bool.false_or]
  next => rfl

/-- What holds at a path does not depend on earlier events that do not enclose it. -/
theorem holdsAt_append_right {visited visited' : List Event} {path : Path} {e : Event}
    (h : ∀ e' ∈ visited, ¬ e'.position.inside 0 <:+ e.position.path) :
    holdsAt (visited ++ visited') path e = holdsAt visited' path e := by
  rw [holdsAt.eq_def, holdsAt.eq_def]
  split
  · rfl
  · exact stays_append_right h

/-- Between entering and leaving a statement, a walk comes by what is in it. -/
theorem exists_of_around_eq {p q : Position} {s t : Stmt} {events before after : List Event}
    (h : enter p s :: events ++ [exit p s] = before ++ enter q t :: after) :
    before = [] ∨ ∃ inner rest, before = enter p s :: inner ∧ events = inner ++ enter q t :: rest := by
  rcases append_eq_append_cons h with ⟨rest, _, hexit⟩ | ⟨rest, hinner, _⟩
  · cases rest with
    | nil => cases hexit
    | cons e rest => simp at hexit
  · rcases List.cons_eq_append_iff.1 hinner with ⟨hbefore, _⟩ | ⟨inner, hbefore, hevents⟩
    · exact .inl hbefore
    · exact .inr ⟨inner, rest, hbefore, hevents⟩

/-- What is outside of a statement holds there if it stays. -/
theorem holdsAt_eq_stays {visited : List Event} {path : Path} {e : Event}
    (h : ¬ e.position.inside 0 <:+ path) : holdsAt visited path e = stays visited e := by
  rw [holdsAt.eq_def]
  split
  · exact decide_eq_false h
  · rfl

end Event

namespace ConstantConditions

variable {σ : Type}

/-- What a walk asserts at something that it comes by, for what is behind it. -/
def assertion? (encoder : Encoder σ) (state : State σ) : Event → Option Formula
  | .enter _ (.declaration _ [name] (some value)) =>
    if encoder.tracked name.name then
      let made := encoder.bind name.name state.encoding
      some (.eq made.1 (encoder.encode value made.2).1)
    else none
  | .enter _ (.conditional _ condition _) => some (.notEq (encoder.encode condition state.encoding).1 (.int 0))
  | _ => none

/-- What a walk asserts at each thing that it comes by. -/
def assertions (encoder : Encoder σ) : State σ → List Event → List (Event × Formula)
  | _, [] => []
  | state, event :: rest =>
    ((assertion? encoder state event).map (event, ·)).toList ++
      assertions encoder (perform encoder state event) rest

/-- Those of assertions that hold. -/
def standing (holds : Event → Bool) (made : List (Event × Formula)) : List Formula :=
  (made.filter (holds ·.1)).map (·.2)

theorem standing_append (holds : Event → Bool) (made made' : List (Event × Formula)) :
    standing holds (made ++ made') = standing holds made ++ standing holds made' := by
  rw [standing, List.filter_append, List.map_append]
  rfl

theorem standing_congr {holds holds' : Event → Bool} {made : List (Event × Formula)}
    (h : ∀ a ∈ made, holds a.1 = holds' a.1) : standing holds made = standing holds' made :=
  congrArg (List.map _) (List.filter_congr h)

theorem standing_eq_nil {holds : Event → Bool} {made : List (Event × Formula)}
    (h : ∀ a ∈ made, holds a.1 = false) : standing holds made = [] := by
  rw [standing, List.filter_eq_nil_iff.2 fun a ha => by rw [h a ha]; exact Bool.false_ne_true]
  rfl

theorem standing_toList {holds : Event → Bool} {e : Event} {f : Option Formula} (h : f.isSome → holds e) :
    standing holds (f.map (e, ·)).toList = f.toList := by
  cases f with
  | none => rfl
  | some f => simp [standing, h rfl]

variable (encoder : Encoder σ)

/-- The assertions of two stretches are made in turn, the second from the state behind the first. -/
theorem assertions_append (state : State σ) (events events' : List Event) :
    assertions encoder state (events ++ events') =
      assertions encoder state events ++ assertions encoder (performAll encoder state events) events' := by
  induction events generalizing state with
  | nil => rfl
  | cons event rest ih =>
    rw [List.cons_append, assertions, assertions, ih, List.append_assoc]
    rfl

theorem assertions_around (state : State σ) (p : Position) (s : Stmt) (events : List Event) :
    assertions encoder state (.enter p s :: events ++ [.exit p s]) =
      ((assertion? encoder state (.enter p s)).map (Event.enter p s, ·)).toList ++
        assertions encoder (perform encoder state (.enter p s)) events := by
  rw [List.cons_append, assertions, assertions_append]
  exact congrArg _ (List.append_nil _)

/-- Every assertion was made at an event of the walk. -/
theorem mem_of_mem_assertions {state : State σ} {events : List Event} {a : Event × Formula}
    (h : a ∈ assertions encoder state events) : a.1 ∈ events := by
  induction events generalizing state with
  | nil => cases h
  | cons event rest ih =>
    rcases List.mem_append.1 h with h | h
    · obtain ⟨f, _, rfl⟩ := Option.map_eq_some_iff.1 (Option.mem_toList.1 h)
      exact List.mem_cons_self
    · exact List.mem_cons_of_mem _ (ih h)

/-- A declaration without one tracked name and a value asserts nothing. -/
theorem assertion?_declaration_eq_none {p : Position} {span : Span} {declared : List Identifier}
    {value : Option Expr}
    (h : ∀ name v, declared = [name] → value = some v → encoder.tracked name.name = false)
    (state : State σ) :
    assertion? encoder state (.enter p (.declaration span declared value)) = none := by
  rw [assertion?.eq_def]
  split
  next name v heq =>
    cases heq
    rw [h name v rfl rfl]
    rfl
  next heq => cases heq
  next => rfl

/-- What is said to the prover at something that a walk comes by. -/
inductive Says (state : State σ) : Event → List Prover.Event → Prop
  | definition {p : Position} {span : Span} {name : Identifier} {value : Expr} {names : List Prover.Event}
      {f : Formula} (hnames : ∀ event ∈ names, event.IsNaming)
      (hf : assertion? encoder state (.enter p (.declaration span [name] (some value))) = some f) :
      Says state (.enter p (.declaration span [name] (some value))) (names ++ [.assert f])
  | question {p : Position} {span : Span} {condition : Expr} {body : Block} {names : List Prover.Event}
      (hnames : ∀ event ∈ names, event.IsNaming) (answers : Answers) :
      Says state (.enter p (.conditional span condition body))
        (names ++ answers.calls (encoder.encode condition state.encoding).1)
  | leaving {p : Position} {span : Span} {condition : Expr} {body : Block} :
      Says state (.exit p (.conditional span condition body)) [.pop]
  | nothing {event : Event} (hassertion : assertion? encoder state event = none)
      (hexit : ∀ p span condition body, event ≠ .exit p (.conditional span condition body)) :
      Says state event []

/-- Each event adds to the log what it says, and nothing else. -/
theorem exists_says (state : State (σ × List Prover.Event)) (event : Event) :
    ∃ calls, Says encoder.traced state event calls ∧
      (perform encoder.traced state event).encoding.log = state.encoding.log ++ calls := by
  cases event with
  | exit p s =>
    cases s with
    | conditional span condition body => exact ⟨[.pop], .leaving, log_pop encoder state⟩
    | _ => exact ⟨[], .nothing rfl (by simp), (List.append_nil _).symm⟩
  | enter p s =>
    cases s with
    | conditional span condition body =>
      obtain ⟨names, answers, hnames, _, _, hlog⟩ := exists_enterConditional encoder condition state
      exact ⟨_, .question hnames answers, by rw [← List.append_assoc]; exact hlog⟩
    | declaration span declared value =>
      obtain ⟨name, v, rfl, rfl, htracked⟩ | huntracked := Encoder.defines_cases encoder.tracked declared value
      · obtain ⟨names, hnames, hlog⟩ := exists_log_visitDeclaration encoder htracked v state
        refine ⟨_, .definition hnames (if_pos htracked), ?_⟩
        rw [← List.append_assoc]
        exact hlog
      · refine ⟨[], .nothing (assertion?_declaration_eq_none encoder.traced huntracked state) (by simp), ?_⟩
        rw [perform, visitDeclaration_of_untracked encoder.traced huntracked, List.append_nil]
    | _ => exact ⟨[], .nothing rfl (by simp), (List.append_nil _).symm⟩

namespace Says

variable {encoder} {state : State σ} {p : Position} {calls : List Prover.Event}

/-- Where a walk enters no `if` it asserts what the statement defines, if anything. -/
theorem of_enter {s : Stmt} (h : Says encoder state (.enter p s) calls)
    (hs : ∀ span condition body, s ≠ .conditional span condition body) :
    Prover.Balanced calls ∧ ∀ session : Evaluation.Session,
      session.Extends (Prover.replay session calls) (assertion? encoder state (.enter p s)).toList := by
  cases h with
  | definition hnames hf =>
    refine ⟨(Prover.balanced_of_isNaming hnames).append (.of_forall_ne (by simp)), fun session => ?_⟩
    rw [Prover.replay_append, Prover.replay_of_isNaming hnames, hf]
    exact .assert session _
  | question => exact absurd rfl (hs _ _ _)
  | nothing hassertion =>
    rw [hassertion]
    exact ⟨.of_forall_ne nofun, fun session => .refl session⟩

/-- Where a walk enters an `if` it opens a scope for the body, and asserts there that the condition is not
zero. -/
theorem of_conditional {span : Span} {condition : Expr} {body : Block}
    (h : Says encoder state (.enter p (.conditional span condition body)) calls) :
    ∃ questions, Prover.Balanced questions ∧
      (∀ session : Evaluation.Session, session.Extends (Prover.replay session questions) []) ∧
      calls = questions ++
        [.push, .assert (.notEq (encoder.encode condition state.encoding).1 (.int 0))] := by
  cases h with
  | question hnames answers =>
    refine ⟨_, (Prover.balanced_of_isNaming hnames).append (answers.balanced_questions _), fun session => ?_,
      (List.append_assoc ..).symm⟩
    rw [Prover.replay_append, Prover.replay_of_isNaming hnames]
    exact answers.extends_questions _ session
  | nothing hassertion => cases hassertion

end Says

/-- What is open in a state. -/
def opened (state : State (σ × List Prover.Event)) : Evaluation.Session :=
  Prover.replay {} state.encoding.log

/-- What is assumed in the body of an `if`. -/
def assumed (state : State (σ × List Prover.Event)) (condition : Expr) : Formula :=
  .notEq (encoder.traced.encode condition state.encoding).1 (.int 0)

/-- Entering a conditional logs its two questions, opens a scope and asserts the condition there. -/
theorem exists_log_enter (state : State (σ × List Prover.Event)) (p : Position) (span : Span)
    (condition : Expr) (body : Block) :
    let entered := perform encoder.traced state (.enter p (.conditional span condition body))
    ∃ questions, Prover.Balanced questions ∧
      entered.encoding.log =
        state.encoding.log ++ questions ++ [.push, .assert (assumed encoder state condition)] ∧
      (opened state).push.Extends (opened entered) [assumed encoder state condition] := by
  obtain ⟨calls, hsays, hlog⟩ := exists_says encoder state (.enter p (.conditional span condition body))
  obtain ⟨questions, hbalanced, hextends, rfl⟩ := hsays.of_conditional
  rw [← List.append_assoc] at hlog
  refine ⟨questions, hbalanced, hlog, ?_⟩
  rw [opened, opened, hlog, Prover.replay_append, Prover.replay_append]
  exact (hextends _).push.trans (.assert _ _)

section

variable {s : Stmt} (hs : ∀ span condition body, s ≠ .conditional span condition body)

include hs

/-- Entering any other statement logs only names and, for a tracked declaration, its definition. -/
theorem exists_log_enter_of_ne (state : State (σ × List Prover.Event)) (p : Position) :
    let entered := perform encoder.traced state (.enter p s)
    ∃ calls, Prover.Balanced calls ∧ entered.encoding.log = state.encoding.log ++ calls ∧
      (opened state).Extends (opened entered) (assertion? encoder.traced state (.enter p s)).toList := by
  obtain ⟨calls, hsays, hlog⟩ := exists_says encoder state (.enter p s)
  obtain ⟨hbalanced, hextends⟩ := hsays.of_enter hs
  refine ⟨calls, hbalanced, hlog, ?_⟩
  rw [opened, opened, hlog, Prover.replay_append]
  exact hextends _

theorem perform_exit_of_ne (state : State σ) (p : Position) : perform encoder state (.exit p s) = state := by
  cases s with
  | conditional span condition body => exact absurd rfl (hs span condition body)
  | _ => rfl

/-- What is asserted where a walk enters a statement holds until an `if` around it is left. -/
theorem standing_enter {visited : List Event} {holds : Event → Bool} (state : State σ) (p : Position)
    (hholds : ∀ span declared value,
      holds (.enter p (.declaration span declared value)) =
        Event.stays visited (.enter p (.declaration span declared value)))
    (hleft : Event.isLeft visited p.path = false) :
    standing holds ((assertion? encoder state (.enter p s)).map (Event.enter p s, ·)).toList =
      (assertion? encoder state (.enter p s)).toList := by
  refine standing_toList fun hsome => ?_
  cases s with
  | declaration span declared value =>
    rw [hholds, Event.stays, hleft]
    rfl
  | conditional span condition body => exact absurd rfl (hs span condition body)
  | _ => cases hsome

end

theorem log_exit (state : State (σ × List Prover.Event)) (p : Position) (span : Span) (condition : Expr)
    (body : Block) :
    (perform encoder.traced state (.exit p (.conditional span condition body))).encoding.log =
      state.encoding.log ++ [.pop] :=
  log_pop encoder state

theorem opened_exit (state : State (σ × List Prover.Event)) (p : Position) (span : Span) (condition : Expr)
    (body : Block) :
    opened (perform encoder.traced state (.exit p (.conditional span condition body))) =
      (opened state).pop := by
  rw [opened, log_exit, Prover.replay_append]
  rfl

/-- What a walk says between entering and leaving statements: it opens and closes scopes in pairs, and leaves
open what it asserts outside of them. -/
structure Nested (events : List Event) : Prop where
  balanced : ∀ state, ∃ calls, Prover.Balanced calls ∧
    (performAll encoder.traced state events).encoding.log = state.encoding.log ++ calls
  stays : ∀ state, (opened state).Extends (opened (performAll encoder.traced state events))
    (standing (Event.stays events) (assertions encoder.traced state events))
  holdsAt : ∀ state before p s after, events = before ++ .enter p s :: after →
    (opened (performAll encoder.traced state before)).assertions = (opened state).assertions ++
      standing (Event.holdsAt before p.path) (assertions encoder.traced state before)
  entered : ∀ before p s after, events = before ++ .enter p s :: after →
    ∀ q t, .enter q t ∈ after → ¬ q.inside 0 <:+ p.path

namespace Nested

variable {encoder} {events events' : List Event} {p : Position} {s : Stmt}

theorem nil : Nested encoder [] where
  balanced _ := ⟨[], .of_forall_ne nofun, (List.append_nil _).symm⟩
  stays _ := .refl _
  holdsAt _ _ _ _ _ h := by simp at h
  entered _ _ _ _ h := by simp at h

/-- Nested stretches of a walk that are apart are nested one behind the other. -/
theorem append (h : Nested encoder events) (h' : Nested encoder events')
    (hapart : Event.Apart events events') : Nested encoder (events ++ events') where
  balanced state := by
    obtain ⟨calls, hcalls, hlog⟩ := h.balanced state
    obtain ⟨calls', hcalls', hlog'⟩ := h'.balanced (performAll encoder.traced state events)
    refine ⟨calls ++ calls', hcalls.append hcalls', ?_⟩
    rw [performAll_append, hlog', hlog, List.append_assoc]
  stays state := by
    have hfirst : standing (Event.stays (events ++ events')) (assertions encoder.traced state events) =
        standing (Event.stays events) (assertions encoder.traced state events) :=
      standing_congr fun a ha => Event.stays_append_left fun e' he' =>
        (hapart a.1 (mem_of_mem_assertions _ ha) e' he').2
    have hsecond : standing (Event.stays (events ++ events'))
        (assertions encoder.traced (performAll encoder.traced state events) events') =
        standing (Event.stays events')
          (assertions encoder.traced (performAll encoder.traced state events) events') :=
      standing_congr fun a ha => Event.stays_append_right fun e he =>
        (hapart e he a.1 (mem_of_mem_assertions _ ha)).1
    rw [assertions_append, standing_append, hfirst, hsecond, performAll_append]
    exact (h.stays state).trans (h'.stays _)
  holdsAt state before p s after heq := by
    rcases append_eq_append_cons heq with ⟨before', rfl, heq'⟩ | ⟨after', heq', _⟩
    -- For an `if` of the second stretch, the first stretch is over: what stays of it is what holds.
    · have hmem : .enter p s ∈ events' := by simp [heq']
      have hsubset : ∀ e ∈ before', e ∈ events' := fun e he => by simp [heq', he]
      have hfirst : standing (Event.holdsAt (events ++ before') p.path)
          (assertions encoder.traced state events) =
          standing (Event.stays events) (assertions encoder.traced state events) := by
        refine standing_congr fun a ha => ?_
        have ha := mem_of_mem_assertions _ ha
        refine (Event.holdsAt_eq_stays (hapart a.1 ha _ hmem).1).trans ?_
        exact Event.stays_append_left fun e he => (hapart a.1 ha e (hsubset e he)).2
      have hsecond : standing (Event.holdsAt (events ++ before') p.path)
          (assertions encoder.traced (performAll encoder.traced state events) before') =
          standing (Event.holdsAt before' p.path)
            (assertions encoder.traced (performAll encoder.traced state events) before') :=
        standing_congr fun a ha => Event.holdsAt_append_right fun e he =>
          (hapart e he a.1 (hsubset _ (mem_of_mem_assertions _ ha))).1
      rw [performAll_append, h'.holdsAt _ before' p s after heq', (h.stays state).assertions,
        assertions_append, standing_append, hfirst, hsecond, List.append_assoc]
    · exact h.holdsAt state before p s after' heq'
  entered before p s after heq q t hq := by
    rcases append_eq_append_cons heq with ⟨before', rfl, heq'⟩ | ⟨after', heq', rfl⟩
    · exact h'.entered before' p s after heq' q t hq
    · rcases List.mem_append.1 hq with hq | hq
      · exact h.entered before p s after' heq' q t hq
      · exact (hapart (.enter p s) (by simp [heq']) _ hq).2

/-- A statement was entered before what stands in its body. -/
theorem mem_before (h : Nested encoder events) {before after : List Event}
    (heq : events = before ++ .enter p s :: after) {q : Position} {t : Stmt} (hq : .enter q t ∈ events)
    (hsuffix : q.inside 0 <:+ p.path) : .enter q t ∈ before := by
  rw [heq] at hq
  rcases List.mem_append.1 hq with hq | hq
  · exact hq
  · rcases List.mem_cons.1 hq with hq | hq
    · cases hq
      exact absurd hsuffix (p.not_inside_suffix 0)
    · exact absurd hsuffix (h.entered before p s after heq q t hq)

/-- The events around a statement that is no conditional leave no further path. -/
theorem isLeft_around {s : Stmt} (hs : ∀ span condition body, s ≠ .conditional span condition body)
    (p : Position) (events : List Event) (path : Path) :
    Event.isLeft (.enter p s :: events ++ [.exit p s]) path = Event.isLeft events path := by
  have hexit : Event.isLeft [.exit p s] path = false := by
    cases s with
    | conditional span condition body => exact absurd rfl (hs span condition body)
    | _ => rfl
  rw [Event.isLeft_append, hexit, Bool.or_false]
  rfl

/-- No `if` in a statement is around it. -/
theorem isLeft_around_eq_false (hinside : ∀ e ∈ events, ∃ block, p.inside block <:+ e.position.path)
    (s : Stmt) : Event.isLeft (.enter p s :: events ++ [.exit p s]) p.path = false := by
  refine Event.isLeft_eq_false fun e he hsuffix => ?_
  obtain ⟨block, hblock⟩ := (Event.within_of_mem_around hinside e he).exists_suffix_inside
  exact p.not_inside_suffix block (hblock.trans hsuffix)

/-- Around a statement too, nothing is entered behind what it encloses: a statement is entered before those inside
it. -/
theorem entered_around (h : Nested encoder events)
    (hinside : ∀ e ∈ events, ∃ block, p.inside block <:+ e.position.path)
    (before : List Event) (q : Position) (t : Stmt) (after : List Event)
    (heq : .enter p s :: events ++ [.exit p s] = before ++ .enter q t :: after) :
    ∀ r u, .enter r u ∈ after → ¬ r.inside 0 <:+ q.path := by
  intro r u hr hsuffix
  rcases Event.exists_of_around_eq heq with rfl | ⟨inner, rest, rfl, rfl⟩
  · cases heq
    rcases List.mem_append.1 hr with hr | hr
    · obtain ⟨block, hblock⟩ := hinside _ hr
      exact p.not_inside_suffix block ((hblock.trans (r.path_suffix_inside 0)).trans hsuffix)
    · cases List.mem_singleton.1 hr
  · have hafter : after = rest ++ [.exit p s] := by simpa using heq.symm
    rw [hafter] at hr
    rcases List.mem_append.1 hr with hr | hr
    · exact h.entered inner q t rest rfl r u hr hsuffix
    · cases List.mem_singleton.1 hr

/-- Entering a statement that is no `if` opens what is asserted there, and leaving it closes nothing. -/
theorem around (h : Nested encoder events) (hs : ∀ span condition body, s ≠ .conditional span condition body)
    (hinside : ∀ e ∈ events, ∃ block, p.inside block <:+ e.position.path) :
    Nested encoder (.enter p s :: events ++ [.exit p s]) := by
  refine ⟨fun state => ?_, fun state => ?_, fun state before q t after heq => ?_, entered_around h hinside⟩
  · obtain ⟨calls, hcalls, hlog, _⟩ := exists_log_enter_of_ne encoder hs state p
    obtain ⟨inner, hinner, hlog'⟩ := h.balanced (perform encoder.traced state (.enter p s))
    refine ⟨calls ++ inner, hcalls.append hinner, ?_⟩
    rw [performAll_around, perform_exit_of_ne encoder.traced hs, hlog', hlog, List.append_assoc]
  · obtain ⟨_, _, _, hextends⟩ := exists_log_enter_of_ne encoder hs state p
    have hfirst := standing_enter encoder.traced hs state p (fun _ _ _ => rfl) (isLeft_around_eq_false hinside s)
    rw [assertions_around, standing_append, hfirst, Event.stays_congr (isLeft_around hs p events),
      performAll_around, perform_exit_of_ne encoder.traced hs]
    exact hextends.trans (h.stays _)
  · rcases Event.exists_of_around_eq heq with rfl | ⟨inner, rest, rfl, rfl⟩
    · exact (List.append_nil _).symm
    · obtain ⟨_, _, _, hextends⟩ := exists_log_enter_of_ne encoder hs state p
      have hleft : Event.isLeft inner p.path = false := by
        rw [← isLeft_around hs p]
        exact isLeft_around_eq_false (fun e he => hinside e (List.mem_append_left _ he)) s
      have hfirst : standing (Event.holdsAt (.enter p s :: inner) q.path) _ = _ :=
        standing_enter encoder.traced hs state p (fun _ _ _ => rfl) hleft
      have hsame : Event.holdsAt (.enter p s :: inner) q.path = Event.holdsAt inner q.path :=
        Event.holdsAt_congr (fun _ => rfl) q.path
      rw [assertions, standing_append, hfirst, hsame, ← List.append_assoc, ← hextends.assertions]
      exact h.holdsAt (perform encoder.traced state (.enter p s)) inner q t rest rfl

/-- What is asserted from entering an `if` on is closed when it is left. -/
theorem around_conditional (h : Nested encoder events) (hinside : ∀ e ∈ events, p.inside 0 <:+ e.position.path)
    (span : Span) (condition : Expr) (body : Block) :
    Nested encoder (.enter p (.conditional span condition body) :: events ++
      [.exit p (.conditional span condition body)]) := by
  refine ⟨fun state => ?_, fun state => ?_, fun state before q t after heq => ?_,
    entered_around h fun e he => ⟨0, hinside e he⟩⟩
  · obtain ⟨questions, hquestions, hlog, _⟩ := exists_log_enter encoder state p span condition body
    obtain ⟨inner, hinner, hlog'⟩ :=
      h.balanced (perform encoder.traced state (.enter p (.conditional span condition body)))
    have hassumed : Prover.Balanced [.assert (assumed encoder state condition)] := .of_forall_ne (by simp)
    refine ⟨_, hquestions.append (hassumed.append hinner).scope, ?_⟩
    rw [performAll_around, log_exit, hlog', hlog]
    simp
  · obtain ⟨_, _, _, hextends⟩ := exists_log_enter encoder state p span condition body
    have hnone : standing (Event.stays (.enter p (.conditional span condition body) :: events ++
          [.exit p (.conditional span condition body)]))
        (assertions encoder.traced state (.enter p (.conditional span condition body) :: events ++
          [.exit p (.conditional span condition body)])) = [] := by
      rw [assertions_around]
      refine standing_eq_nil fun a ha => ?_
      rcases List.mem_cons.1 ha with rfl | ha
      · rfl
      · exact Event.stays_eq_false (List.mem_append_right _ (List.mem_singleton_self _))
          (hinside a.1 (mem_of_mem_assertions _ ha))
    rw [hnone, performAll_around, opened_exit]
    exact (hextends.trans (h.stays _)).pop
  · rcases Event.exists_of_around_eq heq with rfl | ⟨inner, rest, rfl, rfl⟩
    · exact (List.append_nil _).symm
    · obtain ⟨_, _, _, hextends⟩ := exists_log_enter encoder state p span condition body
      have hpath : p.inside 0 <:+ q.path := hinside (.enter q t) (by simp)
      have hfirst : standing (Event.holdsAt (.enter p (.conditional span condition body) :: inner) q.path)
          [(.enter p (.conditional span condition body), assumed encoder state condition)] =
          [assumed encoder state condition] := by
        simp [standing, Event.holdsAt, hpath]
      have hsame : Event.holdsAt (.enter p (.conditional span condition body) :: inner) q.path =
          Event.holdsAt inner q.path :=
        Event.holdsAt_congr (fun _ => rfl) q.path
      have hassertions := hextends.assertions
      rw [Evaluation.Session.assertions_push] at hassertions
      rw [assertions]
      refine Eq.trans ?_ (congrArg _ (standing_append _ _ _).symm)
      change _ = _ ++ (standing _ [(_, assumed encoder state condition)] ++ _)
      rw [hfirst, hsame, ← List.append_assoc, ← hassertions]
      exact h.holdsAt _ inner q t rest rfl

end Nested

mutual

/-- The events of a statement are nested: what is asserted in it is open exactly where it says. The induction is on the
statement. -/
theorem nested_stmt : ∀ (s : Stmt) (p : Position),
    Nested encoder (.enter p s :: s.innerEvents p ++ [.exit p s])
  | .conditional span condition body, p =>
    (nested_block body (p.inside 0)).around_conditional
      (Block.path_suffix_of_mem_events body (p.inside 0)) span condition body
  | .function span name parameters returns body, p =>
    (nested_block body (p.inside 0)).around nofun
      (Stmt.inside_suffix_of_mem_innerEvents (.function span name parameters returns body) p)
  | .block body, p =>
    (nested_block body (p.inside 0)).around nofun (Stmt.inside_suffix_of_mem_innerEvents (.block body) p)
  | .switch span scrutinee cases, p =>
    (nested_cases cases p 0).around nofun
      (Stmt.inside_suffix_of_mem_innerEvents (.switch span scrutinee cases) p)
  | .loop span pre condition post body, p => by
    have hpre := Block.path_suffix_of_mem_events pre (p.inside 0)
    have hbody := Block.path_suffix_of_mem_events body (p.inside 1)
    have hpost := Block.path_suffix_of_mem_events post (p.inside 2)
    have hinner := (nested_block body (p.inside 1)).append (nested_block post (p.inside 2))
      (.of_inside hbody fun e he => ⟨2, by decide, hpost e he⟩)
    have hall := (nested_block pre (p.inside 0)).append hinner
      (.of_inside hpre fun e he => (List.mem_append.1 he).elim
        (fun he => ⟨1, by decide, hbody e he⟩) (fun he => ⟨2, by decide, hpost e he⟩))
    exact hall.around nofun
      (Stmt.inside_suffix_of_mem_innerEvents (.loop span pre condition post body) p)
  | .declaration .., p | .expression _, p | .assignment .., p | .break _, p | .continue _, p
  | .leave _, p => Nested.nil.around nofun nofun

theorem nested_block : ∀ (b : Block) (path : Path), Nested encoder (b.events path)
  | ⟨_, statements⟩, path => nested_stmts statements path 0

/-- The events of statements are nested, those of one apart from those of the others. -/
theorem nested_stmts : ∀ (statements : List Stmt) (path : Path) (index : Nat),
    Nested encoder (Stmt.allEvents path index statements)
  | [], _, _ => .nil
  | s :: rest, path, index => by
    rw [Stmt.allEvents, List.append_cons]
    refine (nested_stmt s ⟨path, index⟩).append (nested_stmts rest path (index + 1)) ?_
    exact .of_within (Event.within_of_mem_around (Stmt.inside_suffix_of_mem_innerEvents s ⟨path, index⟩))
      (Stmt.within_of_mem_allEvents rest path (index + 1))

/-- The events of cases are nested, those of one apart from those of the others. -/
theorem nested_cases : ∀ (cases : List Case) (p : Position) (block : Nat),
    Nested encoder (Case.allEvents p block cases)
  | [], _, _ => .nil
  | ⟨_, _, body⟩ :: rest, p, block => by
    rw [Case.allEvents]
    refine (nested_block body (p.inside block)).append (nested_cases rest p (block + 1)) ?_
    exact .of_inside (Block.path_suffix_of_mem_events body (p.inside block))
      (Case.inside_suffix_of_mem_allEvents rest p (block + 1))

end

/-- A condition opens three scopes, for its two questions and for its body, and gets two answers; no other event does
either. -/
theorem Says.count {state : State σ} {event : Event} {calls : List Prover.Event}
    (h : Says encoder state event calls) :
    calls.count .push = 3 * event.condition?.toList.length ∧
      (Prover.verdicts calls).length = 2 * event.condition?.toList.length := by
  cases h with
  | definition hnames hf =>
    rw [List.count_append, Prover.verdicts_append, Prover.count_push_of_isNaming hnames,
      Prover.verdicts_of_isNaming hnames]
    exact ⟨rfl, rfl⟩
  | question hnames answers =>
    rw [List.count_append, Prover.verdicts_append, Prover.count_push_of_isNaming hnames,
      Prover.verdicts_of_isNaming hnames]
    exact ⟨rfl, rfl⟩
  | leaving => exact ⟨rfl, rfl⟩
  | nothing hassertion hexit =>
    have hnone : event.condition? = none := by
      rw [Event.condition?.eq_def]
      split
      · cases hassertion
      · rfl
    rw [hnone]
    exact ⟨rfl, rfl⟩

/-- Where a question is asked, a walk meets an `if`: one of its two hypotheses was asserted just before. -/
theorem Says.of_check {state : State σ} {event : Event} {done rest : List Prover.Event}
    {assumptions : List Formula} {verdict : Verdict}
    (h : Says encoder state event (done ++ .check assumptions verdict :: rest)) :
    assumptions = [] ∧ ∃ p span condition body hypothesis,
      event = .enter p (.conditional span condition body) ∧
      (hypothesis = .eq (encoder.encode condition state.encoding).1 (.int 0) ∨
        hypothesis = .notEq (encoder.encode condition state.encoding).1 (.int 0)) ∧
      ∀ session : Evaluation.Session,
        (Prover.replay session done).assertions = session.assertions ++ [hypothesis] := by
  generalize hcalls : done ++ .check assumptions verdict :: rest = calls at h
  have hmem : .check assumptions verdict ∈ calls := by simp [← hcalls]
  cases h with
  | definition hnames hf =>
    rcases List.mem_append.1 hmem with hmem | hmem
    · obtain ⟨name, sort, heq⟩ := hnames _ hmem
      cases heq
    · cases List.mem_singleton.1 hmem
  | question hnames answers =>
    rcases append_eq_append_cons hcalls.symm with ⟨done', rfl, hquestions⟩ | ⟨rest', hnames', _⟩
    · obtain ⟨rfl, hypothesis, hhypothesis, hreplay⟩ := answers.of_calls_eq hquestions
      refine ⟨rfl, _, _, _, _, hypothesis, rfl, hhypothesis, fun session => ?_⟩
      rw [Prover.replay_append, Prover.replay_of_isNaming hnames]
      exact hreplay session
    · obtain ⟨name, sort, heq⟩ := hnames (.check assumptions verdict) (by simp [hnames'])
      cases heq
  | leaving => cases List.mem_singleton.1 hmem
  | nothing => cases hmem

/-- The log only grows. -/
theorem log_prefix_performAll (state : State (σ × List Prover.Event)) (events : List Event) :
    state.encoding.log <+: (performAll encoder.traced state events).encoding.log := by
  induction events generalizing state with
  | nil => exact List.prefix_refl _
  | cons event rest ih =>
    obtain ⟨calls, _, hlog⟩ := exists_says encoder state event
    exact (hlog ▸ List.prefix_append _ calls : _ <+: _).trans (ih (perform encoder.traced state event))

/-- A walk asks two questions for each `if`, and opens three scopes. -/
theorem count_performAll (state : State (σ × List Prover.Event)) (events : List Event) :
    let visited := performAll encoder.traced state events
    visited.encoding.log.count .push =
        state.encoding.log.count .push + 3 * (events.filterMap Event.condition?).length ∧
      (Prover.verdicts visited.encoding.log).length =
        (Prover.verdicts state.encoding.log).length + 2 * (events.filterMap Event.condition?).length := by
  induction events generalizing state with
  | nil => exact ⟨rfl, rfl⟩
  | cons event rest ih =>
    obtain ⟨calls, hsays, hlog⟩ := exists_says encoder state event
    obtain ⟨hpush, hverdicts⟩ := hsays.count
    obtain ⟨hpush', hverdicts'⟩ := ih (perform encoder.traced state event)
    have hlength : ((event :: rest).filterMap Event.condition?).length =
        event.condition?.toList.length + (rest.filterMap Event.condition?).length := by
      rw [List.filterMap_cons]
      cases event.condition? <;> simp [Nat.add_comm]
    rw [hlog, List.count_append, hpush] at hpush'
    rw [hlog, Prover.verdicts_append, List.length_append, hverdicts] at hverdicts'
    refine ⟨hpush'.trans ?_, hverdicts'.trans ?_⟩ <;> rw [hlength] <;> omega

/-- What is in the log was said at something that the walk came by. -/
theorem exists_of_log_performAll_eq {state : State (σ × List Prover.Event)} (hstate : state.encoding.log = [])
    {events : List Event} {call : Prover.Event} {done rest : List Prover.Event}
    (h : (performAll encoder.traced state events).encoding.log = done ++ call :: rest) :
    ∃ before event after done' rest', events = before ++ event :: after ∧
      let reached := performAll encoder.traced state before
      Says encoder.traced reached event (done' ++ call :: rest') ∧ done = reached.encoding.log ++ done' := by
  induction events using List.reverseRecOn generalizing rest with
  | nil =>
    change state.encoding.log = _ at h
    simp [hstate] at h
  | append_singleton events event ih =>
    obtain ⟨calls, hsays, hlog⟩ := exists_says encoder (performAll encoder.traced state events) event
    rw [performAll_append] at h
    rcases append_eq_append_cons (hlog.symm.trans h) with ⟨done', rfl, rfl⟩ | ⟨rest', hevents, _⟩
    · exact ⟨events, event, [], done', rest, rfl, hsays, rfl⟩
    · obtain ⟨before, event', after, done', rest', rfl, hsays', hdone⟩ := ih hevents
      exact ⟨before, event', after ++ [event], done', rest', by simp, hsays', hdone⟩

/-- Where a walk meets an `if`, both questions about it are asked. -/
theorem exists_calls_prefix (state : State (σ × List Prover.Event)) {events before after : List Event}
    {p : Position} {span : Span} {condition : Expr} {body : Block}
    (h : events = before ++ .enter p (.conditional span condition body) :: after) :
    let reached := performAll encoder.traced state before
    ∃ (names : List Prover.Event) (answers : Answers), (∀ event ∈ names, event.IsNaming) ∧
      reached.encoding.log ++ (names ++ answers.calls (encoder.traced.encode condition reached.encoding).1) <+:
        (performAll encoder.traced state events).encoding.log := by
  obtain ⟨calls, hsays, hlog⟩ := exists_says encoder (performAll encoder.traced state before)
    (.enter p (.conditional span condition body))
  rw [h, performAll_append]
  cases hsays with
  | question hnames answers =>
    refine ⟨_, answers, hnames, ?_⟩
    rw [← hlog]
    exact log_prefix_performAll encoder _ after
  | nothing hassertion => cases hassertion

/-- Whatever the prover answers, `runWith` opens and closes scopes in pairs, three for each `if`, and asks two
questions for each. Where the walk meets an `if` it asks them one after the other, with no assumptions. Besides the
hypothesis what is open then are the definitions that the walk came by, but for those in the body of an `if` that it
has left, and the assumptions of the `if` statements around. Only definitions outside of all of them are left open. -/
theorem openAssertions_runWith (prover : Prover σ) (dialect : Dialect) (block : Block) (session : σ) :
    let encoder : Encoder (σ × List Prover.Event) :=
      { dialect, tracked := block.singleAssignmentValues.contains, prover := prover.traced }
    let reached := performAll encoder { encoding := { session := (session, []) } }
    let made := assertions encoder { encoding := { session := (session, []) } }
    let formula before condition := (encoder.encode condition (reached before).encoding).1
    let traced := runWith prover.traced dialect block (session, [])
    let log := traced.2.2.reverse
    runWith prover dialect block session = (traced.1, traced.2.1) ∧
      Prover.Balanced log ∧
      log.count .push = 3 * block.conditions.length ∧ log.count .pop = 3 * block.conditions.length ∧
      (Prover.verdicts log).length = 2 * block.conditions.length ∧
      (∀ before p span condition body after,
        block.events [] = before ++ .enter p (.conditional span condition body) :: after →
          (∃ (names : List Prover.Event) (answers : Answers), (∀ event ∈ names, event.IsNaming) ∧
            (reached before).encoding.log ++ (names ++ answers.calls (formula before condition)) <+: log) ∧
          ∀ q s, .enter q s ∈ block.events [] → q.inside 0 <:+ p.path → .enter q s ∈ before) ∧
      (∀ done assumptions verdict rest, log = done ++ .check assumptions verdict :: rest →
        assumptions = [] ∧ ∃ before p span condition body after hypothesis,
          block.events [] = before ++ .enter p (.conditional span condition body) :: after ∧
          (hypothesis = .eq (formula before condition) (.int 0) ∨
            hypothesis = .notEq (formula before condition) (.int 0)) ∧
          Prover.openAssertions done = standing (Event.holdsAt before p.path) (made before) ++ [hypothesis]) ∧
      Prover.openAssertions log = standing (Event.stays (block.events [])) (made (block.events [])) := by
  intro encoder reached made formula traced log
  let plain : Encoder σ := { dialect, tracked := block.singleAssignmentValues.contains, prover }
  let start : State (σ × List Prover.Event) := { encoding := { session := (session, []) } }
  have hlog : log = (reached (block.events [])).encoding.log :=
    congrArg (·.encoding.log) (visitBlock_eq_performAll encoder block [] start)
  have hnested : Nested plain (block.events []) := nested_block plain block []
  obtain ⟨hpush, hverdicts⟩ := count_performAll plain start (block.events [])
  obtain ⟨calls, hcalls, hsaid⟩ := hnested.balanced start
  have hbalanced : Prover.Balanced log := (hlog.trans hsaid).symm ▸ hcalls
  rw [Block.filterMap_condition?_events] at hpush hverdicts
  have hpushed : log.count .push = 3 * block.conditions.length := by
    rw [hlog]
    exact hpush.trans (Nat.zero_add _)
  refine ⟨runWith_traced prover dialect block session [], hbalanced, hpushed,
    hbalanced.count_eq.trans hpushed, ?_, ?_, ?_, ?_⟩
  · rw [hlog]
    exact hverdicts.trans (Nat.zero_add _)
  · intro before p span condition body after hevents
    refine ⟨?_, fun q s hq hsuffix => ?_⟩
    · rw [hlog]
      exact exists_calls_prefix plain start hevents
    · exact hnested.mem_before hevents hq hsuffix
  · intro done assumptions verdict rest hdone
    obtain ⟨before, event, after, done', rest', hevents, hsays, rfl⟩ :=
      exists_of_log_performAll_eq plain rfl (hlog.symm.trans hdone)
    obtain ⟨rfl, p, span, condition, body, hypothesis, rfl, hhypothesis, hreplay⟩ := hsays.of_check
    refine ⟨rfl, before, p, span, condition, body, after, hypothesis, hevents, hhypothesis, ?_⟩
    rw [Prover.openAssertions, Prover.replay_append, hreplay]
    exact congrArg (· ++ [hypothesis]) (hnested.holdsAt start before p _ after hevents)
  · rw [hlog]
    exact (hnested.stays start).assertions

end ConstantConditions

end YulBackend
