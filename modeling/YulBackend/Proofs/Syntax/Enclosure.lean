import Mathlib
import YulBackend.Proofs.Syntax.Positions

namespace YulBackend

/-- Where a walk is when it comes by something. -/
def Event.position : Event → Position
  | .enter p _ | .exit p _ => p

/-- A statement is the one with a number in a block, or stands in that one. -/
def Position.Within (path : Path) (index : Nat) (q : Position) : Prop :=
  q = ⟨path, index⟩ ∨ ∃ block, Position.inside ⟨path, index⟩ block <:+ q.path

/-- Nothing that a walk comes by in one of two parts stands in the first block of a statement of the other. -/
def Event.Apart (events events' : List Event) : Prop :=
  ∀ e ∈ events, ∀ e' ∈ events',
    ¬ e.position.inside 0 <:+ e'.position.path ∧ ¬ e'.position.inside 0 <:+ e.position.path

theorem Path.eq_of_suffix {x y path : Path} (hx : x <:+ path) (hy : y <:+ path)
    (hlength : x.length = y.length) : x = y :=
  (List.suffix_of_suffix_length_le hx hy hlength.le).eq_of_length hlength

/-- A block has one number in the statement that it belongs to, and that one in its own block. -/
theorem Path.eq_of_inside_suffix {p q : Position} {block block' : Nat} {path : Path}
    (hpath : p.path = q.path) (hp : p.inside block <:+ path) (hq : q.inside block' <:+ path) :
    p.index = q.index ∧ block = block' := by
  have heq := Path.eq_of_suffix hp hq (by rw [Position.inside, Position.inside, hpath]; rfl)
  rw [Position.inside, Position.inside, List.cons.injEq, Prod.mk.injEq] at heq
  exact heq.1

namespace Position

theorem path_suffix_inside (p : Position) (block : Nat) : p.path <:+ p.inside block :=
  List.suffix_cons _ _

/-- A statement does not stand in a block that is inside of it. -/
theorem not_inside_suffix (p : Position) (block : Nat) : ¬ p.inside block <:+ p.path := by
  intro h
  have hle := h.length_le
  rw [inside, List.length_cons] at hle
  omega

variable {path : Path} {index index' : Nat} {p q : Position}

theorem Within.exists_suffix_inside (h : p.Within path index) :
    ∃ block, Position.inside ⟨path, index⟩ block <:+ p.inside 0 := by
  rcases h with rfl | ⟨block, h⟩
  · exact ⟨0, List.suffix_refl _⟩
  · exact ⟨block, h.trans (p.path_suffix_inside 0)⟩

theorem Within.path_suffix (h : p.Within path index) : path <:+ p.path := by
  rcases h with rfl | ⟨block, h⟩
  · exact List.suffix_refl _
  · exact (Position.path_suffix_inside ⟨path, index⟩ block).trans h

/-- Different statements of a block do not stand in one another. -/
theorem Within.not_inside_suffix (hp : p.Within path index) (hq : q.Within path index')
    (hne : index ≠ index') : ¬ p.inside 0 <:+ q.path := by
  intro h
  obtain ⟨block, hblock⟩ := hp.exists_suffix_inside
  rcases hq with rfl | ⟨block', hblock'⟩
  · exact Position.not_inside_suffix ⟨path, index⟩ block (hblock.trans h)
  · exact hne (Path.eq_of_inside_suffix (p := ⟨path, index⟩) (q := ⟨path, index'⟩) rfl
      (hblock.trans h) hblock').1

end Position

namespace Event.Apart

variable {events events' : List Event} {path : Path}

/-- Events at one statement are apart from events at statements behind it. -/
theorem of_within {index : Nat} (h : ∀ e ∈ events, e.position.Within path index)
    (h' : ∀ e ∈ events', ∃ i, index < i ∧ e.position.Within path i) : Apart events events' := by
  intro e he e' he'
  obtain ⟨i, hlt, hi⟩ := h' e' he'
  exact ⟨(h e he).not_inside_suffix hi hlt.ne, hi.not_inside_suffix (h e he) hlt.ne'⟩

/-- Events in one block of a statement are apart from events in its further blocks. -/
theorem of_inside {p : Position} {block : Nat} (h : ∀ e ∈ events, p.inside block <:+ e.position.path)
    (h' : ∀ e ∈ events', ∃ k, block < k ∧ p.inside k <:+ e.position.path) : Apart events events' := by
  intro e he e' he'
  obtain ⟨k, hlt, hk⟩ := h' e' he'
  have hblock := h e he
  refine ⟨fun hsuffix => ?_, fun hsuffix => ?_⟩
  · have hinner := (hblock.trans (e.position.path_suffix_inside 0)).trans hsuffix
    exact hlt.ne (Path.eq_of_inside_suffix rfl hinner hk).2
  · have hinner := (hk.trans (e'.position.path_suffix_inside 0)).trans hsuffix
    exact hlt.ne (Path.eq_of_inside_suffix rfl hblock hinner).2

end Event.Apart

theorem Event.within_of_mem_around {s : Stmt} {p : Position} {events : List Event}
    (h : ∀ e ∈ events, ∃ block, p.inside block <:+ e.position.path) :
    ∀ e ∈ enter p s :: events ++ [exit p s], e.position.Within p.path p.index := by
  intro e he
  rcases List.mem_append.1 he with he | he
  · rcases List.mem_cons.1 he with rfl | he
    · exact .inl rfl
    · exact .inr (h e he)
  · rw [List.mem_singleton.1 he]
    exact .inl rfl

mutual

/-- Whatever a walk comes by inside a statement is in one of its blocks. -/
theorem Stmt.inside_suffix_of_mem_innerEvents : ∀ (s : Stmt) (p : Position),
    ∀ e ∈ s.innerEvents p, ∃ block, p.inside block <:+ e.position.path
  | .function _ _ _ _ body, p, e, he | .conditional _ _ body, p, e, he | .block body, p, e, he =>
    ⟨0, Block.path_suffix_of_mem_events body (p.inside 0) e he⟩
  | .switch _ _ cases, p, e, he => by
    obtain ⟨k, _, hk⟩ := Case.inside_suffix_of_mem_allEvents cases p 0 e he
    exact ⟨k, hk⟩
  | .loop _ pre _ post body, p, e, he => by
    rw [Stmt.innerEvents, List.mem_append, List.mem_append] at he
    rcases he with he | he | he
    · exact ⟨0, Block.path_suffix_of_mem_events pre (p.inside 0) e he⟩
    · exact ⟨1, Block.path_suffix_of_mem_events body (p.inside 1) e he⟩
    · exact ⟨2, Block.path_suffix_of_mem_events post (p.inside 2) e he⟩
  | .expression _, _, _, he | .assignment .., _, _, he | .declaration .., _, _, he | .break _, _, _, he
  | .continue _, _, _, he | .leave _, _, _, he => nomatch he

/-- Whatever a walk comes by in a block is inside of this block. -/
theorem Block.path_suffix_of_mem_events : ∀ (b : Block) (path : Path),
    ∀ e ∈ b.events path, path <:+ e.position.path
  | ⟨_, statements⟩, path, e, he => by
    obtain ⟨i, _, hi⟩ := Stmt.within_of_mem_allEvents statements path 0 e he
    exact hi.path_suffix

/-- Whatever a walk comes by in statements in a row is at or inside of one of them. -/
theorem Stmt.within_of_mem_allEvents : ∀ (statements : List Stmt) (path : Path) (index : Nat),
    ∀ e ∈ Stmt.allEvents path index statements, ∃ i, index ≤ i ∧ e.position.Within path i
  | [], _, _, e, he => nomatch he
  | s :: rest, path, index, e, he => by
    rw [Stmt.allEvents, List.append_cons, List.mem_append] at he
    rcases he with he | he
    · refine ⟨index, Nat.le_refl _, Event.within_of_mem_around ?_ e he⟩
      exact Stmt.inside_suffix_of_mem_innerEvents s ⟨path, index⟩
    · obtain ⟨i, hle, hi⟩ := Stmt.within_of_mem_allEvents rest path (index + 1) e he
      exact ⟨i, Nat.le_of_succ_le hle, hi⟩

/-- Whatever a walk comes by in the clauses of a `switch` is in the body of one of them. -/
theorem Case.inside_suffix_of_mem_allEvents : ∀ (cases : List Case) (p : Position) (block : Nat),
    ∀ e ∈ Case.allEvents p block cases, ∃ k, block ≤ k ∧ p.inside k <:+ e.position.path
  | [], _, _, e, he => nomatch he
  | ⟨_, _, body⟩ :: rest, p, block, e, he => by
    rw [Case.allEvents, List.mem_append] at he
    rcases he with he | he
    · exact ⟨block, Nat.le_refl _, Block.path_suffix_of_mem_events body (p.inside block) e he⟩
    · obtain ⟨k, hle, hk⟩ := Case.inside_suffix_of_mem_allEvents rest p (block + 1) e he
      exact ⟨k, Nat.le_of_succ_le hle, hk⟩

end

end YulBackend
