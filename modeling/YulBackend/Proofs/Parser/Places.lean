import YulBackend.Proofs.Parser.Pieces

namespace YulBackend

namespace Node

variable {source : String} {start stop start' stop' : Nat} {n : Node} {ns ns' : List Node} {rest : List Lexeme}

/-- Everything in a node has its place in the text and is what the text reads there. -/
def Stands (source : String) (n : Node) : Prop := ∀ m, n.Contains m → m.Nests source ∧ m.Shows source

/-- Nodes that stand one behind the other between two positions. -/
inductive Row (source : String) : Nat → List Node → Nat → Prop
  | nil {start stop : Nat} : start ≤ stop → Row source start [] stop
  | cons {start stop : Nat} {n : Node} {ns : List Node} : start ≤ n.span.start → n.Stands source →
    Row source n.span.stop ns stop → Row source start (n :: ns) stop

theorem Stands.child (h : n.Stands source) {c : Node} (hc : c ∈ n.children) : c.Stands source :=
  fun m hm => h m (.child hc hm)

theorem Stands.start_le_stop (h : n.Stands source) : n.span.start ≤ n.span.stop := (h n (.self n)).1.start_le_stop

namespace Row

/-- A row does not run backwards, so an empty row may be put at any place inside its bounds. -/
theorem le (h : Row source start ns stop) : start ≤ stop := by
  induction h with
  | nil hle => exact hle
  | cons hstart hstands _ ih => exact hstart.trans (hstands.start_le_stop.trans ih)

/-- A row stays a row when its bounds are widened. -/
theorem mono (h : Row source start ns stop) (hstart : start' ≤ start) (hstop : stop ≤ stop') :
    Row source start' ns stop' := by
  induction h generalizing start' with
  | nil hle => exact .nil (hstart.trans (hle.trans hstop))
  | cons hle hstands _ ih => exact .cons (hstart.trans hle) hstands (ih le_rfl hstop)

/-- Two rows that meet form one row, the second behind the first. -/
theorem append (h : Row source start ns stop) (h' : Row source stop ns' stop') :
    Row source start (ns ++ ns') stop' := by
  induction h with
  | nil hle => exact h'.mono hle le_rfl
  | cons hle hstands _ ih => exact .cons hle hstands (ih h')

theorem stands (h : Row source start ns stop) : ∀ n ∈ ns, n.Stands source := by
  induction h with
  | nil => exact nofun
  | cons _ hstands _ ih => exact List.forall_mem_cons.2 ⟨hstands, ih⟩

/-- Every node of a row lies within the bounds of the row. -/
theorem inside (h : Row source start ns stop) : ∀ n ∈ ns, start ≤ n.span.start ∧ n.span.stop ≤ stop := by
  induction h with
  | nil => exact nofun
  | cons hle hstands hrow ih =>
    refine List.forall_mem_cons.2 ⟨⟨hle, hrow.le⟩, fun n hn => ?_⟩
    exact ⟨(hle.trans hstands.start_le_stop).trans (ih n hn).1, (ih n hn).2⟩

/-- The nodes of a row come one behind the other without overlap. -/
theorem order (h : Row source start ns stop) : ns.Pairwise fun a b => a.span.stop ≤ b.span.start := by
  induction h with
  | nil => exact .nil
  | cons _ _ hrow ih => exact .cons (fun n hn => (hrow.inside n hn).1) ih

end Row

/-- A node stands in the text behind a position, and behind the node the text goes on with these lexemes. -/
structure Placed (source : String) (start : Nat) (n : Node) (rest : List Lexeme) : Prop where
  le_start : start ≤ n.span.start
  stands : n.Stands source
  continues : Continues source n.span.stop rest

/-- A node is placed once its parts are, from its start to its stop. -/
theorem placed_of_row {first last : Nat} {lexemes : List Lexeme} (hspan : n.span = ⟨first, last⟩)
    (hle : start ≤ first) (hstart : Continues source first lexemes) (hrow : Row source first n.children last)
    (hstop : Continues source last rest) (hshows : n.Shows source) : n.Placed source start rest := by
  obtain ⟨rfl, rfl⟩ : n.span.start = first ∧ n.span.stop = last := by rw [hspan]; exact ⟨rfl, rfl⟩
  refine ⟨hle, forall_contains (P := fun m => m.Nests source ∧ m.Shows source) ⟨?_, hshows⟩ hrow.stands, hstop⟩
  exact ⟨hrow.le, hstop.boundary.le, hstart.boundary, hstop.boundary, hrow.inside, hrow.order⟩

namespace Placed

theorem mono (h : n.Placed source start rest) (hstart : start' ≤ start) : n.Placed source start' rest :=
  ⟨hstart.trans h.le_start, h.stands, h.continues⟩

theorem row (h : n.Placed source start rest) (hrow : Row source n.span.stop ns stop) :
    Row source start (n :: ns) stop :=
  .cons h.le_start h.stands hrow

/-- What is nothing but another node stands where this stands. -/
theorem only {m : Node} (h : n.Placed source start rest) (hspan : m.span = n.span) (hchildren : m.children = [n])
    (hshows : m.Shows source) : m.Placed source start rest := by
  have hn := (h.stands n (.self n)).1
  refine ⟨hspan ▸ h.le_start, forall_contains (P := fun m => m.Nests source ∧ m.Shows source) ⟨?_, hshows⟩ ?_,
    hspan ▸ h.continues⟩
  · refine ⟨hspan ▸ hn.start_le_stop, hspan ▸ hn.stop_le, hspan ▸ hn.start, hspan ▸ hn.stop, ?_, ?_⟩
    · rw [hchildren, hspan]
      simp
    · rw [hchildren]
      simp
  · rw [hchildren, List.forall_mem_singleton]
    exact h.stands

end Placed

end Node

namespace Parser

open Node (Row)

variable {source : String} {start stop : Nat} {lexeme : Lexeme} {lexemes rest : List Lexeme}

/-- What is read from one lexeme stands where this stands. -/
theorem placed_leaf {n : Node} (h : Continues source start (lexeme :: rest)) (hspan : n.span = lexeme.span)
    (hchildren : n.children = []) (hshows : n.Shows source) : n.Placed source start rest := by
  refine Node.placed_of_row hspan h.le_start h.from_start ?_ h.tail hshows
  rw [hchildren]
  exact .nil h.start_le_stop

theorem placed_name {name : String} (h : Continues source start (lexeme :: rest))
    (hname : lexeme.token = .identifier name) : (Node.name ⟨lexeme.span, name⟩).Placed source start rest :=
  placed_leaf h rfl rfl (h.slices_name hname)

theorem placed_literal {value : Literal} (h : Continues source start (lexeme :: rest))
    (hvalue : lexeme.literal? = some value) : (Node.literal value).Placed source start rest :=
  placed_leaf h (Lexeme.span_of_literal? hvalue) rfl (h.literal_shows hvalue)

/-- The names that `names?` reads form a row, and the remaining lexemes continue behind it. -/
theorem names?_row {names : List Identifier} (h : Continues source start lexemes)
    (hread : names? lexemes = some (names, rest)) :
    ∃ stop, Row source start (names.map .name) stop ∧ Continues source stop rest := by
  fun_induction names? lexemes generalizing start names with
  | case1 name span _ left ih =>
    obtain ⟨⟨others, left'⟩, hothers, heq⟩ := Option.bind_eq_some_iff.1 hread
    cases heq
    obtain ⟨stop, hrow, hrest⟩ := ih h.tail.tail hothers
    exact ⟨stop, (placed_name h rfl).row (hrow.mono h.tail.le_stop le_rfl), hrest⟩
  | case2 name span left _ =>
    cases hread
    exact ⟨_, (placed_name h rfl).row (.nil le_rfl), h.tail⟩
  | case3 => cases hread

/-- The parameters that `parameters?` reads form a row, and the remaining lexemes continue behind the closing
parenthesis. -/
theorem parameters?_row {names : List Identifier} (h : Continues source start lexemes)
    (hread : parameters? lexemes = some (names, rest)) :
    ∃ stop, Row source start (names.map .name) stop ∧ Continues source stop rest := by
  unfold parameters? at hread
  split at hread
  · cases hread
    exact ⟨_, .nil h.le_stop, h.tail⟩
  · obtain ⟨⟨names', left⟩, hnames, hread⟩ := Option.bind_eq_some_iff.1 hread
    obtain ⟨stop, hrow, hrest⟩ := names?_row h hnames
    dsimp only at hread
    split at hread
    · cases hread
      exact ⟨_, hrow.mono le_rfl hrest.le_stop, hrest.tail⟩
    · cases hread

/-- The return variables that `returns?` reads form a row, which is empty where the arrow is missing. -/
theorem returns?_row {names : List Identifier} (h : Continues source start lexemes)
    (hread : returns? lexemes = some (names, rest)) :
    ∃ stop, Row source start (names.map .name) stop ∧ Continues source stop rest := by
  unfold returns? at hread
  split at hread
  · obtain ⟨stop, hrow, hrest⟩ := names?_row h.tail hread
    exact ⟨stop, hrow.mono h.le_stop le_rfl, hrest⟩
  · cases hread
    exact ⟨start, .nil le_rfl, h⟩

/-- An expression shows the text it spans: the slice at its span parses to it again, moved to the slice's own
positions. -/
theorem ReadsExpr.shows {e : Expr} (hread : ReadsExpr e lexemes rest) (h : Continues source e.span.start lexemes) :
    e.Shows source := by
  obtain ⟨front, last, rfl, hstop, hfrom⟩ := hread.readFrom
  exact h.shows hstop hfrom

mutual

/-- An expression that is read has its place where the text continues with its lexemes. -/
theorem ReadsExpr.placed : ∀ {e : Expr} {lexemes rest : List Lexeme} {start : Nat}, ReadsExpr e lexemes rest →
    Continues source start lexemes → (Node.expr e).Placed source start rest
  | _, _, _, _, .call h, hlexemes => by
    obtain ⟨hrow, hrest⟩ := h.row hlexemes.tail.tail
    have hcallee := placed_name hlexemes.from_start rfl
    exact Node.placed_of_row rfl hlexemes.le_start hlexemes.from_start
      (hcallee.row (hrow.mono hlexemes.tail.le_stop le_rfl)) hrest ((ReadsExpr.call h).shows hlexemes.from_start)
  | _, _, _, _, .name hopen, hlexemes =>
    (placed_name hlexemes rfl).only rfl rfl ((ReadsExpr.name hopen).shows hlexemes.from_start)
  | .literal value, lexeme :: rest, _, _, .literal hvalue, hlexemes => by
    have hfrom : Continues source (Expr.literal value).span.start (lexeme :: rest) := by
      rw [Expr.span, Lexeme.span_of_literal? hvalue]
      exact hlexemes.from_start
    exact (placed_literal hlexemes hvalue).only rfl rfl ((ReadsExpr.literal hvalue).shows hfrom)

/-- The arguments `arguments?` reads form a row that stops at the closing parenthesis, where the call stops. -/
theorem ReadsArguments.row : ∀ {es : List Expr} {stop : Nat} {lexemes rest : List Lexeme} {start : Nat},
    ReadsArguments es stop lexemes rest → Continues source start lexemes →
    Row source start (es.map .expr) stop ∧ Continues source stop rest
  | _, _, _, _, _, .none, hlexemes => ⟨.nil hlexemes.le_stop, hlexemes.tail⟩
  | _, _, _, _, _, .some h h', hlexemes => by
    have hplaced := h.placed hlexemes
    obtain ⟨hrow, hrest⟩ := h'.row hplaced.continues
    exact ⟨hplaced.row hrow, hrest⟩

/-- The further arguments `moreArguments?` reads form a row that stops at the closing parenthesis. -/
theorem ReadsMoreArguments.row : ∀ {es : List Expr} {stop : Nat} {lexemes rest : List Lexeme} {start : Nat},
    ReadsMoreArguments es stop lexemes rest → Continues source start lexemes →
    Row source start (es.map .expr) stop ∧ Continues source stop rest
  | _, _, _, _, _, .none, hlexemes => ⟨.nil hlexemes.le_stop, hlexemes.tail⟩
  | _, _, _, _, _, .some h h', hlexemes => by
    have hplaced := h.placed hlexemes.tail
    obtain ⟨hrow, hrest⟩ := h'.row hplaced.continues
    exact ⟨(hplaced.mono hlexemes.le_stop).row hrow, hrest⟩

end

theorem span_declaration (span : Span) (names : List Identifier) (value : Option Expr) :
    (declaration span names value).span = span := by
  unfold declaration
  split <;> rfl

/-- A declared name that stood as the initialiser stands where this stood. -/
theorem declaration_row {names : List Identifier} {value : Expr} (span : Span)
    (hnames : Row source start (names.map .name) stop) (hvalue : (Node.expr value).Placed source stop rest) :
    Row source start (Node.stmt (declaration span names (some value))).children value.span.stop := by
  cases value with
  | identifier name =>
    have hname : (Node.name name).Stands source := hvalue.stands.child List.mem_cons_self
    have hnameRow : Row source stop [.name name] name.span.stop := .cons hvalue.le_start hname (.nil le_rfl)
    simpa [declaration, Node.children, Expr.span] using hnames.append hnameRow
  | literal value => exact hnames.append (hvalue.row (.nil le_rfl))
  | call span' callee arguments => exact hnames.append (hvalue.row (.nil le_rfl))

/-- An open construct ends where the next lexeme starts, which lies in front of all the remaining lexemes. -/
theorem continues_of_openEnd? (h : Continues source start lexemes) (hstop : openEnd? lexemes = some stop) :
    start ≤ stop ∧ Continues source stop lexemes := by
  cases lexemes with
  | nil => cases hstop
  | cons next lexemes =>
    cases hstop
    exact ⟨h.le_start, h.from_start⟩

/-- Where the last of the clauses stops. -/
def lastStop (start : Nat) (cases : List Case) : Nat := (cases.getLast?.map (·.span.stop)).getD start

theorem lastStop_cons (start : Nat) (clause : Case) (cases : List Case) :
    lastStop start (clause :: cases) = lastStop clause.span.stop cases := by
  rw [lastStop, List.getLast?_cons, lastStop]
  cases cases.getLast? <;> rfl

/-- The clauses of a switch form a row up to the end `switchEnd?` gives the switch, whether a default clause closed it
or not. -/
theorem row_of_switchEnd? {cases : List Case} (hrow : Row source start (cases.map .clause) (lastStop start cases))
    (hrest : Continues source (lastStop start cases) rest) (hstop : switchEnd? cases rest = some stop) :
    Row source start (cases.map .clause) stop ∧ Continues source stop rest := by
  unfold switchEnd? at hstop
  split at hstop
  · cases hstop
  · obtain ⟨hle, hcontinues⟩ := continues_of_openEnd? hrest hstop
    exact ⟨hrow.mono le_rfl hle, hcontinues⟩
  next hlast =>
    cases hstop
    rw [lastStop, hlast] at hrow hrest
    exact ⟨hrow, hrest⟩

mutual

/-- A statement that is read has its place where the text continues with its lexemes. -/
theorem ReadsStmt.placed : ∀ {s : Stmt} {lexemes rest : List Lexeme} {start : Nat}, ReadsStmt s lexemes rest →
    Continues source start lexemes → (Node.stmt s).Placed source start rest
  | _, _, _, _, .block h, hlexemes => (h.placed hlexemes).only rfl rfl trivial
  | _, _, _, _, .function hparameters hreturns h, hlexemes => by
    obtain ⟨stop₁, hrow₁, hrest₁⟩ := parameters?_row hlexemes.tail.tail.tail hparameters
    obtain ⟨stop₂, hrow₂, hrest₂⟩ := returns?_row hrest₁ hreturns
    have hplaced := h.placed hrest₂
    have hle := hlexemes.start_le_stop.trans (hlexemes.tail.le_stop.trans hlexemes.tail.tail.le_stop)
    exact Node.placed_of_row rfl hlexemes.le_start hlexemes.from_start
      (((hrow₁.append hrow₂).append (hplaced.row (.nil le_rfl))).mono hle le_rfl) hplaced.continues trivial
  | _, _, _, _, .initialised hnames h, hlexemes => by
    obtain ⟨stop, hrow, hrest⟩ := names?_row hlexemes.tail hnames
    have hplaced := (h.placed hrest.tail).mono hrest.le_stop
    exact Node.placed_of_row (span_declaration ..) hlexemes.le_start hlexemes.from_start
      ((declaration_row _ hrow hplaced).mono hlexemes.start_le_stop le_rfl) hplaced.continues trivial
  | _, _, _, _, .declared hnames _, hlexemes => by
    obtain ⟨stop, hrow, hrest⟩ := names?_row hlexemes.tail hnames
    exact Node.placed_of_row rfl hlexemes.le_start hlexemes.from_start
      ((hrow.append (.nil le_rfl)).mono hlexemes.start_le_stop hrest.le_start) hrest.from_start trivial
  | _, _, _, _, .conditional h h', hlexemes => by
    have hplaced₁ := h.placed hlexemes.tail
    have hplaced₂ := h'.placed hplaced₁.continues
    exact Node.placed_of_row rfl hlexemes.le_start hlexemes.from_start
      ((hplaced₁.mono hlexemes.start_le_stop).row (hplaced₂.row (.nil le_rfl))) hplaced₂.continues trivial
  | _, _, _, _, .switch h h' hstop, hlexemes => by
    have hplaced := h.placed hlexemes.tail
    obtain ⟨hrow, hrest⟩ := h'.row hplaced.continues
    obtain ⟨hclauses, hcontinues⟩ := row_of_switchEnd? hrow hrest hstop
    exact Node.placed_of_row rfl hlexemes.le_start hlexemes.from_start
      ((hplaced.mono hlexemes.start_le_stop).row hclauses) hcontinues trivial
  | _, _, _, _, .loop h₁ h₂ h₃ h₄, hlexemes => by
    have hplaced₁ := h₁.placed hlexemes.tail
    have hplaced₂ := h₂.placed hplaced₁.continues
    have hplaced₃ := h₃.placed hplaced₂.continues
    have hplaced₄ := h₄.placed hplaced₃.continues
    exact Node.placed_of_row rfl hlexemes.le_start hlexemes.from_start
      ((hplaced₁.mono hlexemes.start_le_stop).row (hplaced₂.row (hplaced₃.row (hplaced₄.row (.nil le_rfl)))))
      hplaced₄.continues trivial
  | _, _, _, _, .break, hlexemes => placed_leaf hlexemes rfl rfl trivial
  | _, _, _, _, .continue, hlexemes => placed_leaf hlexemes rfl rfl trivial
  | _, _, _, _, .leave, hlexemes => placed_leaf hlexemes rfl rfl trivial
  | _, _, _, _, .expression h, hlexemes => (h.placed hlexemes).only rfl rfl trivial
  | _, _, _, _, .assignment htargets h, hlexemes => by
    obtain ⟨stop, hrow, hrest⟩ := names?_row hlexemes.from_start htargets
    have hplaced := (h.placed hrest.tail).mono hrest.le_stop
    exact Node.placed_of_row rfl hlexemes.le_start hlexemes.from_start (hrow.append (hplaced.row (.nil le_rfl)))
      hplaced.continues trivial

/-- A block that `block?` reads is placed in the source, from its opening to its closing brace. -/
theorem ReadsBlock.placed : ∀ {b : Block} {lexemes rest : List Lexeme} {start : Nat}, ReadsBlock b lexemes rest →
    Continues source start lexemes → (Node.block b).Placed source start rest
  | _, _, _, _, .mk h, hlexemes => by
    obtain ⟨hrow, hrest⟩ := h.row hlexemes.tail
    exact Node.placed_of_row rfl hlexemes.le_start hlexemes.from_start (hrow.mono hlexemes.start_le_stop le_rfl) hrest
      trivial

/-- The statements `stmts?` reads form a row that stops at the closing brace. -/
theorem ReadsStmts.row : ∀ {ss : List Stmt} {stop : Nat} {lexemes rest : List Lexeme} {start : Nat},
    ReadsStmts ss stop lexemes rest → Continues source start lexemes →
    Row source start (ss.map .stmt) stop ∧ Continues source stop rest
  | _, _, _, _, _, .none, hlexemes => ⟨.nil hlexemes.le_stop, hlexemes.tail⟩
  | _, _, _, _, _, .some h h', hlexemes => by
    have hplaced := h.placed hlexemes
    obtain ⟨hrow, hrest⟩ := h'.row hplaced.continues
    exact ⟨hplaced.row hrow, hrest⟩

/-- The clauses `cases?` reads form a row that stops where the last of them stops. -/
theorem ReadsCases.row : ∀ {clauses : List Case} {lexemes rest : List Lexeme} {start : Nat},
    ReadsCases clauses lexemes rest → Continues source start lexemes →
    Row source start (clauses.map .clause) (lastStop start clauses) ∧ Continues source (lastStop start clauses) rest
  | _, _, _, _, .none _ _, hlexemes => ⟨.nil le_rfl, hlexemes⟩
  | _, _, _, start, @ReadsCases.default opening body _ rest h, hlexemes => by
    have hbody := h.placed hlexemes.tail
    have hplaced : (Node.clause ⟨⟨opening.start, body.span.stop⟩, none, body⟩).Placed source start rest :=
      Node.placed_of_row rfl hlexemes.le_start hlexemes.from_start
        ((hbody.mono hlexemes.start_le_stop).row (.nil le_rfl)) hbody.continues trivial
    exact ⟨hplaced.row (.nil le_rfl), hplaced.continues⟩
  | _, _, _, start, @ReadsCases.case opening _ value body _ _ left _ hvalue h h', hlexemes => by
    have hliteral := placed_literal hlexemes.tail hvalue
    have hbody := h.placed hliteral.continues
    have hplaced : (Node.clause ⟨⟨opening.start, body.span.stop⟩, some value, body⟩).Placed source start left :=
      Node.placed_of_row rfl hlexemes.le_start hlexemes.from_start
        ((hliteral.mono hlexemes.start_le_stop).row (hbody.row (.nil le_rfl))) hbody.continues trivial
    rw [lastStop_cons]
    obtain ⟨hrow, hrest⟩ := h'.row hplaced.continues
    exact ⟨hplaced.row hrow, hrest⟩

end

end Parser

/-- Every node of a program that is read has its place in the text and is what the text reads there. -/
theorem stands_of_parse {source : String} {program : Block} (h : parse source = .ok program) :
    (Node.block program).Stands source := by
  obtain ⟨lexemes, hlexemes, hprogram, hfault⟩ := parse_eq_ok_iff.1 h
  have hcontinues : Continues source 0 lexemes :=
    ⟨⟨[], source.toList, rfl, rfl, hlexemes⟩, List.findSome?_eq_none_iff.1 hfault⟩
  exact ((Parser.program?_eq_some_iff.1 hprogram).placed hcontinues).stands

end YulBackend
