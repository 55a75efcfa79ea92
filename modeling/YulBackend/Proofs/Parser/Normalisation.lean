import YulBackend.Proofs.Parser.Language
import YulBackend.Proofs.Printer.Spans

namespace YulBackend

/-- Building a declaration from well-formed names and value gives a well-formed statement, also when a bare initialiser
is taken for a name. -/
theorem Parser.isWellFormed_declaration {span : Span} {declared : List Identifier} {value : Option Expr}
    (hwf : (Stmt.declaration span declared value).isWellFormed) :
    (declaration span declared value).isWellFormed := by
  cases value with
  | none => exact hwf
  | some value =>
    cases value with
    | identifier name =>
      simp only [Stmt.isWellFormed, Bool.and_eq_true, Option.all_some, Expr.isWellFormed] at hwf
      simp [declaration, Stmt.isWellFormed, hwf, List.all_append, -List.all_eq_true]
    | call => exact hwf
    | literal => exact hwf

/-- What `declaration` builds never has a bare identifier for its initialiser: it has moved to the declared names. -/
theorem Parser.hasBareInitialiser_declaration (span : Span) (declared : List Identifier) (value : Option Expr) :
    (declaration span declared value).hasBareInitialiser = false := by
  cases value with
  | none => rfl
  | some value => cases value <;> rfl

/-- Joining initialisers keeps a clause list empty or not, so a well-formed switch keeps its clauses. -/
theorem Case.isEmpty_joinAll (clauses : List Case) : (Case.joinAll clauses).isEmpty = clauses.isEmpty := by
  cases clauses with
  | nil => rw [Case.joinAll]
  | cons clause rest =>
    cases clause
    rw [Case.joinAll, List.isEmpty_cons, List.isEmpty_cons]

mutual

/-- Joining leads to well-formed trees. -/
theorem Stmt.isWellFormed_joinInitialisers : ∀ {s : Stmt}, s.isWellFormed → s.joinInitialisers.isWellFormed
  | .declaration _ _ _, h => Parser.isWellFormed_declaration h
  | .function _ _ _ _ body, h => by
    rw [Stmt.isWellFormed, Bool.and_eq_true] at h
    rw [Stmt.joinInitialisers, Stmt.isWellFormed, h.1, Block.isWellFormed_joinInitialisers h.2, Bool.and_self]
  | .conditional _ _ body, h => by
    rw [Stmt.isWellFormed, Bool.and_eq_true] at h
    rw [Stmt.joinInitialisers, Stmt.isWellFormed, h.1, Block.isWellFormed_joinInitialisers h.2, Bool.and_self]
  | .switch _ _ clauses, h => by
    rw [Stmt.isWellFormed, Bool.and_eq_true, Bool.and_eq_true] at h
    obtain ⟨⟨hscrutinee, hne⟩, hclauses⟩ := h
    rw [Stmt.joinInitialisers, Stmt.isWellFormed, hscrutinee, Case.isEmpty_joinAll, hne,
      Case.allWellFormed_joinAll hclauses]
    rfl
  | .loop _ _ _ _ _, h => by
    simp only [Stmt.isWellFormed, Bool.and_eq_true] at h
    obtain ⟨⟨⟨hpre, hcondition⟩, hpost⟩, hbody⟩ := h
    rw [Stmt.joinInitialisers, Stmt.isWellFormed, hcondition, Block.isWellFormed_joinInitialisers hpre,
      Block.isWellFormed_joinInitialisers hpost, Block.isWellFormed_joinInitialisers hbody]
    rfl
  | .block _, h => Block.isWellFormed_joinInitialisers h
  | .expression _, h => h
  | .assignment _ _ _, h => h
  | .break _, h => h
  | .continue _, h => h
  | .leave _, h => h

theorem Block.isWellFormed_joinInitialisers : ∀ {b : Block}, b.isWellFormed → b.joinInitialisers.isWellFormed
  | ⟨_, _⟩, h => Stmt.allWellFormed_joinAll h

/-- Joining the bare initialisers of well-formed statements keeps each of them well formed. -/
theorem Stmt.allWellFormed_joinAll : ∀ {ss : List Stmt}, Stmt.allWellFormed ss →
    Stmt.allWellFormed (Stmt.joinAll ss)
  | [], h => h
  | s :: rest, h => by
    rw [Stmt.allWellFormed, Bool.and_eq_true] at h
    rw [Stmt.joinAll, Stmt.allWellFormed, Stmt.isWellFormed_joinInitialisers h.1,
      Stmt.allWellFormed_joinAll h.2, Bool.and_self]

/-- Joining the bare initialisers of well-formed clauses keeps each of them well formed. -/
theorem Case.allWellFormed_joinAll : ∀ {clauses : List Case}, Case.allWellFormed clauses →
    Case.allWellFormed (Case.joinAll clauses)
  | [], h => h
  | ⟨_, _, _⟩ :: rest, h => by
    simp only [Case.allWellFormed, Bool.and_eq_true] at h
    obtain ⟨⟨⟨hvalue, hlast⟩, hbody⟩, hrest⟩ := h
    rw [Case.joinAll, Case.allWellFormed, hvalue, Case.isEmpty_joinAll, hlast,
      Block.isWellFormed_joinInitialisers hbody, Case.allWellFormed_joinAll hrest]
    rfl

end

mutual

/-- After joining there is nothing left to join. -/
theorem Stmt.hasBareInitialiser_joinInitialisers : ∀ s : Stmt, s.joinInitialisers.hasBareInitialiser = false
  | .declaration span declared value => Parser.hasBareInitialiser_declaration span declared value
  | .function _ _ _ _ body => body.hasBareInitialiser_joinInitialisers
  | .conditional _ _ body => body.hasBareInitialiser_joinInitialisers
  | .switch _ _ clauses => Case.anyBareInitialiser_joinAll clauses
  | .loop _ pre _ post body => by
    rw [Stmt.joinInitialisers, Stmt.hasBareInitialiser, pre.hasBareInitialiser_joinInitialisers,
      post.hasBareInitialiser_joinInitialisers, body.hasBareInitialiser_joinInitialisers]
    rfl
  | .block body => body.hasBareInitialiser_joinInitialisers
  | .expression _ => rfl
  | .assignment _ _ _ => rfl
  | .break _ => rfl
  | .continue _ => rfl
  | .leave _ => rfl

theorem Block.hasBareInitialiser_joinInitialisers : ∀ b : Block, b.joinInitialisers.hasBareInitialiser = false
  | ⟨_, statements⟩ => Stmt.anyBareInitialiser_joinAll statements

/-- No declaration in joined statements keeps a bare identifier initialiser. -/
theorem Stmt.anyBareInitialiser_joinAll : ∀ ss : List Stmt, Stmt.anyBareInitialiser (Stmt.joinAll ss) = false
  | [] => rfl
  | s :: rest => by
    rw [Stmt.joinAll, Stmt.anyBareInitialiser, s.hasBareInitialiser_joinInitialisers,
      Stmt.anyBareInitialiser_joinAll rest, Bool.or_self]

/-- No declaration in joined clauses keeps a bare identifier initialiser. -/
theorem Case.anyBareInitialiser_joinAll : ∀ clauses : List Case,
    Case.anyBareInitialiser (Case.joinAll clauses) = false
  | [] => rfl
  | ⟨_, _, body⟩ :: rest => by
    rw [Case.joinAll, Case.anyBareInitialiser, body.hasBareInitialiser_joinInitialisers,
      Case.anyBareInitialiser_joinAll rest, Bool.or_self]

end

/-- What was read is a well-formed tree, and reading what is printed for it changes nothing. -/
theorem Block.joined_of_parse {source : String} {b : Block} (h : parse source = .ok b) :
    b.isWellFormed ∧ b.hasBareInitialiser = false := by
  obtain ⟨-, -, -, tree, hwf, rfl, -⟩ := exists_tree_of_parse h
  exact ⟨Block.isWellFormed_joinInitialisers hwf, tree.hasBareInitialiser_joinInitialisers⟩

/-- Comments, blanks and the spelling of escapes are nowhere in the tree: texts of the same tokens are read as
the same tree, up to spans. -/
theorem parse_congr {source source' : String} {b : Block} {parts parts' : List SpeltToken}
    (h : parse source = .ok b) (hparts : Splits source.toList parts) (hparts' : Splits source'.toList parts')
    (htokens : parts'.map SpeltToken.token = parts.map SpeltToken.token) :
    ∃ b', parse source' = .ok b' ∧ b'.eraseSpans = b.eraseSpans := by
  obtain ⟨parts₀, hparts₀, hproper, tree, hwf, rfl, htree⟩ := exists_tree_of_parse h
  obtain rfl := hparts.unique hparts₀
  refine parse_of_tree hparts' ?_ hwf (htokens.trans htree)
  intro part hpart
  have hmem : part.token ∈ parts.map SpeltToken.token := htokens ▸ List.mem_map_of_mem hpart
  obtain ⟨part₀, hpart₀, heq⟩ := List.mem_map.1 hmem
  rw [← heq]
  exact hproper part₀ hpart₀

/-- `print` after `parse` is stable: the print is read again, as the same tree up to spans, so that printing after
reading changes a printed text no more. And the print is one of the tree alone: every text of the same tokens, however
they are spelt and spaced, is read as that tree and printed as that text. -/
theorem Block.print_parse_stable (source : String) (style : PrintStyle) (b : Block)
    (hparse : parse source = .ok b) (hcolour : style.colour = false) :
    (∃ read, parse (b.print style) = .ok read ∧ read.eraseSpans = b.eraseSpans ∧
      read.print style = b.print style) ∧
    ∀ source' parts parts', Splits source.toList parts → Splits source'.toList parts' →
      parts'.map SpeltToken.token = parts.map SpeltToken.token →
      ∃ b', parse source' = .ok b' ∧ b'.eraseSpans = b.eraseSpans ∧ b'.print style = b.print style := by
  constructor
  · obtain ⟨hwf, hbare⟩ := Block.joined_of_parse hparse
    obtain ⟨read, hread, hview⟩ := Block.parse_print hwf hcolour
    rw [b.eraseSpans_joinInitialisers_eq_iff.2 hbare] at hview
    exact ⟨read, hread, hview, Block.print_congr hview style⟩
  · intro source' parts parts' hparts hparts' htokens
    obtain ⟨b', hparse', hview⟩ := parse_congr hparse hparts hparts' htokens
    exact ⟨b', hparse', hview, Block.print_congr hview style⟩

/-- A text with a comment, an escape and a bare initialiser, printed with tabs. -/
theorem Block.print_parse_stable_comment :
    let source := "\x7b // c\n let x := y f(\"\\x41\") \x7d"
    let style : PrintStyle := { colour := false, indent := .tabs }
    style.colour = false ∧ ∃ b, parse source = .ok b ∧
      (∃ read, parse (b.print style) = .ok read ∧ read.eraseSpans = b.eraseSpans ∧
        read.print style = b.print style) ∧
      ∀ source' parts parts', Splits source.toList parts → Splits source'.toList parts' →
        parts'.map SpeltToken.token = parts.map SpeltToken.token →
        ∃ b', parse source' = .ok b' ∧ b'.eraseSpans = b.eraseSpans ∧ b'.print style = b.print style := by
  intro source style
  obtain ⟨b, hparse⟩ := accepts_iff_parse.1 (show accepts source by decide +kernel)
  exact ⟨rfl, b, hparse, Block.print_parse_stable source style b hparse rfl⟩

end YulBackend
