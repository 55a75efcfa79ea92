import YulBackend.Proofs.Parser.Statements
import YulBackend.Proofs.Printer.Reads

namespace YulBackend

/-- From lexemes with the tokens of a well-formed block, `program?` reads this block with its bare initialisers
joined. -/
theorem Parser.program?_of_tokens {b : Block} (hwf : b.isWellFormed) {lexemes : List Lexeme}
    (htokens : lexemes.map (·.token) = b.tokens) :
    ∃ read, program? lexemes = some read ∧ read.eraseSpans = b.joinInitialisers.eraseSpans := by
  obtain ⟨read, rest, hread, hview, hrest⟩ := exists_readsBlock hwf (htokens.trans (List.append_nil _).symm)
  rw [List.map_eq_nil_iff] at hrest
  subst hrest
  exact ⟨read, program?_eq_some_iff.2 hread, hview⟩

/-- Every tree that the grammar has a text for is read back from its printed form, in any indentation,
but for one shape: a bare name that initialises joins the names that are declared. -/
theorem Block.parse_print {b : Block} {style : PrintStyle} (hwf : b.isWellFormed)
    (hcolour : style.colour = false) :
    ∃ read, parse (b.print style) = .ok read ∧ read.eraseSpans = b.joinInitialisers.eraseSpans := by
  have hreads := Block.reads (PrintContext.isPlain_ofStyle hcolour) 0 Lexer.reads_nil hwf
  rw [List.append_nil, List.append_nil] at hreads
  obtain ⟨lexemes, hlexemes, htokens, hfaults⟩ := hreads 0
  obtain ⟨read, hread, hview⟩ := Parser.program?_of_tokens hwf htokens
  refine ⟨read, ?_, hview⟩
  rw [parse, Block.print, Block.printIn, hlexemes]
  simp only [hread, hfaults]

/-- `parse` undoes `print` exactly for the trees in which no declaration takes its value from a bare name. Of any other
well-formed tree it reads `joinInitialisers`, where such a name stands among the declared ones. -/
theorem Block.parse_print_eq_iff (b : Block) (style : PrintStyle) (hwf : b.isWellFormed)
    (hcolour : style.colour = false) :
    ∃ read, parse (b.print style) = .ok read ∧ read.eraseSpans = b.joinInitialisers.eraseSpans ∧
      (read.eraseSpans = b.eraseSpans ↔ b.hasBareInitialiser = false) := by
  obtain ⟨read, hread, hview⟩ := Block.parse_print hwf hcolour
  refine ⟨read, hread, hview, ?_⟩
  rw [hview]
  exact b.eraseSpans_joinInitialisers_eq_iff

/-- A `switch` with a default, read back from tabs, and in it a string that has to be escaped. -/
theorem Block.parse_print_eq_iff_switch :
    let text : Literal := ⟨{}, .string, "a\"\\\n"⟩
    let clause : Block := ⟨{}, [.declaration {} [⟨{}, "x"⟩] (some (.literal text))]⟩
    let b : Block := ⟨{}, [.switch {} (.identifier ⟨{}, "a"⟩)
      [⟨{}, some ⟨{}, .number, "0x1F"⟩, clause⟩, ⟨{}, none, ⟨{}, [.leave {}]⟩⟩]]⟩
    let style : PrintStyle := { colour := false, indent := .tabs }
    b.isWellFormed = true ∧ style.colour = false ∧
      ∃ read, parse (b.print style) = .ok read ∧ read.eraseSpans = b.joinInitialisers.eraseSpans ∧
        (read.eraseSpans = b.eraseSpans ↔ b.hasBareInitialiser = false) :=
  ⟨by decide, rfl, Block.parse_print_eq_iff _ _ (by decide) rfl⟩

/-- What is printed as `let x := y` is not read back: `y` joins `x`, and no value is left. -/
theorem Block.not_parse_print_bare_initialiser :
    let b : Block := ⟨{}, [.declaration {} [⟨{}, "x"⟩] (some (.identifier ⟨{}, "y"⟩))]⟩
    b.isWellFormed = true ∧ ¬ ∃ read, parse (b.print .plain) = .ok read ∧ read.eraseSpans = b.eraseSpans := by
  intro b
  refine ⟨by decide, ?_⟩
  rintro ⟨read, hread, hview⟩
  have hwf : b.isWellFormed := by decide
  have hcolour : PrintStyle.plain.colour = false := rfl
  obtain ⟨read', hread', hview'⟩ := Block.parse_print hwf hcolour
  rw [hread] at hread'
  cases hread'
  rw [hview, eq_comm, b.eraseSpans_joinInitialisers_eq_iff] at hview'
  exact absurd hview' (by decide)

end YulBackend
