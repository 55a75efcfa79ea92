import YulBackend.Proofs.Parser.BuiltStatements

namespace YulBackend

open Grammar (Pair Rule Tree)

/-- A token cut from the text is proper once its bad escapes are mended, so only the escapes can make `parse` refuse
it. -/
theorem Cuts.isProper_mended {rest : List Char} {part : SpeltToken} (h : Cuts rest part) :
    part.token.mended.isProper := by
  cases hfault : part.token.fault? with
  | none =>
    have hproper := h.isProper_of_fault? hfault
    rwa [Token.mended_of_isProper hproper]
  | some escape =>
    have htoken : part.token = .badString escape := Token.eq_badString hfault
    rw [htoken]
    rfl

section

variable {source : String} {parts : List PlacedToken} {b : Block}

/-- Parts and lexemes with the same tokens make up placed parts. -/
theorem exists_placed {parts : List SpeltToken} {lexemes : List Lexeme}
    (h : parts.map SpeltToken.token = lexemes.map (·.token)) :
    ∃ placed : List PlacedToken, placed.map (·.toSpeltToken) = parts ∧ placed.map (·.lexeme) = lexemes := by
  induction parts generalizing lexemes with
  | nil => exact ⟨[], rfl, (List.map_eq_nil_iff.1 h.symm).symm⟩
  | cons part parts ih =>
    obtain ⟨lexeme, others, rfl, htoken, hothers⟩ := List.map_eq_cons_iff.1 h.symm
    obtain ⟨placed, hparts, hlexemes⟩ := ih hothers.symm
    refine ⟨⟨part, lexeme.span⟩ :: placed, congrArg (part :: ·) hparts, ?_⟩
    rw [List.map_cons, hlexemes, PlacedToken.lexeme, ← htoken]

/-- The lexemes of a text come from a split of it into placed parts with the same tokens and spans. -/
theorem exists_placedSplit {lexemes : List Lexeme} (h : Lexer.lexemes? 0 source.toList = some lexemes) :
    ∃ parts, PlacedSplit source parts ∧ lexemesOf parts = lexemes := by
  obtain ⟨parts, hparts, htokens⟩ := (exists_lexemes_iff 0).1 ⟨lexemes, h, rfl⟩
  obtain ⟨placed, rfl, rfl⟩ := exists_placed htokens
  exact ⟨placed, ⟨hparts, h⟩, rfl⟩

/-- Parts that are read as a program are derived from a block, whatever the escapes in their strings. -/
theorem PlacedSplit.derives (h : PlacedSplit source parts) (hprogram : Parser.program? (lexemesOf parts) = some b) :
    Grammar.Derives Rule.block (parts.map (·.terminal)) := by
  have hlexemes : (lexemesOf parts).map (·.token.mended) = parts.map (·.token.mended) := List.map_map
  have hproper : Parser.AllProper (lexemesOf parts) := by
    rw [Parser.AllProper, hlexemes, List.forall_mem_map]
    intro part hpart
    obtain ⟨rest, hcut⟩ := h.splits.exists_cuts _ (List.mem_map_of_mem hpart)
    exact hcut.isProper_mended
  obtain ⟨tree, hwf, -, htokens⟩ := Parser.program?_eq_some hproper hprogram
  have hderives := (Grammar.derives_block_iff hproper).2 ⟨tree, hwf, htokens.symm⟩
  have hterminals : ((lexemesOf parts).map (·.token.mended)).map Token.terminal = parts.map (·.terminal) := by
    rw [hlexemes, List.map_map]
    refine List.map_congr_left fun part hpart => ?_
    obtain ⟨rest, hcut⟩ := h.splits.exists_cuts _ (List.mem_map_of_mem hpart)
    exact (Token.terminal_mended _).trans hcut.terminal_token
  exact hterminals ▸ hderives

/-- What the parser makes of parts that it reads as a program. -/
theorem PlacedSplit.parse_eq (h : PlacedSplit source parts) (hprogram : Parser.program? (lexemesOf parts) = some b) :
    parse source = (parts.findSome? (·.token.fault?)).elim (.ok b) (.error <| .invalidEscape ·) := by
  have hfault : (lexemesOf parts).findSome? (·.token.fault?) = parts.findSome? (·.token.fault?) :=
    List.findSome?_map
  have hlexemes : Lexer.lexemes? 0 source.toList = some (lexemesOf parts) := h.lexemes
  rw [parse, hlexemes]
  simp only [hprogram, hfault]
  cases parts.findSome? (·.token.fault?) <;> rfl

/-- On a text whose tokens `program?` accepts, `parse` answers with an escape error exactly when some string part holds
an invalid escape. -/
theorem PlacedSplit.parse_eq_invalidEscape_iff (h : PlacedSplit source parts)
    (hprogram : Parser.program? (lexemesOf parts) = some b) :
    (∃ escape, parse source = .error (.invalidEscape escape)) ↔
      ∃ part ∈ parts, part.terminal = .stringLiteral ∧ ¬ Escape.Valid part.text := by
  have hfault : (∃ escape, parse source = .error (.invalidEscape escape)) ↔
      (parts.findSome? (·.token.fault?)).isSome := by
    rw [h.parse_eq hprogram]
    cases parts.findSome? (·.token.fault?) <;> simp
  rw [hfault, List.findSome?_isSome_iff]
  refine exists_congr fun part => and_congr_right fun hpart => ?_
  obtain ⟨rest, hcut⟩ := h.splits.exists_cuts _ (List.mem_map_of_mem hpart)
  rw [← Classical.not_imp, ← hcut.isProper_iff, Option.isSome_iff_ne_none]
  exact not_congr ⟨hcut.isProper_of_fault?, Token.fault?_of_isProper⟩

end

/-- From a tree of a text the builder makes the program that the parser reads, and fails where it fails: at the first
invalid escape. -/
theorem exists_program_of_tree {source : String} {pairs : List Pair} (h : Tree source pairs) :
    ∃ parts b, PlacedSplit source parts ∧ Parser.program? (lexemesOf parts) = some b ∧
      buildProgram pairs = builtFrom parts b := by
  obtain ⟨parts, stop, hparts, hmatches⟩ := h
  obtain ⟨pair, b, rfl, hblock⟩ := Parser.exists_isBlock_of_matches hmatches
  refine ⟨parts, b, hparts, ?_, ?_⟩
  · have hread := hblock.read
    rw [List.append_nil] at hread
    exact Parser.program?_eq_some_iff.2 hread
  · have hfind : [pair].find? (·.symbol = .rule .block) = some pair := by
      rw [List.find?_cons_of_pos (by simpa using hblock.symbol)]
    rw [buildProgram, hfind]
    exact hblock.built

/-- A text is malformed exactly if the grammar does not match it. -/
theorem exists_tree_iff (source : String) : (∃ pairs, Tree source pairs) ↔ parse source ≠ .error .malformed := by
  refine ⟨?_, fun hparse => ?_⟩
  · rintro ⟨pairs, htree⟩ hparse
    obtain ⟨parts, b, hparts, hprogram, -⟩ := exists_program_of_tree htree
    rw [hparts.parse_eq hprogram] at hparse
    cases hfault : parts.findSome? (·.token.fault?) <;> rw [hfault] at hparse <;> cases hparse
  · cases hlexemes : Lexer.lexemes? 0 source.toList with
    | none => exact absurd (by rw [parse, hlexemes]) hparse
    | some lexemes =>
      obtain ⟨parts, hparts, rfl⟩ := exists_placedSplit hlexemes
      cases hprogram : Parser.program? (lexemesOf parts) with
      | none => exact absurd (by rw [parse, hlexemes]; simp only [hprogram]) hparse
      | some b =>
        obtain ⟨stop, pairs, hmatches⟩ := (hparts.derives hprogram).exists_matches rfl []
        exact ⟨pairs, parts, stop, hparts, hmatches⟩

/-- What the builder makes of a tree is what `parse` reads: a block, or the first invalid escape. -/
theorem buildProgram_of_tree {source : String} {pairs : List Pair} (h : Tree source pairs) :
    (∃ b, buildProgram pairs = .ok b ∧ parse source = .ok b) ∨
      ∃ escape, buildProgram pairs = .error (.invalidEscape escape) ∧
        parse source = .error (.invalidEscape escape) := by
  obtain ⟨parts, b, hparts, hprogram, hbuilt⟩ := exists_program_of_tree h
  rw [hbuilt, builtFrom, hparts.parse_eq hprogram]
  cases parts.findSome? (·.token.fault?) with
  | some escape => exact .inr ⟨escape, rfl, rfl⟩
  | none => exact .inl ⟨b, rfl, rfl⟩

/-- A text has a tree unless it is malformed, and what `buildProgram` makes of its trees is what `parse` reads: a
block, or an invalid escape where a string literal has one. -/
theorem buildProgram_eq_parse (source : String) :
    ((∃ pairs, Tree source pairs) ↔ parse source ≠ .error .malformed) ∧
      ∀ pairs, Tree source pairs →
        ((∃ b, buildProgram pairs = .ok b ∧ parse source = .ok b) ∨
          ∃ escape, buildProgram pairs = .error (.invalidEscape escape) ∧
            parse source = .error (.invalidEscape escape)) ∧
        ((∃ escape, parse source = .error (.invalidEscape escape)) ↔
          ∃ parts, Splits source.toList parts ∧
            ∃ part ∈ parts, part.terminal = .stringLiteral ∧ ¬ Escape.Valid part.text) := by
  refine ⟨exists_tree_iff source, fun pairs htree => ⟨buildProgram_of_tree htree, ?_⟩⟩
  obtain ⟨parts, b, hparts, hprogram, -⟩ := exists_program_of_tree htree
  rw [hparts.parse_eq_invalidEscape_iff hprogram]
  constructor
  · rintro ⟨part, hpart, hinvalid⟩
    exact ⟨_, hparts.splits, _, List.mem_map_of_mem hpart, hinvalid⟩
  · rintro ⟨others, hothers, part, hpart, hinvalid⟩
    -- A text has one split.
    rw [hothers.unique hparts.splits] at hpart
    obtain ⟨placed, hplaced, rfl⟩ := List.mem_map.1 hpart
    exact ⟨placed, hplaced, hinvalid⟩

-- A tree of no text can lack what the builder looks for.
example : buildProgram [.node .block ⟨0, 6⟩ [.node .ifStatement ⟨2, 4⟩ []]] = .error (.missing "condition" "if") := by
  cbv

end YulBackend
