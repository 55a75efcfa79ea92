import YulBackend.Proofs.Parser.RoundTrip
import YulBackend.Proofs.Parser.Trees
import YulBackend.Proofs.Syntax.Derivations
import YulBackend.Proofs.Token.Splits

namespace YulBackend

/-- What `parse` succeeds on: the text lexes, `program?` reads the lexemes to the end, and no token holds a bad
escape. -/
theorem parse_eq_ok_iff {source : String} {b : Block} : parse source = .ok b ↔
    ∃ lexemes, Lexer.lexemes? 0 source.toList = some lexemes ∧ Parser.program? lexemes = some b ∧
      lexemes.findSome? (·.token.fault?) = none := by
  unfold parse
  cases hlexemes : Lexer.lexemes? 0 source.toList with
  | none => simp
  | some lexemes =>
    cases hprogram : Parser.program? lexemes with
    | none => simp [hprogram]
    | some read =>
      cases hfault : lexemes.findSome? (·.token.fault?) <;>
        simp [hprogram, hfault, -List.findSome?_eq_none_iff]

/-- The decidable check `accepts` answers whether `parse` returns a block. -/
theorem accepts_iff_parse {source : String} : accepts source ↔ ∃ b, parse source = .ok b := by
  rw [accepts]
  cases parse source with
  | ok b => exact ⟨fun _ => ⟨b, rfl⟩, fun _ => rfl⟩
  | error e => exact ⟨fun h => (nomatch h), fun ⟨_, h⟩ => (nomatch h)⟩

/-- A text that is read is a split of which every part stands for a proper token, and the tokens are those of a
tree that differs from the one that is read at most in its bare initialisers. -/
theorem exists_tree_of_parse {source : String} {b : Block} (h : parse source = .ok b) :
    ∃ parts, Splits source.toList parts ∧ (∀ part ∈ parts, part.token.isProper) ∧
      ∃ tree : Block, tree.isWellFormed ∧ tree.joinInitialisers = b ∧ parts.map SpeltToken.token = tree.tokens := by
  obtain ⟨lexemes, hlexemes, hprogram, hfaults⟩ := parse_eq_ok_iff.1 h
  obtain ⟨parts, hparts, htokens⟩ := (exists_lexemes_iff 0).1 ⟨lexemes, hlexemes, rfl⟩
  have hproper : ∀ part ∈ parts, part.token.isProper := by
    intro part hpart
    obtain ⟨rest, hcut⟩ := hparts.exists_cuts part hpart
    have hmem : part.token ∈ lexemes.map (·.token) := htokens ▸ List.mem_map_of_mem hpart
    obtain ⟨lexeme, hlexeme, heq⟩ := List.mem_map.1 hmem
    refine hcut.isProper_of_fault? ?_
    rw [← heq]
    exact List.findSome?_eq_none_iff.1 hfaults lexeme hlexeme
  have hmended : lexemes.map (·.token.mended) = parts.map SpeltToken.token := by
    have hmap : (lexemes.map (·.token)).map Token.mended = lexemes.map (·.token.mended) := List.map_map
    rw [← hmap, ← htokens, List.map_map]
    exact List.map_congr_left fun part hpart => Token.mended_of_isProper (hproper part hpart)
  have hproper' : Parser.AllProper lexemes := by
    rw [Parser.AllProper, hmended, List.forall_mem_map]
    exact hproper
  obtain ⟨tree, hwf, hjoin, htree⟩ := Parser.program?_eq_some hproper' hprogram
  exact ⟨parts, hparts, hproper, tree, hwf, hjoin, hmended.symm.trans htree⟩

/-- A text of which the parts stand for the tokens of a tree is read as that tree. -/
theorem parse_of_tree {source : String} {parts : List SpeltToken} {tree : Block}
    (hparts : Splits source.toList parts) (hproper : ∀ part ∈ parts, part.token.isProper)
    (hwf : tree.isWellFormed) (htokens : parts.map SpeltToken.token = tree.tokens) :
    ∃ b, parse source = .ok b ∧ b.eraseSpans = tree.joinInitialisers.eraseSpans := by
  obtain ⟨lexemes, hlexemes, hlexemes'⟩ := (exists_lexemes_iff 0).2 ⟨parts, hparts, rfl⟩
  obtain ⟨b, hprogram, hview⟩ := Parser.program?_of_tokens hwf (hlexemes'.trans htokens)
  refine ⟨b, parse_eq_ok_iff.2 ⟨lexemes, hlexemes, hprogram, ?_⟩, hview⟩
  rw [List.findSome?_eq_none_iff]
  intro lexeme hlexeme
  have hmem : lexeme.token ∈ parts.map SpeltToken.token := hlexemes' ▸ List.mem_map_of_mem hlexeme
  obtain ⟨part, hpart, heq⟩ := List.mem_map.1 hmem
  rw [← heq]
  exact Token.fault?_of_isProper (hproper part hpart)

/-- `parse` accepts exactly the texts that split into tokens which the grammar derives from a block and of which no
string literal has an invalid escape. -/
theorem accepts_iff_derives (source : String) : accepts source = true ↔
    ∃ parts, Splits source.toList parts ∧ Grammar.Derives Grammar.Rule.block (parts.map (·.terminal)) ∧
      ∀ part ∈ parts, part.terminal = .stringLiteral → Escape.Valid part.text := by
  rw [accepts_iff_parse]
  constructor
  · rintro ⟨b, hparse⟩
    obtain ⟨parts, hparts, hproper, tree, hwf, -, htokens⟩ := exists_tree_of_parse hparse
    refine ⟨parts, hparts, ?_, ?_⟩
    · rw [← hparts.map_terminal_token]
      exact (Grammar.derives_block_iff (List.forall_mem_map.2 hproper)).2 ⟨tree, hwf, htokens.symm⟩
    · intro part hpart
      obtain ⟨rest, hcut⟩ := hparts.exists_cuts part hpart
      exact hcut.isProper_iff.1 (hproper part hpart)
  · rintro ⟨parts, hparts, hderives, hvalid⟩
    have hproper : ∀ part ∈ parts, part.token.isProper := by
      intro part hpart
      obtain ⟨rest, hcut⟩ := hparts.exists_cuts part hpart
      exact hcut.isProper_iff.2 (hvalid part hpart)
    rw [← hparts.map_terminal_token, Grammar.derives_block_iff (List.forall_mem_map.2 hproper)] at hderives
    obtain ⟨tree, hwf, htokens⟩ := hderives
    obtain ⟨b, hparse, -⟩ := parse_of_tree hparts hproper hwf htokens.symm
    exact ⟨b, hparse⟩

end YulBackend
