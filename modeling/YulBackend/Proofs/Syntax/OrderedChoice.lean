import YulBackend.Proofs.Syntax.ParseTrees
import YulBackend.Proofs.Syntax.Spelling
import YulBackend.Proofs.Text.Slices

namespace YulBackend.Grammar

open Lexer (byteCount splitGap)

/-- A place in a text: the bytes in front of it, counted, and the characters behind it. -/
structure Cursor where
  position : Nat
  chars : List Char

namespace Cursor

def ofText (source : String) : Cursor := ⟨0, source.toList⟩

/-- The place behind so many characters, which are in front of the rest. -/
def pass (c : Cursor) (taken rest : List Char) : Cursor := ⟨c.position + byteCount taken, rest⟩

/-- The place behind the gap, if there is one. -/
def skip (c : Cursor) : Cursor :=
  match Pattern.gap.cut? c.chars with
  | some (gap, rest) => c.pass gap rest
  | none => c

end Cursor

/-- What a node says of a token that is spelt like this: all of it, but for the quotes of a string literal. -/
def Terminal.inside : Terminal → List Char → List Char
  | stringLiteral, text => text.tail.dropLast
  | _, text => text

/-- Matching a class of tokens: the place behind the token and the node that it leaves. -/
def Terminal.run (t : Terminal) (c : Cursor) : Option (Cursor × List Pair) :=
  (t.pattern.cut? c.chars).map fun (text, rest) =>
    (c.pass text rest, leaves ⟨⟨t, t.inside text⟩, ⟨c.position, (c.pass text rest).position⟩⟩)

mutual

/-- A form matches at a place, up to the place where the match stops, and leaves these nodes. A choice takes the first
alternative that matches for good, and an option and a repetition match whenever they can. Between the parts of a
sequence a gap is skipped. -/
inductive Runs : Form → Cursor → Cursor → List Pair → Prop
  | terminal {t : Terminal} {c c' : Cursor} {pairs : List Pair} : t.run c = some (c', pairs) →
    Runs (.terminal t) c c' pairs
  | rule {r : Rule} {c c' : Cursor} {inner : List Pair} : Runs r.body c c' inner →
    Runs (.rule r) c c' (r.pairs ⟨c.position, c'.position⟩ inner)
  | sequence {first second : Form} {c c₁ c₂ : Cursor} {ps qs : List Pair} : Runs first c c₁ ps →
    Runs second c₁.skip c₂ qs → Runs (first ++ second) c c₂ (ps ++ qs)
  | left {first second : Form} {c c' : Cursor} {pairs : List Pair} : Runs first c c' pairs →
    Runs (first <|> second) c c' pairs
  | right {first second : Form} {c c' : Cursor} {pairs : List Pair} : Fails first c → Runs second c c' pairs →
    Runs (first <|> second) c c' pairs
  | present {body : Form} {c c' : Cursor} {pairs : List Pair} : Runs body c c' pairs →
    Runs (.optional body) c c' pairs
  | absent {body : Form} {c : Cursor} : Fails body c → Runs (.optional body) c c []
  | none {body : Form} {c : Cursor} : Fails body c → Runs (.many body) c c []
  | some {body : Form} {c c₁ c₂ : Cursor} {ps qs : List Pair} : Runs body c c₁ ps → RunsOn body c₁ c₂ qs →
    Runs (.many body) c c₂ (ps ++ qs)

/-- How a repetition goes on behind a match: over a gap to the next match, as long as there is one. -/
inductive RunsOn : Form → Cursor → Cursor → List Pair → Prop
  | stop {body : Form} {c : Cursor} : Fails body c.skip → RunsOn body c c []
  | further {body : Form} {c c₁ c₂ : Cursor} {ps qs : List Pair} : Runs body c.skip c₁ ps → RunsOn body c₁ c₂ qs →
    RunsOn body c c₂ (ps ++ qs)

/-- A form does not match at a place. An option and a repetition always do. -/
inductive Fails : Form → Cursor → Prop
  | terminal {t : Terminal} {c : Cursor} : t.run c = none → Fails (.terminal t) c
  | rule {r : Rule} {c : Cursor} : Fails r.body c → Fails (.rule r) c
  | first {first second : Form} {c : Cursor} : Fails first c → Fails (first ++ second) c
  | second {first second : Form} {c c' : Cursor} {pairs : List Pair} : Runs first c c' pairs →
    Fails second c'.skip → Fails (first ++ second) c
  | choice {first second : Form} {c : Cursor} : Fails first c → Fails second c → Fails (first <|> second) c

end

/-- What matching a whole text comes to: a block from its start to its end, with gaps around it, or a failure. -/
inductive Outcome (source : String) : Option (List Pair) → Prop
  | matched {c : Cursor} {pairs : List Pair} : Runs Rule.block (Cursor.ofText source).skip c pairs →
    c.skip.chars = [] → Outcome source (some pairs)
  | unfinished {c : Cursor} {pairs : List Pair} : Runs Rule.block (Cursor.ofText source).skip c pairs →
    c.skip.chars ≠ [] → Outcome source none
  | failed : Fails Rule.block (Cursor.ofText source).skip → Outcome source none

mutual

/-- A form matches at a place in one way, at most. -/
theorem Runs.unique : ∀ {f : Form} {c c₁ c₂ : Cursor} {ps qs : List Pair}, Runs f c c₁ ps → Runs f c c₂ qs →
    c₁ = c₂ ∧ ps = qs
  | _, _, _, _, _, _, .terminal h, .terminal h' => by
    cases h.symm.trans h'
    exact ⟨rfl, rfl⟩
  | _, _, _, _, _, _, .rule h, .rule h' => by
    obtain ⟨rfl, rfl⟩ := h.unique h'
    exact ⟨rfl, rfl⟩
  | _, _, _, _, _, _, .sequence h₁ h₂, .sequence h₁' h₂' => by
    obtain ⟨rfl, rfl⟩ := h₁.unique h₁'
    obtain ⟨rfl, rfl⟩ := h₂.unique h₂'
    exact ⟨rfl, rfl⟩
  | _, _, _, _, _, _, .left h, .left h' => h.unique h'
  | _, _, _, _, _, _, .left h, .right h' _ => (h.not_fails h').elim
  | _, _, _, _, _, _, .right h _, .left h' => (h.not_runs h').elim
  | _, _, _, _, _, _, .right _ h, .right _ h' => h.unique h'
  | _, _, _, _, _, _, .present h, .present h' => h.unique h'
  | _, _, _, _, _, _, .present h, .absent h' => (h.not_fails h').elim
  | _, _, _, _, _, _, .absent h, .present h' => (h.not_runs h').elim
  | _, _, _, _, _, _, .absent _, .absent _ => ⟨rfl, rfl⟩
  | _, _, _, _, _, _, .none _, .none _ => ⟨rfl, rfl⟩
  | _, _, _, _, _, _, .none h, .some h' _ => (h.not_runs h').elim
  | _, _, _, _, _, _, .some h _, .none h' => (h.not_fails h').elim
  | _, _, _, _, _, _, .some h hon, .some h' hon' => by
    obtain ⟨rfl, rfl⟩ := h.unique h'
    obtain ⟨rfl, rfl⟩ := hon.unique hon'
    exact ⟨rfl, rfl⟩
termination_by structural _ _ _ _ _ _ h => h

/-- A repetition goes on in one way, at most. -/
theorem RunsOn.unique : ∀ {body : Form} {c c₁ c₂ : Cursor} {ps qs : List Pair}, RunsOn body c c₁ ps →
    RunsOn body c c₂ qs → c₁ = c₂ ∧ ps = qs
  | _, _, _, _, _, _, .stop _, .stop _ => ⟨rfl, rfl⟩
  | _, _, _, _, _, _, .stop h, .further h' _ => (h.not_runs h').elim
  | _, _, _, _, _, _, .further h _, .stop h' => (h.not_fails h').elim
  | _, _, _, _, _, _, .further h hon, .further h' hon' => by
    obtain ⟨rfl, rfl⟩ := h.unique h'
    obtain ⟨rfl, rfl⟩ := hon.unique hon'
    exact ⟨rfl, rfl⟩
termination_by structural _ _ _ _ _ _ h => h

/-- Where a form matches, it does not fail. -/
theorem Runs.not_fails : ∀ {f : Form} {c c' : Cursor} {pairs : List Pair}, Runs f c c' pairs → ¬ Fails f c
  | _, _, _, _, .terminal h, .terminal h' => by
    rw [h] at h'
    cases h'
  | _, _, _, _, .rule h, .rule h' => h.not_fails h'
  | _, _, _, _, .sequence h _, .first h' => h.not_fails h'
  | _, _, _, _, .sequence h₁ h₂, .second h₁' h₂' => by
    obtain ⟨rfl, -⟩ := h₁.unique h₁'
    exact h₂.not_fails h₂'
  | _, _, _, _, .left h, .choice h' _ => h.not_fails h'
  | _, _, _, _, .right _ h, .choice _ h' => h.not_fails h'
termination_by structural _ _ _ _ h => h

/-- Where a form fails, it does not match. The induction is on the failure, the one of `Runs.not_fails` on the
match. -/
theorem Fails.not_runs : ∀ {f : Form} {c c' : Cursor} {pairs : List Pair}, Fails f c → ¬ Runs f c c' pairs
  | _, _, _, _, .terminal h, .terminal h' => by
    rw [h] at h'
    cases h'
  | _, _, _, _, .rule h, .rule h' => h.not_runs h'
  | _, _, _, _, .first h, .sequence h' _ => h.not_runs h'
  | _, _, _, _, .second h₁ h₂, .sequence h₁' h₂' => by
    obtain ⟨rfl, -⟩ := h₁.unique h₁'
    exact h₂.not_runs h₂'
  | _, _, _, _, .choice h _, .left h' => h.not_runs h'
  | _, _, _, _, .choice _ h, .right _ h' => h.not_runs h'
termination_by structural _ _ _ _ h => h

end

/-- A text comes to one outcome, at most. -/
theorem Outcome.unique {source : String} {outcome outcome' : Option (List Pair)} (h : Outcome source outcome)
    (h' : Outcome source outcome') : outcome = outcome' := by
  cases h with
  | matched hrun hend =>
    cases h' with
    | matched hrun' _ => rw [(hrun.unique hrun').2]
    | unfinished hrun' hend' => exact absurd ((hrun.unique hrun').1 ▸ hend) hend'
    | failed hfail => exact absurd hrun hfail.not_runs
  | unfinished hrun hend =>
    cases h' with
    | matched hrun' hend' => exact absurd ((hrun.unique hrun').1 ▸ hend') hend
    | unfinished _ _ => rfl
    | failed _ => rfl
  | failed hfail =>
    cases h' with
    | matched hrun' _ => exact absurd hrun' hfail.not_runs
    | unfinished _ _ => rfl
    | failed _ => rfl

namespace Cursor

theorem skip_eq (c : Cursor) : c.skip = c.pass (splitGap c.chars).1 (splitGap c.chars).2 := by
  rw [skip, Pattern.cut?_gap]

end Cursor

/-- Behind a gap there is no further gap. -/
theorem splitGap_splitGap (cs : List Char) : splitGap (splitGap cs).2 = ([], (splitGap cs).2) := by
  fun_induction splitGap cs with
  | case1 _ _ _ hgap ih =>
    rw [hgap] at ih
    exact ih
  | case2 _ _ _ _ _ _ hgap ih =>
    rw [hgap] at ih
    exact ih
  | case3 rest hcomment =>
    rw [splitGap, hcomment]
  | case4 _ _ _ _ _ _ _ hgap ih =>
    rw [hgap] at ih
    exact ih
  | case5 c rest hline hblock hblank =>
    rw [splitGap]
    · simp [hblank]
    · exact hline
    · exact hblock
  | case6 => rw [splitGap]

theorem Cursor.skip_skip (c : Cursor) : c.skip.skip = c.skip := by
  rw [skip_eq c.skip, skip_eq c]
  simp only [Cursor.pass]
  rw [splitGap_splitGap]
  rfl

/-- The text goes on with these parts, up to its end. -/
structure Faces (ending : Nat) (c : Cursor) (parts : List PlacedToken) : Prop where
  splits : Splits c.chars (parts.map (·.toSpeltToken))
  lexemes : Lexer.lexemes? c.position c.chars = some (parts.map (·.lexeme))
  ending : c.position + byteCount c.chars = ending

variable {ending : Nat} {c c' : Cursor} {parts rest : List PlacedToken} {pairs : List Pair} {t : Terminal}

/-- A gap in front changes nothing about the parts that the text goes on with. -/
theorem faces_skip_iff : Faces ending c.skip parts ↔ Faces ending c parts := by
  have hgap : splitGap c.chars = ((splitGap c.chars).1 ++ (splitGap (splitGap c.chars).2).1,
      (splitGap (splitGap c.chars).2).2) := by
    rw [splitGap_splitGap, List.append_nil]
  have hlexemes : Lexer.lexemes? c.skip.position c.skip.chars = Lexer.lexemes? c.position c.chars := by
    rw [Cursor.skip_eq]
    exact (Lexer.lexemes?_gap (splitGap c.chars).1 hgap c.position).symm
  have hending : c.skip.position + byteCount c.skip.chars = c.position + byteCount c.chars := by
    rw [Cursor.skip_eq]
    conv_rhs => rw [← Lexer.split_gap c.chars, Lexer.byteCount_append]
    exact Nat.add_assoc _ _ _
  have hsplits : Splits c.skip.chars (parts.map (·.toSpeltToken)) ↔ Splits c.chars (parts.map (·.toSpeltToken)) := by
    rw [Cursor.skip_eq]
    exact ⟨Splits.of_splitGap, Splits.splitGap⟩
  exact ⟨fun h => ⟨hsplits.1 h.splits, hlexemes ▸ h.lexemes, hending ▸ h.ending⟩,
    fun h => ⟨hsplits.2 h.splits, hlexemes ▸ h.lexemes, hending ▸ h.ending⟩⟩

/-- Inside the source of a part there is its text: all of it, or what stands between the quotes. -/
theorem inside_source (t : Terminal) (raw : List Char) : t.inside (SpeltToken.source ⟨t, raw⟩) = raw := by
  cases t with
  | stringLiteral => simp [Terminal.inside, SpeltToken.source]
  | _ => rfl

/-- What `run` matches is a part of this class. -/
theorem exists_faces_of_run (h : t.run c = some (c', pairs)) (hrest : Faces ending c' rest) :
    ∃ part : PlacedToken, part.terminal = t ∧ Faces ending c (part :: rest) ∧ c'.position = part.span.stop ∧
      pairs = leaves part := by
  obtain ⟨⟨text, rest'⟩, hcut, heq⟩ := Option.map_eq_some_iff.1 h
  obtain ⟨raw, hcuts, rfl, hchars⟩ := cut?_pattern.1 hcut
  cases heq
  rw [inside_source]
  refine ⟨⟨⟨t, raw⟩, _⟩, rfl, ⟨?_, ?_, ?_⟩, rfl, rfl⟩
  · rw [hchars]
    exact .cons hcuts hrest.splits
  · obtain ⟨hgap, hnext⟩ := hcuts.next?
    rw [hchars, Lexer.lexemes?_token hgap hnext]
    exact congrArg (Option.map _) hrest.lexemes
  · rw [← hrest.ending, hchars, Lexer.byteCount_append]
    exact (Nat.add_assoc _ _ _).symm

/-- Where no gap is in front, the next part is the next thing in the text. -/
theorem Faces.cases_of_skip (h : Faces ending c parts) (hskip : c.skip = c) :
    (c.chars = [] ∧ parts = []) ∨ ∃ part others text, parts = part :: others ∧ c.chars = part.source ++ text ∧
      Cuts text part.toSpeltToken ∧ part.span = ⟨c.position, c.position + byteCount part.source⟩ ∧
      Faces ending (c.pass part.source text) others := by
  have hchars : (splitGap c.chars).2 = c.chars := by
    rw [Cursor.skip_eq] at hskip
    exact congrArg Cursor.chars hskip
  have hgap : (splitGap c.chars).1 = [] := by
    have happend := Lexer.split_gap c.chars
    rwa [hchars, List.append_left_eq_self] at happend
  obtain ⟨hnil, hparts⟩ | ⟨spelt, text, others, hparts, heq, hcut, hrest⟩ := h.splits.cases_of_splitGap hgap
  · exact .inl ⟨hnil, List.map_eq_nil_iff.1 hparts⟩
  obtain ⟨part, others, rfl, rfl, rfl⟩ := List.map_eq_cons_iff.1 hparts
  obtain ⟨hgap, hnext⟩ := hcut.next?
  have hlexemes := h.lexemes
  rw [heq, Lexer.lexemes?_token hgap hnext] at hlexemes
  obtain ⟨read, hread, hcons⟩ := Option.map_eq_some_iff.1 hlexemes
  obtain ⟨hpart, rfl⟩ := List.cons.inj hcons
  refine .inr ⟨part, others, text, rfl, heq, hcut, (congrArg Lexeme.span hpart).symm, hrest, hread, ?_⟩
  rw [← h.ending, heq, Lexer.byteCount_append]
  exact Nat.add_assoc _ _ _

/-- Where no gap is in front, the next part starts here, or else the text ends here. -/
theorem Faces.startOf_eq (h : Faces ending c parts) (hskip : c.skip = c) : startOf ending parts = c.position := by
  obtain ⟨hchars, rfl⟩ | ⟨part, others, text, rfl, -, -, hspan, -⟩ := h.cases_of_skip hskip
  · rw [startOf, ← h.ending, hchars]
    rfl
  · rw [startOf, hspan]

/-- Whether a rule may match without taking a part. -/
def Rule.mayBeEmpty : Rule → Bool
  | .parameters | .returnVariables => true
  | _ => false

namespace Form

/-- Whether a form may match without taking a part. -/
def mayBeEmpty : Form → Bool
  | terminal _ => false
  | rule r => r.mayBeEmpty
  | sequence first second => first.mayBeEmpty && second.mayBeEmpty
  | choice first second => first.mayBeEmpty || second.mayBeEmpty
  | optional _ | many _ => true

/-- Whether everything that a form repeats takes a part each time. -/
def isProductive : Form → Bool
  | terminal _ | rule _ => true
  | sequence first second | choice first second => first.isProductive && second.isProductive
  | optional body => body.isProductive
  | many body => !body.mayBeEmpty && body.isProductive

end Form

theorem Rule.mayBeEmpty_body (r : Rule) : r.body.mayBeEmpty = r.mayBeEmpty := by
  cases r <;> rfl

theorem Rule.isProductive_body (r : Rule) : r.body.isProductive := by
  cases r <;> rfl

/-- A form that cannot be empty takes a part whenever `Matches` holds of it. -/
theorem Matches.ne_nil {f : Form} {taken : List PlacedToken} {stop : Nat} (h : Matches ending f taken rest stop pairs)
    (hf : f.mayBeEmpty = false) : taken ≠ [] := by
  induction h with
  | terminal part => exact List.cons_ne_nil part []
  | @rule r _ _ _ _ _ ih => exact ih (r.mayBeEmpty_body.trans hf)
  | sequence _ _ ihFirst ihSecond =>
    rcases Bool.and_eq_false_iff.1 hf with hfirst | hsecond
    · exact List.append_ne_nil_of_left_ne_nil (ihFirst hfirst) _
    · exact List.append_ne_nil_of_right_ne_nil _ (ihSecond hsecond)
  | left _ ih => exact ih (Bool.or_eq_false_iff.1 hf).1
  | right _ ih => exact ih (Bool.or_eq_false_iff.1 hf).2
  | absent => cases hf
  | present => cases hf
  | none => cases hf
  | last => cases hf
  | more => cases hf

mutual

/-- What `Runs` matches from a place that no gap is in front of, the grammar matches in front of the parts behind it,
with the same nodes and up to the same byte. The parts are found from the end of the match to its start, since only
the text behind the match is known to split. -/
theorem Runs.exists_matches : ∀ {f : Form} {c c' : Cursor} {pairs : List Pair} {rest : List PlacedToken},
    Runs f c c' pairs → c.skip = c → f.isProductive → Faces ending c' rest →
    ∃ taken, Faces ending c (taken ++ rest) ∧ Matches ending f taken rest c'.position pairs
  | _, _, _, _, _, .terminal h, _, _, hrest => by
    obtain ⟨part, rfl, hfaces, hstop, rfl⟩ := exists_faces_of_run h hrest
    rw [hstop]
    exact ⟨[part], hfaces, .terminal part⟩
  | _, _, _, _, _, .rule h, hskip, _, hrest => by
    obtain ⟨taken, hfaces, hmatches⟩ := h.exists_matches hskip (Rule.isProductive_body _) hrest
    refine ⟨taken, hfaces, ?_⟩
    rw [← hfaces.startOf_eq hskip]
    exact .rule hmatches
  | _, _, _, _, _, .sequence hfirst hsecond, hskip, hf, hrest => by
    obtain ⟨hf₁, hf₂⟩ := Bool.and_eq_true_iff.1 hf
    -- What lies ahead is known from behind: first the second part takes its tokens, then the first its own.
    obtain ⟨ys, hfaces₂, hmatches₂⟩ := hsecond.exists_matches (Cursor.skip_skip _) hf₂ hrest
    obtain ⟨xs, hfaces₁, hmatches₁⟩ := hfirst.exists_matches hskip hf₁ (faces_skip_iff.1 hfaces₂)
    rw [← List.append_assoc] at hfaces₁
    exact ⟨xs ++ ys, hfaces₁, .sequence hmatches₁ hmatches₂⟩
  | _, _, _, _, _, .left h, hskip, hf, hrest => by
    obtain ⟨taken, hfaces, hmatches⟩ := h.exists_matches hskip (Bool.and_eq_true_iff.1 hf).1 hrest
    exact ⟨taken, hfaces, .left hmatches⟩
  | _, _, _, _, _, .right _ h, hskip, hf, hrest => by
    obtain ⟨taken, hfaces, hmatches⟩ := h.exists_matches hskip (Bool.and_eq_true_iff.1 hf).2 hrest
    exact ⟨taken, hfaces, .right hmatches⟩
  | _, _, _, _, _, .present h, hskip, hf, hrest => by
    obtain ⟨taken, hfaces, hmatches⟩ := h.exists_matches hskip hf hrest
    exact ⟨taken, hfaces, .present hmatches⟩
  | _, _, _, _, _, .absent _, hskip, _, hrest => by
    refine ⟨[], hrest, ?_⟩
    rw [← hrest.startOf_eq hskip]
    exact .absent
  | _, _, _, _, _, .none _, hskip, _, hrest => by
    refine ⟨[], hrest, ?_⟩
    rw [← hrest.startOf_eq hskip]
    exact .none
  | _, _, _, _, _, .some h hon, hskip, hf, hrest => by
    have hbody := (Bool.and_eq_true_iff.1 hf).2
    obtain ⟨heq, rfl⟩ | ⟨ys, hne, hfaces, hmatches⟩ := hon.exists_matches hf hrest
    · obtain ⟨taken, hfaces, hmatches⟩ := h.exists_matches hskip hbody (heq ▸ hrest)
      rw [List.append_nil, heq]
      exact ⟨taken, hfaces, .last hmatches⟩
    · obtain ⟨xs, hfaces', hmatches'⟩ := h.exists_matches hskip hbody hfaces
      rw [← List.append_assoc] at hfaces'
      exact ⟨xs ++ ys, hfaces', .more hmatches' hne hmatches⟩

/-- A repetition that `RunsOn` continues is over at once, or it goes on with matches that take parts. -/
theorem RunsOn.exists_matches : ∀ {body : Form} {c c' : Cursor} {pairs : List Pair} {rest : List PlacedToken},
    RunsOn body c c' pairs → (Form.many body).isProductive → Faces ending c' rest → (c' = c ∧ pairs = []) ∨
      ∃ taken, taken ≠ [] ∧ Faces ending c (taken ++ rest) ∧ Matches ending (.many body) taken rest c'.position pairs
  | _, _, _, _, _, .stop _, _, _ => .inl ⟨rfl, rfl⟩
  | _, _, _, _, _, .further h hon, hf, hrest => by
    obtain ⟨hempty, hbody⟩ := Bool.and_eq_true_iff.1 hf
    rw [Bool.not_eq_true'] at hempty
    right
    obtain ⟨heq, rfl⟩ | ⟨ys, hne, hfaces, hmatches⟩ := hon.exists_matches hf hrest
    · obtain ⟨taken, hfaces, hmatches⟩ := h.exists_matches (Cursor.skip_skip _) hbody (heq ▸ hrest)
      rw [List.append_nil, heq]
      exact ⟨taken, hmatches.ne_nil hempty, faces_skip_iff.1 hfaces, .last hmatches⟩
    · obtain ⟨xs, hfaces', hmatches'⟩ := h.exists_matches (Cursor.skip_skip _) hbody hfaces
      rw [← List.append_assoc] at hfaces'
      exact ⟨xs ++ ys, List.append_ne_nil_of_right_ne_nil xs hne, faces_skip_iff.1 hfaces',
        .more hmatches' hne hmatches⟩

end

/-- The nodes that `Outcome` finds are those of a tree of the text. -/
theorem Outcome.tree {source : String} (h : Outcome source (some pairs)) : Tree source pairs := by
  cases h with
  | @matched c _ hrun hend =>
    have hskipped : Faces (c.skip.position + byteCount c.skip.chars) c.skip [] := by
      refine ⟨?_, ?_, rfl⟩
      · rw [hend]
        exact .nil
      · rw [hend, Lexer.lexemes?_eq, splitGap]
        rfl
    obtain ⟨taken, hfaces, hmatches⟩ := hrun.exists_matches (Cursor.skip_skip _) rfl (faces_skip_iff.1 hskipped)
    rw [List.append_nil, faces_skip_iff] at hfaces
    have hending := hfaces.ending
    rw [Cursor.ofText, Nat.zero_add, Lexer.byteCount_toList] at hending
    refine ⟨taken, c.position, ⟨hfaces.splits, hfaces.lexemes⟩, ?_⟩
    rw [hending]
    exact hmatches

end YulBackend.Grammar
