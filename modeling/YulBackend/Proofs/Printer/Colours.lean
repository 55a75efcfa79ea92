import YulBackend.Proofs.Printer.Characters

namespace YulBackend

namespace Colour

/-- The sequence before a reserved word. -/
def keywordStart : List Char := ['\x1b', '[', '1', ';', '9', '5', 'm']

/-- The sequence behind a reserved word. -/
def keywordStop : List Char := ['\x1b', '[', '0', 'm']

/-- Deletes the sequences that stand around reserved words. -/
def strip : List Char → List Char
  | '\x1b' :: '[' :: '1' :: ';' :: '9' :: '5' :: 'm' :: rest => strip rest
  | '\x1b' :: '[' :: '0' :: 'm' :: rest => strip rest
  | c :: rest => c :: strip rest
  | [] => []

theorem strip_start (rest : List Char) : strip (keywordStart ++ rest) = strip rest := rfl

theorem strip_stop (rest : List Char) : strip (keywordStop ++ rest) = strip rest := rfl

/-- Text without an escape character stays as it is. -/
theorem strip_append {text : List Char} (h : '\x1b' ∉ text) (rest : List Char) :
    strip (text ++ rest) = text ++ strip rest := by
  induction text with
  | nil => rfl
  | cons c text ih =>
    rw [List.mem_cons, not_or] at h
    rw [List.cons_append, strip, ih h.2, List.cons_append]
    · exact fun _ hc => absurd hc.symm h.1
    · exact fun _ hc => absurd hc.symm h.1

end Colour

/-- A character that follows a text without it is behind the whole text. -/
theorem eq_append_of_notMem {α : Type} {c : α} {text rest before after : List α} (h : c ∉ text)
    (heq : text ++ rest = before ++ c :: after) :
    ∃ between, before = text ++ between ∧ rest = between ++ c :: after := by
  obtain ⟨between, hbefore, hrest⟩ | ⟨between, htext, hafter⟩ := List.append_eq_append_iff.1 heq
  · exact ⟨between, hbefore, hrest⟩
  · cases between with
    | nil => exact ⟨[], by rw [htext, List.append_nil, List.append_nil], hafter.symm⟩
    | cons d between =>
      rw [List.cons_append, List.cons.injEq] at hafter
      exact absurd (by rw [htext, hafter.1]; exact List.mem_append_right _ List.mem_cons_self) h

/-- Where an escape character stands that is in a painted word or behind it: before the word, right behind it, or
behind the sequence that takes the colour back. -/
theorem Colour.place_of_painted {word rest before after : List Char} (hword : '\x1b' ∉ word)
    (heq : keywordStart ++ (word ++ (keywordStop ++ rest)) = before ++ '\x1b' :: after) :
    before = [] ∨ (before = keywordStart ++ word ∧ '\x1b' :: after = keywordStop ++ rest) ∨
      ∃ between, before = keywordStart ++ (word ++ (keywordStop ++ between)) ∧ rest = between ++ '\x1b' :: after := by
  cases before with
  | nil => exact .inl rfl
  | cons c before =>
    rw [← List.append_assoc] at heq
    obtain ⟨rfl, htail⟩ : '\x1b' = c ∧
        ['[', '1', ';', '9', '5', 'm'] ++ word ++ (keywordStop ++ rest) = before ++ '\x1b' :: after := List.cons.inj heq
    have hlacks : '\x1b' ∉ ['[', '1', ';', '9', '5', 'm'] ++ word :=
      fun h => (List.mem_append.1 h).elim (by decide) hword
    obtain ⟨behind, rfl, hbehind⟩ := eq_append_of_notMem hlacks htail
    cases behind with
    | nil => exact .inr (.inl ⟨by rw [List.append_nil]; rfl, hbehind.symm⟩)
    | cons d behind =>
      obtain ⟨rfl, hstop⟩ : '\x1b' = d ∧ ['[', '0', 'm'] ++ rest = behind ++ '\x1b' :: after := List.cons.inj hbehind
      obtain ⟨between, rfl, hrest⟩ := eq_append_of_notMem (by decide) hstop
      refine .inr (.inr ⟨between, ?_, hrest⟩)
      rw [List.append_assoc]
      rfl

/-- Up to the first sequence that takes the colour back, nothing but the painted word is read. -/
theorem Colour.eq_of_enclosed {word rest between after : List Char} (hword : '\x1b' ∉ word)
    (heq : word ++ (keywordStop ++ rest) = between ++ (keywordStop ++ after)) (hnot : ¬ keywordStop <:+: between) :
    between = word := by
  obtain ⟨behind, rfl, hbehind⟩ := eq_append_of_notMem hword heq
  cases behind with
  | nil => rw [List.append_nil]
  | cons d behind =>
    obtain ⟨rfl, hstop⟩ : '\x1b' = d ∧ ['[', '0', 'm'] ++ rest = behind ++ '\x1b' :: (['[', '0', 'm'] ++ after) :=
      List.cons.inj hbehind
    obtain ⟨more, rfl, -⟩ := eq_append_of_notMem (by decide) hstop
    exact absurd ⟨word, more, List.append_assoc ..⟩ hnot

/-- The text from some place on starts with a reserved word in its sequences, or with the sequence behind one. -/
def Colour.Paints (before after : List Char) : Prop :=
  (∃ word : Keyword, ∃ rest, after = keywordStart ++ (word.text.toList ++ (keywordStop ++ rest))) ∨
    ∃ word : Keyword, ∃ first rest, before = first ++ (keywordStart ++ word.text.toList) ∧ after = keywordStop ++ rest

theorem Colour.Paints.append {before after : List Char} (h : Paints before after) (text : List Char) :
    Paints (text ++ before) after :=
  h.imp_right fun ⟨word, first, rest, hbefore, hafter⟩ =>
    ⟨word, text ++ first, rest, by rw [hbefore, List.append_assoc], hafter⟩

theorem Colour.start_append_ne (a b : List Char) : keywordStart ++ a ≠ keywordStop ++ b :=
  fun h => absurd (congrArg (·[2]?) h : some '1' = some '0') (by decide)

section

variable (level : Nat) (unit : String)

theorem Piece.renderAll_cons (context : PrintContext) (p : Piece) (rest : List Piece) :
    (renderAll context (p :: rest)).toList = (p.render context).toList ++ (renderAll context rest).toList := by
  rw [renderAll, List.map_cons, String.join_cons, String.toList_append]
  rfl

theorem Keyword.lacks_text (word : Keyword) : '\x1b' ∉ word.text.toList := by cases word <;> decide

/-- A reserved word is painted by a sequence before it and one behind it. -/
theorem Keyword.toList_render (word : Keyword) :
    (Piece.render ⟨level, unit, true⟩ (.keyword word)).toList =
      Colour.keywordStart ++ (word.text.toList ++ Colour.keywordStop) := by
  rw [Piece.render, if_pos rfl, paintKeyword, Colour.enclose, String.toList_append, String.toList_append,
    List.append_assoc]
  rfl

variable {unit}

/-- A piece other than a reserved word has no escape character, and is rendered with colours as without. -/
theorem Piece.lacks_render (hunit : Lacks '\x1b' unit) {p : Piece} (hp : p.TextLacks '\x1b')
    (hword : ∀ word, p ≠ .keyword word) : Lacks '\x1b' (p.render ⟨level, unit, true⟩) := by
  cases p with
  | keyword word => exact absurd rfl (hword word)
  | text content => exact hp
  | newline depth =>
    exact (by decide : Lacks '\x1b' "\n").append (.join fun _ h => List.eq_of_mem_replicate h ▸ hunit)

/-- Stripping what is rendered in colour gives what is rendered without, if no text piece holds the character that
starts a sequence. -/
theorem Piece.strip_renderAll (hunit : Lacks '\x1b' unit) {pieces : List Piece}
    (h : ∀ p ∈ pieces, p.TextLacks '\x1b') : Colour.strip (renderAll ⟨level, unit, true⟩ pieces).toList =
      (renderAll ⟨level, unit, false⟩ pieces).toList := by
  induction pieces with
  | nil => rfl
  | cons p rest ih =>
    rw [List.forall_mem_cons] at h
    rw [renderAll_cons, renderAll_cons, ← ih h.2]
    cases p with
    | keyword word =>
      rw [word.toList_render, List.append_assoc, Colour.strip_start, List.append_assoc,
        Colour.strip_append word.lacks_text, Colour.strip_stop]
      rfl
    | _ => exact Colour.strip_append (lacks_render level hunit h.1 nofun) _

/-- An escape character opens one of the two sequences. What it opens is next to a reserved word, on whose other side
the other sequence stands. -/
theorem Piece.paints_of_renderAll (hunit : Lacks '\x1b' unit) {pieces : List Piece}
    (h : ∀ p ∈ pieces, p.TextLacks '\x1b') {before after : List Char}
    (heq : (renderAll ⟨level, unit, true⟩ pieces).toList = before ++ '\x1b' :: after) :
    Colour.Paints before ('\x1b' :: after) := by
  induction pieces generalizing before with
  | nil => cases before <;> cases heq
  | cons p pieces ih =>
    rw [List.forall_mem_cons] at h
    rw [renderAll_cons] at heq
    cases p with
    | keyword word =>
      rw [word.toList_render, List.append_assoc, List.append_assoc] at heq
      obtain rfl | ⟨hbefore, hafter⟩ | ⟨between, rfl, hrest⟩ := Colour.place_of_painted word.lacks_text heq
      · exact .inl ⟨word, _, heq.symm⟩
      · exact .inr ⟨word, [], _, hbefore, hafter⟩
      · rw [← List.append_assoc, ← List.append_assoc]
        exact (ih h.2 hrest).append _
    | _ =>
      obtain ⟨between, rfl, hrest⟩ := eq_append_of_notMem (lacks_render level hunit h.1 nofun) heq
      exact (ih h.2 hrest).append _

/-- Wherever the colour is set in a rendered text, a reserved word follows and then the colour is taken back. -/
theorem Piece.follows_start (hunit : Lacks '\x1b' unit) {pieces : List Piece}
    (h : ∀ p ∈ pieces, p.TextLacks '\x1b') {before after : List Char}
    (heq : (renderAll ⟨level, unit, true⟩ pieces).toList = before ++ (Colour.keywordStart ++ after)) :
    ∃ word : Keyword, ∃ rest, after = word.text.toList ++ (Colour.keywordStop ++ rest) := by
  obtain ⟨word, rest, hafter⟩ | ⟨_, _, rest, _, hafter⟩ := paints_of_renderAll level hunit h heq
  · exact ⟨word, rest, (List.append_right_inj Colour.keywordStart).1 hafter⟩
  · exact absurd hafter (Colour.start_append_ne after rest)

/-- Wherever the colour is taken back in a rendered text, a reserved word is in front and before it the colour is
set. -/
theorem Piece.precedes_stop (hunit : Lacks '\x1b' unit) {pieces : List Piece}
    (h : ∀ p ∈ pieces, p.TextLacks '\x1b') {before after : List Char}
    (heq : (renderAll ⟨level, unit, true⟩ pieces).toList = before ++ (Colour.keywordStop ++ after)) :
    ∃ word : Keyword, ∃ first, before = first ++ (Colour.keywordStart ++ word.text.toList) := by
  obtain ⟨word, rest, hafter⟩ | ⟨word, first, _, hbefore, _⟩ := paints_of_renderAll level hunit h heq
  · exact absurd hafter.symm (Colour.start_append_ne _ after)
  · exact ⟨word, first, hbefore⟩

end

theorem Keyword.text_mem (word : Keyword) : word.text ∈
    ["function", "let", "if", "switch", "case", "default", "for", "break", "continue", "leave"] := by
  cases word <;> decide

/-- The colours of `print` touch reserved words only. Without its sequences the coloured text of a block is the plain
one. Behind each sequence that sets the colour the next one takes it back, each that takes it back has one before it,
and what two such sequences enclose is a reserved word. -/
theorem Block.strip_print {block : Block} (h : ∀ text ∈ block.verbatim, Lacks '\x1b' text) (indent : Indent) :
    Colour.strip (block.print { colour := true, indent }).toList =
      (block.print { colour := false, indent }).toList ∧
    (∀ before between after, (block.print { colour := true, indent }).toList =
        before ++ Colour.keywordStart ++ between ++ Colour.keywordStop ++ after →
      ¬ Colour.keywordStop <:+: between → String.ofList between ∈
        ["function", "let", "if", "switch", "case", "default", "for", "break", "continue", "leave"]) ∧
    (∀ before after, (block.print { colour := true, indent }).toList = before ++ Colour.keywordStart ++ after →
      Colour.keywordStop <:+: after) ∧
    ∀ before after, (block.print { colour := true, indent }).toList = before ++ Colour.keywordStop ++ after →
      Colour.keywordStart <:+: before := by
  have hpieces := Block.lacks_pieces (c := '\x1b') (by decide) 0 h
  have hunit : Lacks '\x1b' indent.unit := indent.lacks_unit (by decide) (by decide)
  refine ⟨Piece.strip_renderAll 0 hunit hpieces, ?_, ?_, ?_⟩
  · intro before between after heq hnot
    rw [List.append_assoc, List.append_assoc, List.append_assoc] at heq
    obtain ⟨word, rest, hafter⟩ := Piece.follows_start 0 hunit hpieces heq
    rw [Colour.eq_of_enclosed word.lacks_text hafter.symm hnot, String.ofList_toList]
    exact word.text_mem
  · intro before after heq
    rw [List.append_assoc] at heq
    obtain ⟨word, rest, rfl⟩ := Piece.follows_start 0 hunit hpieces heq
    exact ⟨word.text.toList, rest, List.append_assoc ..⟩
  · intro before after heq
    rw [List.append_assoc] at heq
    obtain ⟨word, first, rfl⟩ := Piece.precedes_stop 0 hunit hpieces heq
    exact ⟨first, word.text.toList, List.append_assoc ..⟩

/-- A loop over a text that holds both sequences itself. In its coloured text a pair of sequences encloses `for`. -/
theorem Block.strip_print_loop :
    let text : Literal := ⟨{}, .string, "\x1b[1;95mlet\x1b[0m"⟩
    let block : Block := ⟨{}, [.loop {} ⟨{}, []⟩ (.literal text) ⟨{}, []⟩ ⟨{}, [.break {}]⟩]⟩
    (∀ text ∈ block.verbatim, Lacks '\x1b' text) ∧
      Colour.strip (block.print .coloured).toList = (block.print .plain).toList ∧
      ∃ before between after, (block.print .coloured).toList =
          before ++ Colour.keywordStart ++ between ++ Colour.keywordStop ++ after ∧
        ¬ Colour.keywordStop <:+: between ∧ String.ofList between = "for" ∧
        String.ofList between ∈
          ["function", "let", "if", "switch", "case", "default", "for", "break", "continue", "leave"] ∧
        Colour.keywordStop <:+: between ++ Colour.keywordStop ++ after ∧
        Colour.keywordStart <:+: before ++ Colour.keywordStart ++ between := by
  intro text block
  have h : ∀ text ∈ block.verbatim, Lacks '\x1b' text := by decide
  obtain ⟨hstrip, henclosed, hstarts, hstops⟩ := Block.strip_print h (.spaces 4)
  let before := "\x7b\n    ".toList
  let after := (block.print .coloured).toList.drop 20
  have hpair : (block.print .coloured).toList =
      before ++ Colour.keywordStart ++ "for".toList ++ Colour.keywordStop ++ after := by decide +kernel
  have hnot : ¬ Colour.keywordStop <:+: "for".toList := by decide
  refine ⟨h, hstrip, before, "for".toList, after, hpair, hnot, rfl, henclosed _ _ _ hpair hnot, ?_, ?_⟩
  · refine hstarts before ("for".toList ++ Colour.keywordStop ++ after) (hpair.trans ?_)
    simp only [List.append_assoc]
  · exact hstops _ after hpair

end YulBackend
