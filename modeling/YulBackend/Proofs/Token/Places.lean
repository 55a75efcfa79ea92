import Mathlib.Data.List.Forall2
import YulBackend.Proofs.Syntax.Nodes

namespace YulBackend

open Lexer

namespace Lexeme

/-- The lexeme so many bytes further on. -/
def move (distance : Nat) (lexeme : Lexeme) : Lexeme := ⟨lexeme.token, lexeme.span.move distance⟩

/-- The same lexemes in two places: moved this far and that far they come to stand in one. -/
def Aligned (distance distance' : Nat) (lexemes lexemes' : List Lexeme) : Prop :=
  List.Forall₂ (fun a b => a.move distance = b.move distance') lexemes lexemes'

/-- How far two places are apart is all that counts. -/
theorem Aligned.of_add {distance distance' n : Nat} {lexemes lexemes' : List Lexeme}
    (h : Aligned (distance + n) (distance' + n) lexemes lexemes') : Aligned distance distance' lexemes lexemes' := by
  refine h.imp fun a b hab => ?_
  simp only [move, Span.move, mk.injEq, Span.mk.injEq] at hab ⊢
  obtain ⟨htoken, hstart, hstop⟩ := hab
  exact ⟨htoken, by omega, by omega⟩

end Lexeme

namespace Cuts

variable {rest rest' : List Char} {part : SpeltToken}

/-- No token starts like a comment, so a gap ends right in front of the next token. -/
theorem exists_source_eq_cons (h : Cuts rest part) : ∃ c text, part.source = c :: text ∧ c ≠ '/' := by
  have hnext := h.next?.2
  cases hsource : part.source with
  | nil =>
    have hlt := length_lt_of_next? hnext
    rw [hsource] at hlt
    exact absurd hlt (Nat.lt_irrefl _)
  | cons c text =>
    refine ⟨c, text, rfl, ?_⟩
    rintro rfl
    have hslash : Word.isNameChar '/' = false := by decide
    rw [hsource] at hnext
    simp [Lexer.next?, hslash, ofWord?_nil] at hnext

/-- A part may stand in front of a text just as in front of another, unless this goes on with its word. -/
theorem congr (h : Cuts rest part) (hend : EndsWord rest → EndsWord rest') : Cuts rest' part := by
  cases h with
  | symbol htext => exact .symbol htext
  | word hword hrest => exact .word hword (hend hrest)
  | string hraw => exact .string hraw

end Cuts

namespace Lexer

variable {offset : Nat} {cs rest : List Char} {lexeme : Lexeme} {lexemes others : List Lexeme}

/-- In front of the first lexeme of a text is a gap, and behind it are the other lexemes. -/
theorem exists_of_lexemes?_cons (h : lexemes? offset cs = some (lexeme :: lexemes)) :
    ∃ gap part rest, splitGap cs = (gap, part.source ++ rest) ∧ cs = gap ++ (part.source ++ rest) ∧ Cuts rest part ∧
      lexeme = ⟨part.token, ⟨offset + byteCount gap, offset + byteCount gap + byteCount part.source⟩⟩ ∧
      lexemes? (offset + byteCount gap + byteCount part.source) rest = some lexemes := by
  have hsplit := split_gap cs
  rw [lexemes?_eq] at h
  split at h
  · cases h
  · obtain ⟨⟨token, text, rest⟩, hnext, h⟩ := Option.bind_eq_some_iff.1 h
    obtain ⟨lexemes', hrest, heq⟩ := Option.map_eq_some_iff.1 h
    cases heq
    obtain ⟨part, hcut, rfl, rfl⟩ := exists_cuts hnext
    rw [next?_eq_some hnext] at hsplit
    refine ⟨(splitGap cs).1, part, rest, ?_, hsplit.symm, hcut, rfl, hrest⟩
    rw [← next?_eq_some hnext]

/-- A lexeme starts where its own text starts once the gap in front of it is gone. -/
theorem lexemes?_of_splitGap {gap : List Char} {part : SpeltToken} (hcut : Cuts rest part)
    (h : splitGap cs = (gap, part.source ++ rest)) :
    lexemes? offset cs = lexemes? (offset + byteCount gap) (part.source ++ rest) := by
  refine lexemes?_gap gap ?_ offset
  rw [h, hcut.next?.1, List.append_nil]

/-- A gap that a token ends is a gap in front of any text that starts like this token. -/
theorem splitGap_congr {gap : List Char} {c : Char} (h : splitGap cs = (gap, c :: rest)) (hc : c ≠ '/')
    (rest' : List Char) : splitGap (gap ++ c :: rest') = (gap, c :: rest') := by
  fun_induction splitGap cs generalizing gap with
  | case1 text gap' _ hgap ih =>
    cases h
    have htext : ∀ d ∈ text.takeWhile (!isLineEnd ·), ¬ isLineEnd d := fun d hd => by
      simpa using List.mem_takeWhile_imp hd
    have hhead : (gap' ++ c :: rest').head? = (text.dropWhile (!isLineEnd ·)).head? := by
      have hsplit := split_gap (text.dropWhile (!isLineEnd ·))
      rw [hgap] at hsplit
      rw [← hsplit]
      cases gap' <;> rfl
    have hend : ∀ d ∈ (gap' ++ c :: rest').head?, isLineEnd d := by
      rw [hhead]
      intro d hd
      simpa using head?_dropWhile hd
    have hsplit := splitGap_lineComment htext hend
    rw [ih hgap] at hsplit
    simpa using hsplit
  | case2 text comment _ hcomment gap' _ hgap ih =>
    cases h
    obtain ⟨body, hbody, rfl⟩ := exists_of_blockComment? hcomment
    have hsplit := splitGap_blockComment hbody (gap' ++ c :: rest')
    rw [ih hgap] at hsplit
    simpa using hsplit
  | case3 => cases h; exact absurd rfl hc
  | case4 d text _ _ hblank gap' _ hgap ih =>
    cases h
    rw [List.cons_append, splitGap_blank hblank, ih hgap]
  | case5 d text _ _ hblank =>
    cases h
    exact splitGap_of_ne (by simpa using hblank) hc _
  | case6 => cases h

/-- A part that a gap stands in front of is the first part of any text that starts with both. -/
theorem lexemes?_part {gap tail : List Char} {part : SpeltToken} (hcut : Cuts rest part)
    (h : splitGap cs = (gap, part.source ++ rest)) (hcut' : Cuts tail part) (offset : Nat) :
    lexemes? offset (gap ++ (part.source ++ tail)) =
      (lexemes? (offset + byteCount gap + byteCount part.source) tail).map
        (⟨part.token, ⟨offset + byteCount gap, offset + byteCount gap + byteCount part.source⟩⟩ :: ·) := by
  obtain ⟨c, text, hsource, hc⟩ := hcut.exists_source_eq_cons
  have hgap : splitGap (gap ++ (part.source ++ tail)) = (gap, part.source ++ tail) := by
    rw [hsource, List.cons_append] at h ⊢
    exact splitGap_congr h hc _
  rw [lexemes?_of_splitGap hcut' hgap, lexemes?_token hcut'.next?.1 hcut'.next?.2]

/-- Some lexemes of a text are the ones of a piece of it, wherever this piece stands. -/
theorem exists_piece {front : List Lexeme} {last : Lexeme}
    (h : lexemes? offset cs = some (front ++ last :: others)) :
    ∃ piece rest, cs = piece ++ rest ∧ piece ≠ [] ∧ last.span.stop = offset + byteCount piece ∧
      ∀ tail, EndsWord tail → ∀ offset', ∃ moved, Lexeme.Aligned offset offset' moved (front ++ [last]) ∧
        lexemes? offset' (piece ++ tail) = (lexemes? (offset' + byteCount piece) tail).map (moved ++ ·) := by
  -- Whatever a lexeme is aligned with, it stands behind as long a gap there.
  have hmove (token : Token) (gap source offset offset' : Nat) :
      (⟨token, ⟨offset' + gap, offset' + gap + source⟩⟩ : Lexeme).move offset =
        (⟨token, ⟨offset + gap, offset + gap + source⟩⟩ : Lexeme).move offset' := by
    simp only [Lexeme.move, Span.move, Lexeme.mk.injEq, Span.mk.injEq, true_and]
    omega
  induction front generalizing offset cs with
  | nil =>
    obtain ⟨gap, part, rest, hsplit, rfl, hcut, rfl, hrest⟩ := exists_of_lexemes?_cons h
    obtain ⟨c, text, hsource, -⟩ := hcut.exists_source_eq_cons
    refine ⟨gap ++ part.source, rest, by simp, by simp [hsource], ?_, fun tail htail offset' => ?_⟩
    · rw [byteCount_append, ← Nat.add_assoc]
    · refine ⟨[_], .cons (hmove _ _ _ offset offset') .nil, ?_⟩
      rw [List.append_assoc, lexemes?_part hcut hsplit (hcut.congr fun _ => htail), byteCount_append, ← Nat.add_assoc]
      rfl
  | cons first front ih =>
    obtain ⟨gap, part, rest, hsplit, rfl, hcut, rfl, hrest⟩ := exists_of_lexemes?_cons h
    obtain ⟨piece, rest', rfl, hpiece, hstop, hmoved⟩ := ih hrest
    refine ⟨gap ++ (part.source ++ piece), rest', by simp, by simp [hpiece], ?_, fun tail htail offset' => ?_⟩
    · rw [hstop, byteCount_append, byteCount_append]
      simp only [Nat.add_assoc]
    · obtain ⟨moved, haligned, hlexemes⟩ := hmoved tail htail (offset' + byteCount gap + byteCount part.source)
      -- What stands behind the first part starts alike, so the part ends there, too.
      have hcut' : Cuts (piece ++ tail) part := by
        refine hcut.congr fun hend c hc => hend c ?_
        cases piece with
        | nil => exact absurd rfl hpiece
        | cons d piece => exact hc
      refine ⟨_ :: moved, .cons (hmove _ _ _ offset offset') ?_, ?_⟩
      · rw [Nat.add_assoc, Nat.add_assoc] at haligned
        exact haligned.of_add
      · rw [List.append_assoc, List.append_assoc, lexemes?_part hcut hsplit hcut', hlexemes]
        simp [byteCount_append, Nat.add_assoc, Function.comp_def]

end Lexer

/-- Behind this position a text goes on with these lexemes, and no string among them has an invalid escape. -/
structure Continues (source : String) (position : Nat) (lexemes : List Lexeme) : Prop where
  reads : ∃ front rest, source.toList = front ++ rest ∧ byteCount front = position ∧
    lexemes? position rest = some lexemes
  fault : ∀ lexeme ∈ lexemes, lexeme.token.fault? = none

namespace Continues

variable {source : String} {position : Nat} {lexeme : Lexeme} {lexemes : List Lexeme}

/-- The next lexeme is a piece of the text, and from its start on, and from its end on, the text continues alike. -/
theorem cons (h : Continues source position (lexeme :: lexemes)) :
    position ≤ lexeme.span.start ∧ Continues source lexeme.span.start (lexeme :: lexemes) ∧
      Continues source lexeme.span.stop lexemes ∧
      ∃ part rest, Cuts rest part ∧ part.token = lexeme.token ∧
        lexeme.span.Slices source (String.ofList part.source) := by
  obtain ⟨⟨front, cs, hsource, rfl, hlexemes⟩, hfault⟩ := h
  obtain ⟨gap, part, rest, hsplit, rfl, hcut, rfl, hrest⟩ := exists_of_lexemes?_cons hlexemes
  refine ⟨Nat.le_add_right _ _, ⟨⟨front ++ gap, part.source ++ rest, ?_, byteCount_append _ _, ?_⟩, hfault⟩,
    ⟨⟨front ++ (gap ++ part.source), rest, ?_, ?_, hrest⟩, fun l hl => hfault l (List.mem_cons_of_mem _ hl)⟩,
    part, rest, hcut, rfl, ?_⟩
  · rw [hsource, List.append_assoc]
  · rwa [lexemes?_of_splitGap hcut hsplit] at hlexemes
  · simp [hsource]
  · simp only [byteCount_append, Nat.add_assoc]
  · refine Span.slices_iff.2 ⟨front ++ gap, rest, ?_, byteCount_append _ _, ?_⟩
    · simp [hsource]
    · simp [byteCount_append, Nat.add_assoc]

theorem boundary (h : Continues source position lexemes) : IsBoundary source position := by
  obtain ⟨⟨front, rest, hsource, hposition, -⟩, -⟩ := h
  exact isBoundary_iff.2 ⟨front, rest, hsource, hposition⟩

theorem le_start (h : Continues source position (lexeme :: lexemes)) : position ≤ lexeme.span.start := h.cons.1

theorem from_start (h : Continues source position (lexeme :: lexemes)) :
    Continues source lexeme.span.start (lexeme :: lexemes) := h.cons.2.1

theorem tail (h : Continues source position (lexeme :: lexemes)) : Continues source lexeme.span.stop lexemes :=
  h.cons.2.2.1

theorem start_le_stop (h : Continues source position (lexeme :: lexemes)) : lexeme.span.start ≤ lexeme.span.stop := by
  obtain ⟨-, -, -, part, -, -, -, hslices⟩ := h.cons
  exact (Span.exists_slices_iff.1 ⟨_, hslices⟩).2.2

theorem le_stop (h : Continues source position (lexeme :: lexemes)) : position ≤ lexeme.span.stop :=
  h.le_start.trans h.start_le_stop

/-- A name is spelt as it is. -/
theorem slices_name {name : String} (h : Continues source position (lexeme :: lexemes))
    (hname : lexeme.token = .identifier name) : lexeme.span.Slices source name := by
  obtain ⟨-, -, -, part, rest, hcut, htoken, hslices⟩ := h.cons
  rw [hname] at htoken
  cases hcut with
  | @symbol t text htext => cases t <;> cases htext <;> cases htoken
  | word hword _ =>
    rw [hword.source] at hslices
    cases hword <;> cases htoken
    exact hslices
  | @string raw _ =>
    have hterminal := Token.terminal_ofStringBody raw
    simp only [SpeltToken.token] at htoken
    rw [htoken] at hterminal
    cases hterminal

/-- A literal is spelt as it says. -/
theorem literal_shows {value : Literal} (h : Continues source position (lexeme :: lexemes))
    (hvalue : lexeme.literal? = some value) : value.Shows source := by
  have hfault := h.fault lexeme List.mem_cons_self
  obtain ⟨-, -, -, part, rest, hcut, htoken, hslices⟩ := h.cons
  obtain ⟨token, span⟩ := lexeme
  dsimp only at htoken hslices hfault
  subst htoken
  cases hcut with
  | @symbol t text htext => cases t <;> cases htext <;> cases hvalue
  | word hword _ =>
    rw [hword.source] at hslices
    cases hword <;> cases hvalue <;> exact hslices
  | @string raw hraw =>
    simp only [SpeltToken.token, Token.ofStringBody] at hvalue hfault
    cases hdecode : Escape.decode raw with
    | ok text =>
      rw [hdecode] at hvalue
      cases hvalue
      exact ⟨raw, hraw, by rw [hdecode, String.toList_ofList], hslices⟩
    | error escape =>
      rw [hdecode] at hfault
      cases hfault

end Continues

end YulBackend
