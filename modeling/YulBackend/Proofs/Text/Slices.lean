import YulBackend.Proofs.Token.Splits

namespace YulBackend

open Lexer

namespace Lexer

/-- Bytes are counted as strings count them. -/
theorem byteCount_toList (text : String) : byteCount text.toList = text.utf8ByteSize := by
  induction text using String.push_induction with
  | empty => rfl
  | push text c ih =>
    rw [String.toList_push, byteCount_append, ih, String.utf8ByteSize_push]
    rfl

/-- What adds no bytes is empty. -/
theorem eq_nil_of_byteCount_append_le {cs ds : List Char} (h : byteCount (cs ++ ds) ≤ byteCount cs) : ds = [] := by
  cases ds with
  | nil => rfl
  | cons d ds =>
    have hpos := d.utf8Size_pos
    rw [byteCount_append, byteCount] at h
    omega

/-- Of two beginnings of a text the one with fewer bytes is a beginning of the other. -/
theorem exists_append_of_byteCount_le {front rest front' rest' : List Char} (h : front ++ rest = front' ++ rest')
    (hle : byteCount front ≤ byteCount front') : ∃ between, front' = front ++ between ∧ rest = between ++ rest' := by
  obtain ⟨between, hfront, hrest⟩ | ⟨between, rfl, rfl⟩ := List.append_eq_append_iff.1 h
  · exact ⟨between, hfront, hrest⟩
  · obtain rfl := eq_nil_of_byteCount_append_le hle
    exact ⟨[], by simp, rfl⟩

/-- Beginnings of a text with as many bytes are the same. -/
theorem eq_of_byteCount_eq {front rest front' rest' : List Char} (h : front ++ rest = front' ++ rest')
    (heq : byteCount front = byteCount front') : front = front' ∧ rest = rest' := by
  obtain ⟨between, rfl, rfl⟩ := exists_append_of_byteCount_le h (Nat.le_of_eq heq)
  obtain rfl := eq_nil_of_byteCount_append_le (Nat.le_of_eq heq.symm)
  exact ⟨(List.append_nil _).symm, rfl⟩

end Lexer

/-- A position in a text, counted in bytes, at which no character is split. -/
def IsBoundary (source : String) (position : Nat) : Prop := String.Pos.Raw.IsValid source ⟨position⟩

/-- A position is a boundary if the text can be cut in two there, with so many bytes in front. -/
theorem isBoundary_iff {source : String} {position : Nat} : IsBoundary source position ↔
    ∃ front rest, source.toList = front ++ rest ∧ byteCount front = position := by
  rw [IsBoundary, String.Pos.Raw.isValid_iff_exists_append]
  constructor
  · rintro ⟨front, rest, rfl, hposition⟩
    refine ⟨front.toList, rest.toList, String.toList_append, ?_⟩
    rw [byteCount_toList]
    exact (congrArg String.Pos.Raw.byteIdx hposition).symm
  · rintro ⟨front, rest, hsource, rfl⟩
    refine ⟨String.ofList front, String.ofList rest, ?_, ?_⟩
    · rw [← String.ofList_append, ← hsource, String.ofList_toList]
    · have hsize := byteCount_toList (String.ofList front)
      rw [String.toList_ofList] at hsize
      rw [hsize]
      rfl

namespace Span

/-- From the start of a span to its stop a text reads like this. -/
def Slices (span : Span) (source piece : String) : Prop :=
  ∃ front rest, source = front ++ piece ++ rest ∧ front.utf8ByteSize = span.start ∧
    (front ++ piece).utf8ByteSize = span.stop

variable {span : Span} {source piece piece' : String}

/-- A span cuts a piece out of a text if there are texts before and behind the piece, and the bytes add up. -/
theorem slices_iff : span.Slices source piece ↔
    ∃ front rest, source.toList = front ++ piece.toList ++ rest ∧ byteCount front = span.start ∧
      byteCount (front ++ piece.toList) = span.stop := by
  constructor
  · rintro ⟨front, rest, rfl, hstart, hstop⟩
    refine ⟨front.toList, rest.toList, by simp, ?_, ?_⟩
    · rw [byteCount_toList, hstart]
    · rw [← String.toList_append, byteCount_toList, hstop]
  · rintro ⟨front, rest, hsource, hstart, hstop⟩
    refine ⟨String.ofList front, String.ofList rest, ?_, ?_, ?_⟩
    · refine String.toList_inj.1 ?_
      simpa using hsource
    · rw [← byteCount_toList, String.toList_ofList, hstart]
    · rw [← byteCount_toList, String.toList_append, String.toList_ofList, hstop]

/-- There is one text between two positions. -/
theorem Slices.unique (h : span.Slices source piece) (h' : span.Slices source piece') : piece = piece' := by
  obtain ⟨front, rest, hsource, hstart, hstop⟩ := slices_iff.1 h
  obtain ⟨front', rest', hsource', hstart', hstop'⟩ := slices_iff.1 h'
  rw [hsource, List.append_assoc, List.append_assoc] at hsource'
  obtain ⟨rfl, hrest⟩ := eq_of_byteCount_eq hsource' (hstart.trans hstart'.symm)
  rw [byteCount_append] at hstop hstop'
  exact String.toList_inj.1 (eq_of_byteCount_eq hrest (by omega)).1

/-- A text can be cut at boundaries that are in order. -/
theorem exists_slices_iff : (∃ piece, span.Slices source piece) ↔
    IsBoundary source span.start ∧ IsBoundary source span.stop ∧ span.start ≤ span.stop := by
  rw [isBoundary_iff, isBoundary_iff]
  constructor
  · rintro ⟨piece, h⟩
    obtain ⟨front, rest, hsource, hstart, hstop⟩ := slices_iff.1 h
    refine ⟨⟨front, piece.toList ++ rest, by rw [hsource, List.append_assoc], hstart⟩,
      ⟨front ++ piece.toList, rest, hsource, hstop⟩, ?_⟩
    rw [← hstart, ← hstop, byteCount_append]
    exact Nat.le_add_right _ _
  · rintro ⟨⟨front, rest, hsource, hstart⟩, ⟨front', rest', hsource', hstop⟩, hle⟩
    rw [← hstart, ← hstop] at hle
    obtain ⟨between, rfl, -⟩ := exists_append_of_byteCount_le (hsource.symm.trans hsource') hle
    refine ⟨String.ofList between, slices_iff.2 ⟨front, rest', ?_, hstart, ?_⟩⟩
    · rwa [String.toList_ofList]
    · rwa [String.toList_ofList]

end Span

theorem IsBoundary.le {source : String} {position : Nat} (h : IsBoundary source position) :
    position ≤ source.utf8ByteSize := by
  obtain ⟨front, rest, hsource, rfl⟩ := isBoundary_iff.1 h
  rw [← byteCount_toList, hsource, byteCount_append]
  exact Nat.le_add_right _ _

end YulBackend
