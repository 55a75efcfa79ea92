import YulBackend.Proofs.Printer.Characters
import YulBackend.Proofs.Printer.Emission

namespace YulBackend

/-- A text with another one inserted behind each of its line breaks. -/
def afterNewlines (inserted text : String) : String :=
  String.ofList (text.toList.flatMap fun c => if c = '\n' then c :: inserted.toList else [c])

section

variable (inserted : String)

theorem afterNewlines_append (a b : String) :
    afterNewlines inserted (a ++ b) = afterNewlines inserted a ++ afterNewlines inserted b := by
  rw [afterNewlines, String.toList_append, List.flatMap_append, String.ofList_append]
  rfl

theorem afterNewlines_join (texts : List String) :
    afterNewlines inserted (String.join texts) = String.join (texts.map (afterNewlines inserted)) := by
  induction texts with
  | nil => rfl
  | cons text rest ih => rw [String.join_cons, afterNewlines_append, ih, List.map_cons, String.join_cons]

theorem afterNewlines_newline : afterNewlines inserted "\n" = "\n" ++ inserted := by
  rw [← String.toList_inj, String.toList_append]
  exact String.toList_ofList.trans (List.append_nil _)

/-- A text of one line stays as it is. -/
theorem afterNewlines_of_lacks {text : String} (h : Lacks '\n' text) : afterNewlines inserted text = text := by
  have hkept : ∀ cs : List Char, '\n' ∉ cs →
      (cs.flatMap fun c => if c = '\n' then c :: inserted.toList else [c]) = cs := by
    intro cs hcs
    induction cs with
    | nil => rfl
    | cons c rest ih =>
      rw [List.mem_cons, not_or] at hcs
      rw [List.flatMap_cons, ih hcs.2, if_neg (Ne.symm hcs.1)]
      rfl
  rw [afterNewlines, hkept _ h, String.ofList_toList]

end

namespace PrintContext

/-- One level in, or one level out, which on the outermost level leads nowhere. -/
inductive Move
  | deepen
  | flatten
deriving DecidableEq, Repr

def move (context : PrintContext) : Move → PrintContext
  | .deepen => context.deepen
  | .flatten => context.flatten

def moveAll (context : PrintContext) (moves : List Move) : PrintContext := moves.foldl move context

/-- Moving changes the level only. -/
theorem moveAll_eq (context : PrintContext) (moves : List Move) :
    context.moveAll moves = { context with level := (context.moveAll moves).level } := by
  induction moves generalizing context with
  | nil => rfl
  | cons first rest ih =>
    rw [moveAll, List.foldl_cons]
    refine (ih (context.move first)).trans ?_
    cases first <;> rfl

end PrintContext

theorem Keyword.lacks_rendered (context : PrintContext) (word : Keyword) :
    Lacks '\n' (Piece.render context (.keyword word)) := by
  rw [Piece.render]
  cases context.colour <;> cases word <;> decide

section

variable (context : PrintContext)

/-- The indentation of a line is that of the level the context started at, and then that of the depth. -/
theorem PrintContext.indentation_eq (depth : Nat) : context.indentation depth =
    String.join (List.replicate context.level context.unit) ++ { context with level := 0 }.indentation depth := by
  rw [indentation, ← List.replicate_append_replicate, String.join_append, indentation, Nat.zero_add]

theorem PrintContext.lacks_indentation (hunit : Lacks '\n' context.unit) (depth : Nat) :
    Lacks '\n' (context.indentation depth) :=
  .join fun _ h => List.eq_of_mem_replicate h ▸ hunit

/-- A piece is rendered on any level as on the outermost, with the indentation of the level inserted. -/
theorem Piece.render_eq (hunit : Lacks '\n' context.unit) {p : Piece} (h : p.TextLacks '\n') : p.render context =
    afterNewlines (String.join (List.replicate context.level context.unit)) (p.render { context with level := 0 }) := by
  cases p with
  | keyword word => rw [afterNewlines_of_lacks _ (word.lacks_rendered _), render, render]
  | text content => rw [render, render, afterNewlines_of_lacks _ h]
  | newline depth =>
    have hflat : Lacks '\n' ({ context with level := 0 }.indentation depth) :=
      PrintContext.lacks_indentation { context with level := 0 } hunit depth
    rw [render, render, afterNewlines_append, afterNewlines_newline, afterNewlines_of_lacks _ hflat,
      PrintContext.indentation_eq, String.append_assoc]

/-- Pieces are rendered at a level as they are at level zero, with the indentation of the level behind every line
break. A line break in a unit or in a text piece would break this. -/
theorem Piece.renderAll_eq (hunit : Lacks '\n' context.unit) {pieces : List Piece}
    (h : ∀ p ∈ pieces, p.TextLacks '\n') : renderAll context pieces =
      afterNewlines (String.join (List.replicate context.level context.unit))
        (renderAll { context with level := 0 } pieces) := by
  rw [renderAll, renderAll, afterNewlines_join, List.map_map]
  exact congrArg String.join (List.map_congr_left fun p hp => p.render_eq context hunit (h p hp))

end

/-- A text in lines: the first one, and the others with how deep they are. -/
structure Lines where
  first : String
  further : List (Nat × String)

namespace Lines

/-- No line has a line break in it. -/
def Unbroken (lines : Lines) : Prop := Lacks '\n' lines.first ∧ ∀ line ∈ lines.further, Lacks '\n' line.2

/-- The lines with an indentation before each but the first. -/
def indented (lines : Lines) (indentation : Nat → String) : String :=
  lines.first ++ String.join (lines.further.map fun line => "\n" ++ indentation line.1 ++ line.2)

end Lines

/-- What a layout is rendered as has the same lines on every level, and with every unit. -/
theorem Piece.exists_lines (colour : Bool) (pieces : List Piece) (h : ∀ p ∈ pieces, p.TextLacks '\n') :
    ∃ lines : Lines, lines.Unbroken ∧ ∀ context : PrintContext, context.colour = colour →
      renderAll context pieces = lines.indented context.indentation := by
  induction pieces with
  | nil => exact ⟨⟨"", []⟩, ⟨List.not_mem_nil, fun _ h => absurd h List.not_mem_nil⟩, fun context _ => rfl⟩
  | cons p rest ih =>
    rw [List.forall_mem_cons] at h
    obtain ⟨lines, hunbroken, hlines⟩ := ih h.2
    -- A line break opens a line. What is on one line comes before the first line of the rest.
    have hinline : ∀ text, Lacks '\n' text → (∀ context, context.colour = colour → p.render context = text) →
        ∃ lines : Lines, lines.Unbroken ∧ ∀ context : PrintContext, context.colour = colour →
          renderAll context (p :: rest) = lines.indented context.indentation := by
      intro text htext hrender
      refine ⟨⟨text ++ lines.first, lines.further⟩, ⟨htext.append hunbroken.1, hunbroken.2⟩, ?_⟩
      intro context hcolour
      rw [renderAll, List.map_cons, String.join_cons, hrender context hcolour]
      refine (congrArg (text ++ ·) (hlines context hcolour)).trans ?_
      rw [Lines.indented, Lines.indented, String.append_assoc]
    cases p with
    | keyword word =>
      refine hinline _ (word.lacks_rendered ⟨0, "", colour⟩) fun context hcolour => ?_
      rw [render, render, hcolour]
    | text content => exact hinline content h.1 fun _ _ => rfl
    | newline depth =>
      refine ⟨⟨"", (depth, lines.first) :: lines.further⟩, ⟨List.not_mem_nil, List.forall_mem_cons.2 hunbroken⟩, ?_⟩
      intro context hcolour
      rw [renderAll, List.map_cons, String.join_cons, render]
      refine (congrArg (_ ++ ·) (hlines context hcolour)).trans ?_
      rw [Lines.indented, Lines.indented, List.map_cons, String.join_cons, String.empty_append, String.append_assoc,
        String.append_assoc, String.append_assoc]

/-- The level only indents. Whatever the moves before, `emitIn` writes a block as on the outermost level, with the units
of the level that was reached inserted behind every line break, if the unit has no line break itself, and it leaves the
context as it was reached. On the outermost level of a style it writes what `print` gives. Any unit at all is written
once for each level before the same lines. -/
theorem Block.emitIn_indented {block : Block} (h : ∀ text ∈ block.verbatim, Lacks '\n' text) :
    (∀ (start : PrintContext) (moves : List PrintContext.Move),
      (block.emitIn (start.moveAll moves)).2 = start.moveAll moves ∧
      (Lacks '\n' start.unit → (block.emitIn (start.moveAll moves)).1 =
        afterNewlines (String.join (List.replicate (start.moveAll moves).level start.unit))
          (block.emitIn { start with level := 0 }).1)) ∧
    (∀ style : PrintStyle, Lacks '\n' (PrintContext.ofStyle style).unit ∧
      (block.emitIn (.ofStyle style)).1 = block.print style) ∧
    ∀ colour : Bool, ∃ lines : Lines, lines.Unbroken ∧
      ∀ level unit, (block.emitIn ⟨level, unit, colour⟩).1 =
        lines.indented fun depth => String.join (List.replicate (level + depth) unit) := by
  have hpieces := Block.lacks_pieces (c := '\n') (by decide) 0 h
  have hstyle (style : PrintStyle) : Lacks '\n' (PrintContext.ofStyle style).unit :=
    style.indent.lacks_unit (by decide) (by decide)
  refine ⟨fun start moves => ⟨?_, fun hunit => ?_⟩, fun style => ⟨hstyle style, ?_⟩, ?_⟩
  · rw [Block.emitIn_eq]
  · rw [Block.emitIn_eq, Block.emitIn_eq, PrintContext.moveAll_eq]
    exact Piece.renderAll_eq { start with level := (start.moveAll moves).level } hunit hpieces
  · rw [Block.emitIn_eq, Block.print]
  · intro colour
    obtain ⟨lines, hunbroken, hlines⟩ := Piece.exists_lines colour (block.pieces 0) hpieces
    refine ⟨lines, hunbroken, fun level unit => ?_⟩
    rw [Block.emitIn_eq]
    exact hlines ⟨level, unit, colour⟩ rfl

/-- A `switch` over a text with a line break, two levels in. -/
theorem Block.emitIn_indented_switch :
    let text : Literal := ⟨{}, .string, "a\nb"⟩
    let block : Block := ⟨{}, [.switch {} (.identifier ⟨{}, "x"⟩)
      [⟨{}, some text, ⟨{}, [.leave {}]⟩⟩, ⟨{}, none, ⟨{}, []⟩⟩]]⟩
    let start : PrintContext := .ofStyle { colour := true, indent := .tabs }
    let reached : PrintContext := start.moveAll [.flatten, .deepen, .deepen]
    (∀ text ∈ block.verbatim, Lacks '\n' text) ∧ Lacks '\n' start.unit ∧
      block.emitIn reached = (afterNewlines "\t\t" (block.emitIn start).1, reached) := by
  intro text block start reached
  have h : ∀ text ∈ block.verbatim, Lacks '\n' text := by decide
  have hunit : Lacks '\n' start.unit := by decide
  have hwritten := (Block.emitIn_indented h).1 start [.flatten, .deepen, .deepen]
  exact ⟨h, hunit, Prod.ext (hwritten.2 hunit) hwritten.1⟩

/-- Where the unit is a line break, `emitIn` writes fewer line breaks one level in than there are in the text of the
outermost level with a unit inserted behind each of its line breaks: those of the units have none inserted. -/
theorem Block.emitIn_ne_afterNewlines :
    let block : Block := ⟨{}, [.leave {}]⟩
    let start : PrintContext := ⟨0, "\n", false⟩
    let reached : PrintContext := start.moveAll [.deepen]
    let units := String.join (List.replicate reached.level reached.unit)
    (∀ text ∈ block.verbatim, Lacks '\n' text) ∧
      (block.emitIn reached).1 = "\x7b\n\n\nleave\n\n\x7d" ∧
      afterNewlines units (block.emitIn start).1 = "\x7b\n\n\n\nleave\n\n\x7d" ∧
      (block.emitIn reached).1 ≠ afterNewlines units (block.emitIn start).1 := by
  decide +kernel

end YulBackend
