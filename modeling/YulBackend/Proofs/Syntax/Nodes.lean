import YulBackend.Parser
import YulBackend.Proofs.Text.Slices

namespace YulBackend

/-- A statement that is nothing but an expression or a block stands where this stands. -/
def Stmt.span : Stmt → Span
  | .expression value => value.span
  | .block body => body.span
  | .assignment span .. | .declaration span .. | .function span .. | .conditional span .. | .switch span ..
  | .loop span .. | .break span | .continue span | .leave span => span

/-- The span so many bytes further on. -/
def Span.move (distance : Nat) (span : Span) : Span := ⟨span.start + distance, span.stop + distance⟩

def Identifier.move (distance : Nat) (name : Identifier) : Identifier := { name with span := name.span.move distance }

def Literal.move (distance : Nat) (value : Literal) : Literal := { value with span := value.span.move distance }

mutual

/-- The expression with every span in it so many bytes further on. -/
def Expr.move (distance : Nat) : Expr → Expr
  | .call span callee arguments => .call (span.move distance) (callee.move distance) (Expr.moveAll distance arguments)
  | .identifier name => .identifier (name.move distance)
  | .literal value => .literal (value.move distance)

def Expr.moveAll (distance : Nat) : List Expr → List Expr
  | [] => []
  | e :: rest => e.move distance :: Expr.moveAll distance rest

end

inductive Node
  | block (b : Block)
  | stmt (s : Stmt)
  | clause (c : Case)
  | expr (e : Expr)
  | name (x : Identifier)
  | literal (value : Literal)

namespace Node

def span : Node → Span
  | block b => b.span
  | stmt s => s.span
  | clause c => c.span
  | expr e => e.span
  | name x => x.span
  | literal value => value.span

/-- The nodes that a node is made of, as they follow each other in the text. -/
def children : Node → List Node
  | block b => b.statements.map stmt
  | stmt (.expression value) => [expr value]
  | stmt (.assignment _ targets value) => targets.map name ++ [expr value]
  | stmt (.declaration _ declared value) => declared.map name ++ value.toList.map expr
  | stmt (.function _ _ parameters returns body) => parameters.map name ++ returns.map name ++ [block body]
  | stmt (.conditional _ condition body) => [expr condition, block body]
  | stmt (.switch _ scrutinee cases) => expr scrutinee :: cases.map clause
  | stmt (.loop _ pre condition post body) => [block pre, expr condition, block post, block body]
  | stmt (.block body) => [block body]
  | stmt (.break _) | stmt (.continue _) | stmt (.leave _) => []
  | clause c => c.value.toList.map literal ++ [block c.body]
  | expr (.call _ callee arguments) => name callee :: arguments.map expr
  | expr (.identifier x) => [name x]
  | expr (.literal value) => [literal value]
  | name _ | literal _ => []

/-- A node is in itself and in whatever one of its children is in. -/
inductive Contains : Node → Node → Prop
  | self (n : Node) : Contains n n
  | child {n c m : Node} (hc : c ∈ n.children) (h : Contains c m) : Contains n m

/-- What holds of a node, and of everything in its children, holds of everything in it. -/
theorem forall_contains {P : Node → Prop} {n : Node} (hn : P n)
    (hchildren : ∀ c ∈ n.children, ∀ m, c.Contains m → P m) : ∀ m, n.Contains m → P m := by
  rintro m (_ | ⟨hc, h⟩)
  · exact hn
  · exact hchildren _ hc m h

end Node

/-- A literal is spelt in the text as it says: a string between quotes, with escapes, anything else as it is. -/
def Literal.Shows (source : String) (value : Literal) : Prop :=
  match value.kind with
  | .number | .boolean => value.span.Slices source value.value
  | .string => ∃ raw, IsStringBody raw ∧ Escape.decode raw = .ok value.value.toList ∧
      value.span.Slices source (String.ofList ('"' :: (raw ++ ['"'])))

/-- The text of an expression is read as the same expression, but for where it stands, when it is the only argument
of a call. -/
def Expr.Shows (source : String) (e : Expr) : Prop :=
  ∀ text, e.span.Slices source text → ∀ callee : String, Word.isName callee.toList →
    ∃ program call name argument, parse ("\x7b" ++ callee ++ "(" ++ text ++ ")\x7d") =
        .ok ⟨program, [.expression (.call call name [argument])]⟩ ∧ name.name = callee ∧
      argument.move e.span.start = e.move ("\x7b" ++ callee ++ "(").utf8ByteSize

namespace Node

/-- A node is a piece of the text, and its children are pieces of this piece, one behind the other. -/
structure Nests (source : String) (n : Node) : Prop where
  start_le_stop : n.span.start ≤ n.span.stop
  stop_le : n.span.stop ≤ source.utf8ByteSize
  start : IsBoundary source n.span.start
  stop : IsBoundary source n.span.stop
  inside : ∀ c ∈ n.children, n.span.start ≤ c.span.start ∧ c.span.stop ≤ n.span.stop
  order : n.children.Pairwise fun a b => a.span.stop ≤ b.span.start

/-- What a node holds is what the text reads there. -/
def Shows (source : String) : Node → Prop
  | name x => x.span.Slices source x.name
  | literal value => value.Shows source
  | expr e => e.Shows source
  | block _ | stmt _ | clause _ => True

/-- A node that stands where another does, as do its children, is placed as well as that one. -/
theorem Nests.congr {source : String} {n n' : Node} (h : n.Nests source) (hspan : n'.span = n.span)
    (hchildren : n'.children.map span = n.children.map span) : n'.Nests source := by
  have hmem : ∀ c ∈ n'.children, ∃ d ∈ n.children, d.span = c.span := by
    intro c hc
    have hspan := List.mem_map_of_mem (f := span) hc
    rw [hchildren] at hspan
    exact List.mem_map.1 hspan
  refine ⟨by rw [hspan]; exact h.start_le_stop, by rw [hspan]; exact h.stop_le, by rw [hspan]; exact h.start,
    by rw [hspan]; exact h.stop, fun c hc => ?_, ?_⟩
  · obtain ⟨d, hd, hcd⟩ := hmem c hc
    rw [hspan, ← hcd]
    exact h.inside d hd
  · have horder : (n.children.map span).Pairwise fun a b => a.stop ≤ b.start := List.pairwise_map.2 h.order
    rw [← hchildren] at horder
    exact List.pairwise_map.1 horder

end Node

end YulBackend
