import YulBackend.Proofs.Token.Splits

namespace YulBackend

/-- A part of a text and the bytes it takes. -/
structure PlacedToken extends SpeltToken where
  span : Span
deriving DecidableEq, Repr

/-- What the lexer reads of a part. -/
def PlacedToken.lexeme (part : PlacedToken) : Lexeme := ⟨part.token, part.span⟩

/-- The parts that a text is made of, each where the lexer reads it. -/
structure PlacedSplit (source : String) (parts : List PlacedToken) : Prop where
  splits : Splits source.toList (parts.map (·.toSpeltToken))
  lexemes : Lexer.lexemes? 0 source.toList = some (parts.map (·.lexeme))

namespace Grammar

/-- What a node of a tree stands for. -/
inductive Symbol
  | rule (r : Rule)
  | terminal (t : Terminal)
deriving DecidableEq, Repr

/-- A node of a tree: a rule with what it was matched from, or a word. A string literal has the text between its
quotes. -/
inductive Pair
  | node (r : Rule) (span : Span) (inner : List Pair)
  | leaf (t : Terminal) (span : Span) (text : List Char)

namespace Pair

def symbol : Pair → Symbol
  | node r _ _ => .rule r
  | leaf t _ _ => .terminal t

def span : Pair → Span
  | node _ span _ => span
  | leaf _ span _ => span

/-- The nodes inside a node. -/
def inner : Pair → List Pair
  | node _ _ inner => inner
  | leaf _ _ _ => []

end Pair

/-- Whether a word of a class is a node of the tree. The statements of one keyword are nodes themselves, with nothing
inside. -/
def Terminal.isNode : Terminal → Bool
  | openBrace | closeBrace | openParen | closeParen | comma | assign | arrow => false
  | keyword .break | keyword .continue | keyword .leave => false
  | keyword _ | identifier | hexNumber | decimalNumber | stringLiteral | boolLiteral => true

/-- Whether a rule is a node of the tree. Others only gather alternatives. -/
def Rule.isNode : Rule → Bool
  | .statement | .expression | .literal => false
  | _ => true

/-- What a rule leaves that was matched from these nodes. -/
def Rule.pairs (r : Rule) (span : Span) (inner : List Pair) : List Pair :=
  if r.isNode then [.node r span inner] else inner

/-- What a part leaves. -/
def leaves (part : PlacedToken) : List Pair :=
  if part.terminal.isNode then [.leaf part.terminal part.span part.text] else []

/-- Where the first of these parts starts, or else the text ends. -/
def startOf (ending : Nat) : List PlacedToken → Nat
  | part :: _ => part.span.start
  | [] => ending

/-- In a text with this end the form matches the parts `taken` in front of the parts `rest`, up to the byte `stop`,
and leaves these nodes. Whatever matches starts with a part. A gap is skipped in front of every further form of a
sequence, so an absent form stops behind it, and in front of every further match of a repetition, if there is one. -/
inductive Matches (ending : Nat) : Form → List PlacedToken → List PlacedToken → Nat → List Pair → Prop
  | terminal (part : PlacedToken) {rest : List PlacedToken} :
    Matches ending (.terminal part.terminal) [part] rest part.span.stop (leaves part)
  | rule {r : Rule} {taken rest : List PlacedToken} {stop : Nat} {inner : List Pair} :
    Matches ending r.body taken rest stop inner →
    Matches ending (.rule r) taken rest stop (r.pairs ⟨startOf ending (taken ++ rest), stop⟩ inner)
  | sequence {first second : Form} {xs ys rest : List PlacedToken} {middle stop : Nat} {ps qs : List Pair} :
    Matches ending first xs (ys ++ rest) middle ps → Matches ending second ys rest stop qs →
    Matches ending (first ++ second) (xs ++ ys) rest stop (ps ++ qs)
  | left {first second : Form} {taken rest : List PlacedToken} {stop : Nat} {pairs : List Pair} :
    Matches ending first taken rest stop pairs → Matches ending (first <|> second) taken rest stop pairs
  | right {first second : Form} {taken rest : List PlacedToken} {stop : Nat} {pairs : List Pair} :
    Matches ending second taken rest stop pairs → Matches ending (first <|> second) taken rest stop pairs
  | absent {body : Form} {rest : List PlacedToken} :
    Matches ending (.optional body) [] rest (startOf ending rest) []
  | present {body : Form} {taken rest : List PlacedToken} {stop : Nat} {pairs : List Pair} :
    Matches ending body taken rest stop pairs → Matches ending (.optional body) taken rest stop pairs
  | none {body : Form} {rest : List PlacedToken} : Matches ending (.many body) [] rest (startOf ending rest) []
  | last {body : Form} {taken rest : List PlacedToken} {stop : Nat} {pairs : List Pair} :
    Matches ending body taken rest stop pairs → Matches ending (.many body) taken rest stop pairs
  | more {body : Form} {xs ys rest : List PlacedToken} {middle stop : Nat} {ps qs : List Pair} :
    Matches ending body xs (ys ++ rest) middle ps → ys ≠ [] → Matches ending (.many body) ys rest stop qs →
    Matches ending (.many body) (xs ++ ys) rest stop (ps ++ qs)

/-- The nodes that matching a text as a block leaves. -/
def Tree (source : String) (pairs : List Pair) : Prop :=
  ∃ parts stop, PlacedSplit source parts ∧ Matches source.utf8ByteSize Rule.block parts [] stop pairs

section

variable {ending : Nat} {f : Form} {taken rest : List PlacedToken} {stop : Nat} {pairs : List Pair}

/-- What is derived is matched, wherever it stands. -/
theorem Derives.exists_matches {classes : List Terminal} (h : Derives f classes) :
    ∀ {taken : List PlacedToken}, taken.map (·.terminal) = classes →
      ∀ rest, ∃ stop pairs, Matches ending f taken rest stop pairs := by
  induction h with
  | terminal t =>
    intro taken htaken rest
    obtain ⟨part, rfl, rfl⟩ := List.map_eq_singleton_iff.1 htaken
    exact ⟨_, _, .terminal part⟩
  | rule _ ih =>
    intro taken htaken rest
    obtain ⟨stop, inner, hbody⟩ := ih htaken rest
    exact ⟨stop, _, .rule hbody⟩
  | sequence _ _ ihFirst ihSecond =>
    intro taken htaken rest
    obtain ⟨xs, ys, rfl, hxs, hys⟩ := List.map_eq_append_iff.1 htaken
    -- A node ends where the next token starts, so the first part has to be built in front of the second.
    obtain ⟨middle, ps, hfirst⟩ := ihFirst hxs (ys ++ rest)
    obtain ⟨stop, qs, hsecond⟩ := ihSecond hys rest
    exact ⟨stop, _, .sequence hfirst hsecond⟩
  | left _ ih =>
    intro taken htaken rest
    obtain ⟨stop, pairs, hfirst⟩ := ih htaken rest
    exact ⟨stop, pairs, .left hfirst⟩
  | right _ ih =>
    intro taken htaken rest
    obtain ⟨stop, pairs, hsecond⟩ := ih htaken rest
    exact ⟨stop, pairs, .right hsecond⟩
  | absent =>
    intro taken htaken rest
    rw [List.map_eq_nil_iff.1 htaken]
    exact ⟨_, _, .absent⟩
  | present _ ih =>
    intro taken htaken rest
    obtain ⟨stop, pairs, hbody⟩ := ih htaken rest
    exact ⟨stop, pairs, .present hbody⟩
  | stop =>
    intro taken htaken rest
    rw [List.map_eq_nil_iff.1 htaken]
    exact ⟨_, _, .none⟩
  | more _ _ ihBody ihRest =>
    intro taken htaken rest
    obtain ⟨xs, ys, rfl, hxs, hys⟩ := List.map_eq_append_iff.1 htaken
    obtain ⟨middle, ps, hbody⟩ := ihBody hxs (ys ++ rest)
    by_cases hnil : ys = []
    · subst hnil
      rw [List.append_nil]
      exact ⟨middle, ps, .last hbody⟩
    · obtain ⟨stop, qs, hrest⟩ := ihRest hys rest
      exact ⟨stop, _, .more hbody hnil hrest⟩

end

/-- What may be matched: the parts that are taken, those behind them, where the match stops, and what it leaves. -/
abbrev Matching := List PlacedToken → List PlacedToken → Nat → List Pair → Prop

/-- One match behind the other. -/
inductive Repeats (ending : Nat) (body : Matching) : Matching
  | none {rest : List PlacedToken} : Repeats ending body [] rest (startOf ending rest) []
  | last {taken rest : List PlacedToken} {stop : Nat} {pairs : List Pair} :
    body taken rest stop pairs → Repeats ending body taken rest stop pairs
  | more {xs ys rest : List PlacedToken} {middle stop : Nat} {ps qs : List Pair} :
    body xs (ys ++ rest) middle ps → Repeats ending body ys rest stop qs →
    Repeats ending body (xs ++ ys) rest stop (ps ++ qs)

/-- What a form may match, once it is settled what each rule does. -/
def Form.Yields (ending : Nat) (meaning : Rule → Matching) : Form → Matching
  | terminal t, taken, _, stop, pairs =>
    ∃ part : PlacedToken, part.terminal = t ∧ taken = [part] ∧ stop = part.span.stop ∧ pairs = leaves part
  | rule r, taken, rest, stop, pairs => meaning r taken rest stop pairs
  | sequence first second, taken, rest, stop, pairs => ∃ xs ys middle ps qs, taken = xs ++ ys ∧ pairs = ps ++ qs ∧
    first.Yields ending meaning xs (ys ++ rest) middle ps ∧ second.Yields ending meaning ys rest stop qs
  | choice first second, taken, rest, stop, pairs =>
    first.Yields ending meaning taken rest stop pairs ∨ second.Yields ending meaning taken rest stop pairs
  | optional body, taken, rest, stop, pairs =>
    (taken = [] ∧ stop = startOf ending rest ∧ pairs = []) ∨ body.Yields ending meaning taken rest stop pairs
  | many body, taken, rest, stop, pairs => Repeats ending (body.Yields ending meaning) taken rest stop pairs

section

variable {ending : Nat} {meaning : Rule → Matching} {first second : Form} {taken rest : List PlacedToken}
  {stop : Nat} {pairs : List Pair}

theorem Form.yields_append : (first ++ second).Yields ending meaning taken rest stop pairs ↔
    ∃ xs ys middle ps qs, taken = xs ++ ys ∧ pairs = ps ++ qs ∧
      first.Yields ending meaning xs (ys ++ rest) middle ps ∧ second.Yields ending meaning ys rest stop qs :=
  Iff.rfl

/-- If whatever the right-hand side of a rule matches belongs to the rule, then so does all that it matches. -/
theorem Matches.yields {f : Form} (hclosed : ∀ r taken rest stop inner,
      r.body.Yields ending meaning taken rest stop inner →
      meaning r taken rest stop (r.pairs ⟨startOf ending (taken ++ rest), stop⟩ inner))
    (h : Matches ending f taken rest stop pairs) : f.Yields ending meaning taken rest stop pairs := by
  induction h with
  | terminal part => exact ⟨part, rfl, rfl, rfl, rfl⟩
  | rule _ ih => exact hclosed _ _ _ _ _ ih
  | sequence _ _ ihFirst ihSecond => exact ⟨_, _, _, _, _, rfl, rfl, ihFirst, ihSecond⟩
  | left _ ih => exact .inl ih
  | right _ ih => exact .inr ih
  | absent => exact .inl ⟨rfl, rfl, rfl⟩
  | present _ ih => exact .inr ih
  | none => exact .none
  | last _ ih => exact .last ih
  | more _ _ _ ihBody ihRest => exact .more ihBody ihRest

end

end Grammar

end YulBackend
