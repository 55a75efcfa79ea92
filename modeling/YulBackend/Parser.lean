import YulBackend.Token.Lexer

namespace YulBackend

inductive ParseError
  | malformed
  | invalidEscape (escape : String)
deriving DecidableEq, Repr

namespace ParseError

def message : ParseError → String
  | malformed => "Syntax error"
  | invalidEscape escape => "Invalid escape sequence in string literal: " ++ escape

end ParseError

namespace Parser

/-- One or more names with commas between them. -/
def names? : List Lexeme → Option (List Identifier × List Lexeme)
  | ⟨.identifier name, span⟩ :: ⟨.comma, _⟩ :: rest => do
    let (names, rest) ← names? rest
    return (⟨span, name⟩ :: names, rest)
  | ⟨.identifier name, span⟩ :: rest => some ([⟨span, name⟩], rest)
  | _ => none

/-- The parameters of a function and the parenthesis that closes them. -/
def parameters? : List Lexeme → Option (List Identifier × List Lexeme)
  | ⟨.closeParen, _⟩ :: rest => some ([], rest)
  | input => do
    let (names, rest) ← names? input
    match rest with
    | ⟨.closeParen, _⟩ :: rest => return (names, rest)
    | _ => none

/-- The return variables of a function, which an arrow announces. -/
def returns? : List Lexeme → Option (List Identifier × List Lexeme)
  | ⟨.arrow, _⟩ :: rest => names? rest
  | input => some ([], input)

mutual

def expr? : Nat → List Lexeme → Option (Expr × List Lexeme)
  | 0, _ => none
  | fuel + 1, input =>
    match input with
    | ⟨.identifier name, span⟩ :: ⟨.openParen, _⟩ :: rest => do
      let (arguments, stop, rest) ← arguments? fuel rest
      return (.call ⟨span.start, stop⟩ ⟨span, name⟩ arguments, rest)
    | ⟨.identifier name, span⟩ :: rest => some (.identifier ⟨span, name⟩, rest)
    | lexeme :: rest => lexeme.literal?.map (.literal ·, rest)
    | [] => none

/-- The arguments of a call and the end of the parenthesis that closes them. -/
def arguments? : Nat → List Lexeme → Option (List Expr × Nat × List Lexeme)
  | 0, _ => none
  | fuel + 1, input =>
    match input with
    | ⟨.closeParen, span⟩ :: rest => some ([], span.stop, rest)
    | input => do
      let (first, rest) ← expr? fuel input
      let (others, stop, rest) ← moreArguments? fuel rest
      return (first :: others, stop, rest)

def moreArguments? : Nat → List Lexeme → Option (List Expr × Nat × List Lexeme)
  | 0, _ => none
  | fuel + 1, input =>
    match input with
    | ⟨.closeParen, span⟩ :: rest => some ([], span.stop, rest)
    | ⟨.comma, _⟩ :: rest => do
      let (next, rest) ← expr? fuel rest
      let (others, stop, rest) ← moreArguments? fuel rest
      return (next :: others, stop, rest)
    | _ => none

end

/-- A declaration of these names. An initialiser that is a bare name joins the declared names. -/
def declaration (span : Span) (names : List Identifier) : Option Expr → Stmt
  | some (.identifier name) => .declaration span (names ++ [name]) none
  | value => .declaration span names value

/-- Where a construct ends that an optional part could have continued: at the next lexeme. -/
def openEnd? : List Lexeme → Option Nat
  | next :: _ => some next.span.start
  | [] => none

/-- Where a `switch` ends: with its default clause, or else where a further clause could have begun. -/
def switchEnd? (cases : List Case) (rest : List Lexeme) : Option Nat :=
  match cases.getLast? with
  | none => none
  | some ⟨_, some _, _⟩ => openEnd? rest
  | some ⟨span, none, _⟩ => some span.stop

mutual

def stmt? : Nat → List Lexeme → Option (Stmt × List Lexeme)
  | 0, _ => none
  | fuel + 1, input =>
    match input with
    | ⟨.openBrace, _⟩ :: _ => do
      let (body, rest) ← block? fuel input
      return (.block body, rest)
    | ⟨.keyword .function, opening⟩ :: ⟨.identifier name, _⟩ :: ⟨.openParen, _⟩ :: rest => do
      let (parameters, rest) ← parameters? rest
      let (returns, rest) ← returns? rest
      let (body, rest) ← block? fuel rest
      return (.function ⟨opening.start, body.span.stop⟩ name parameters returns body, rest)
    | ⟨.keyword .let, opening⟩ :: rest => do
      let (names, rest) ← names? rest
      match rest with
      | ⟨.assign, _⟩ :: rest =>
        let (value, rest) ← expr? fuel rest
        return (declaration ⟨opening.start, value.span.stop⟩ names (some value), rest)
      | _ =>
        let stop ← openEnd? rest
        return (declaration ⟨opening.start, stop⟩ names none, rest)
    | ⟨.keyword .if, opening⟩ :: rest => do
      let (condition, rest) ← expr? fuel rest
      let (body, rest) ← block? fuel rest
      return (.conditional ⟨opening.start, body.span.stop⟩ condition body, rest)
    | ⟨.keyword .switch, opening⟩ :: rest => do
      let (scrutinee, rest) ← expr? fuel rest
      let (cases, rest) ← cases? fuel rest
      let stop ← switchEnd? cases rest
      return (.switch ⟨opening.start, stop⟩ scrutinee cases, rest)
    | ⟨.keyword .for, opening⟩ :: rest => do
      let (pre, rest) ← block? fuel rest
      let (condition, rest) ← expr? fuel rest
      let (post, rest) ← block? fuel rest
      let (body, rest) ← block? fuel rest
      return (.loop ⟨opening.start, body.span.stop⟩ pre condition post body, rest)
    | ⟨.keyword .break, span⟩ :: rest => some (.break span, rest)
    | ⟨.keyword .continue, span⟩ :: rest => some (.continue span, rest)
    | ⟨.keyword .leave, span⟩ :: rest => some (.leave span, rest)
    | ⟨.identifier _, _⟩ :: ⟨.openParen, _⟩ :: _ => do
      let (call, rest) ← expr? fuel input
      return (.expression call, rest)
    | ⟨.identifier _, opening⟩ :: _ => do
      let (targets, rest) ← names? input
      match rest with
      | ⟨.assign, _⟩ :: rest =>
        let (value, rest) ← expr? fuel rest
        return (.assignment ⟨opening.start, value.span.stop⟩ targets value, rest)
      | _ => none
    | _ => none

def block? : Nat → List Lexeme → Option (Block × List Lexeme)
  | 0, _ => none
  | fuel + 1, input =>
    match input with
    | ⟨.openBrace, opening⟩ :: rest => do
      let (statements, stop, rest) ← stmts? fuel rest
      return (⟨⟨opening.start, stop⟩, statements⟩, rest)
    | _ => none

/-- Statements up to a closing brace, and the end of that brace. -/
def stmts? : Nat → List Lexeme → Option (List Stmt × Nat × List Lexeme)
  | 0, _ => none
  | fuel + 1, input =>
    match input with
    | ⟨.closeBrace, span⟩ :: rest => some ([], span.stop, rest)
    | input => do
      let (first, rest) ← stmt? fuel input
      let (others, stop, rest) ← stmts? fuel rest
      return (first :: others, stop, rest)

/-- The clauses of a `switch`: any number of cases and then at most one default. -/
def cases? : Nat → List Lexeme → Option (List Case × List Lexeme)
  | 0, _ => none
  | fuel + 1, input =>
    match input with
    | ⟨.keyword .default, opening⟩ :: rest => do
      let (body, rest) ← block? fuel rest
      return ([⟨⟨opening.start, body.span.stop⟩, none, body⟩], rest)
    | ⟨.keyword .case, opening⟩ :: lexeme :: rest => do
      let value ← lexeme.literal?
      let (body, rest) ← block? fuel rest
      let (others, rest) ← cases? fuel rest
      return (⟨⟨opening.start, body.span.stop⟩, some value, body⟩ :: others, rest)
    | _ => some ([], input)

end

/-- The block that these lexemes make up, all of them. The grammar needs no more than two tokens to choose, so each
function reads one construct off the front of the lexemes. The number that they recurse on bounds the nesting, and
starts above anything that so many lexemes can hold. -/
def program? (lexemes : List Lexeme) : Option Block := do
  match ← block? (2 * lexemes.length + 2) lexemes with
  | (block, []) => return block
  | _ => none

end Parser

/-- Reads a program. Only where the grammar accepts the text does an invalid escape count, and then
the first one is the error. -/
def parse (source : String) : Except ParseError Block :=
  match Lexer.lexemes? 0 source.toList with
  | none => .error .malformed
  | some lexemes =>
    match Parser.program? lexemes with
    | none => .error .malformed
    | some block =>
      match lexemes.findSome? (·.token.fault?) with
      | some escape => .error (.invalidEscape escape)
      | none => .ok block

/-- Whether a text is a program. -/
def accepts (source : String) : Bool := (parse source).isOk

end YulBackend
