import YulBackend.Command.Error

namespace YulBackend.Command

/-- The texts on the two output streams. -/
structure Streams where
  out : String := ""
  err : String := ""
deriving DecidableEq, Repr

/-- A run of a command: it may fail, and what it has printed by then stays printed. -/
abbrev Session (m : Type → Type) := ExceptT CommandError (StateT Streams m)

namespace Session

variable {m : Type → Type} [Monad m]

/-- Prints a line. -/
def say (line : String) : Session m Unit :=
  modify fun streams => { streams with out := streams.out ++ line ++ "\n" }

/-- Prints a line where it is not taken for a result. -/
def note (line : String) : Session m Unit :=
  modify fun streams => { streams with err := streams.err ++ line ++ "\n" }

def ask {α : Type} (question : m α) : Session m α := liftM question

end Session

/-- What a run ends with. -/
structure Outcome where
  code : Nat
  streams : Streams
deriving DecidableEq, Repr

/-- A failure is reported behind all that was printed. -/
def Session.finish {m : Type → Type} [Monad m] (session : Session m Unit) : m Outcome := do
  let (result, streams) ← session.run.run {}
  match result with
  | .ok () => return { code := 0, streams }
  | .error error =>
    return { code := 1, streams := { streams with err := streams.err ++ error.report } }

end YulBackend.Command
