import YulBackend.Command.Run

namespace YulBackend.Command

def FileFault.ofError : IO.Error → FileFault
  | .noFileOrDirectory .. => .missing
  | .inappropriateType _ code _ =>
    if code = 21 ∨ code = -21 then .isDirectory else .notDirectory
  | .invalidArgument _ 36 _ => .nameTooLong
  | error => .other (toString error)

def attempt {α : Type} (action : IO α) : IO (Except FileFault α) := do
  match ← action.toBaseIO with
  | .ok value => return .ok value
  | .error error => return .error (.ofError error)

def fileType? (path : String) : IO (Option IO.FS.FileType) := do
  try return some (← (← IO.FS.realPath path).metadata).type
  catch _ => return none

def fileKind? (path : String) : IO (Option FileKind) := do
  match ← fileType? path with
  | some .file => return some .file
  | some .dir => return some .directory
  | _ => return none

/-- A link below a directory is not followed. -/
partial def filesOnDiskBelow (path : String) : IO (List (List String)) := do
  let mut found := #[]
  for entry in ← (← IO.FS.realPath path).readDir do
    match (← entry.path.symlinkMetadata).type with
    | .file => found := found.push [entry.fileName]
    | .dir =>
      for names in ← filesOnDiskBelow (path ++ "/" ++ entry.fileName) do
        found := found.push (entry.fileName :: names)
    | _ => pure ()
  return found.toList

def disk (coloured : Bool) : Host IO where
  coloured := coloured
  kind := fileKind?
  read path := attempt (IO.FS.readFile path)
  write path text := attempt (IO.FS.writeFile path text)
  filesBelow := filesOnDiskBelow
  timed f := do
    let start ← IO.monoNanosNow
    let value ← IO.lazyPure f
    return (value, ((← IO.monoNanosNow) - start) / 1000)

/-- The environment may ask for colours or refuse them; otherwise only a terminal has them. -/
def showsColours : IO Bool := do
  let forced := (← IO.getEnv "CLICOLOR_FORCE").any (· ≠ "0")
  let refused := (← IO.getEnv "NO_COLOR").isSome || (← IO.getEnv "CLICOLOR") == some "0"
  return forced || (!refused && (← (← IO.getStdout).isTty))

end YulBackend.Command

def main (arguments : List String) : IO UInt32 := do
  let host := YulBackend.Command.disk (← YulBackend.Command.showsColours)
  let outcome ← YulBackend.Command.run host arguments
  IO.print outcome.streams.out
  IO.eprint outcome.streams.err
  return outcome.code.toUInt32
