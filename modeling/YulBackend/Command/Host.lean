namespace YulBackend.Command

/-- Why a file cannot be read or written. -/
inductive FileFault
  | missing
  | notDirectory
  | isDirectory
  | nameTooLong
  | other (message : String)
deriving DecidableEq, Repr

def FileFault.message : FileFault → String
  | missing => "No such file or directory (os error 2)"
  | notDirectory => "Not a directory (os error 20)"
  | isDirectory => "Is a directory (os error 21)"
  | nameTooLong => "File name too long (os error 36)"
  | other message => message

inductive FileKind
  | file
  | directory
deriving DecidableEq, Repr

/-- What a command needs from the machine it runs on. Commands are written over any monad, so that the same definitions
run on a disk and on a tree of files in memory. -/
structure Host (m : Type → Type) where
  /-- Whether output is read where colours show. -/
  coloured : Bool
  kind : String → m (Option FileKind)
  read : String → m (Except FileFault String)
  write : String → String → m (Except FileFault Unit)
  /-- The files at any depth below a directory, in any order, each by the names on the way to it. -/
  filesBelow : String → m (List (List String))
  /-- A value and how many microseconds it took. -/
  timed : {α : Type} → (Unit → α) → m (α × Nat)

end YulBackend.Command
