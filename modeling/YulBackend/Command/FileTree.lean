import YulBackend.Command.Host

namespace YulBackend.Command

/-- Files by the names on the way to them, of which there is at least one, and no two files share all. There is a
directory where there are files below it. Outside the tree there are only the directories on the way to it, in which
nothing else is found, and a device that takes every text and holds none. -/
structure FileTree where
  files : List (List String × String)

namespace FileTree

/-- The names in a path from the root of the tree. -/
def names (path : String) : List String :=
  (path.splitOn "/").filter fun name => name ≠ "" ∧ name ≠ "."

def ofList (files : List (String × String)) : FileTree :=
  ⟨files.map fun (path, text) => (names path, text)⟩

def text? (tree : FileTree) (place : List String) : Option String := tree.files.lookup place

def isDirectory (tree : FileTree) (place : List String) : Bool :=
  place = [] || tree.files.any fun (file, _) => place.isPrefixOf file && place != file

def kindAt (tree : FileTree) (place : List String) : Option FileKind :=
  if (tree.text? place).isSome then some .file
  else if tree.isDirectory place then some .directory
  else none

/-- What a path leads to. -/
inductive Place
  | inside (names : List String)
  /-- A directory on the way to the tree. -/
  | above
  | nullDevice
deriving DecidableEq, Repr

def kindOf (tree : FileTree) : Place → Option FileKind
  | .inside names => tree.kindAt names
  | .above => some .directory
  | .nullDevice => none

/-- Where a name leads from a directory, though nothing may be there. No name has more than 255
bytes. -/
def step (place : Place) (name : String) : Except FileFault Place :=
  if name = "" ∨ name = "." then .ok place
  else if name = ".." then
    match place with
    | .inside (first :: rest) => .ok (.inside (first :: rest).dropLast)
    | _ => .ok .above
  else if name.utf8ByteSize > 255 then .error .nameTooLong
  else
    match place with
    | .inside names => .ok (.inside (names ++ [name]))
    | _ => .error .missing

/-- Follows the parts of a path, each of which is taken in a directory. -/
def follow (tree : FileTree) (place : Place) : List String → Except FileFault Place
  | [] => .ok place
  | part :: rest =>
    match tree.kindOf place with
    | none => .error .missing
    | some .file => .error .notDirectory
    | some .directory => do tree.follow (← step place part) rest

/-- What a path leads to. Nothing is at an empty path, and no path has more than 4095 bytes. -/
def resolve (tree : FileTree) (path : String) : Except FileFault Place :=
  if path.isEmpty then .error .missing
  else if path.utf8ByteSize > 4095 then .error .nameTooLong
  else if path = "/dev/null" then .ok .nullDevice
  else tree.follow (if path.startsWith "/" then .above else .inside []) (path.splitOn "/")

def kind (tree : FileTree) (path : String) : Option FileKind :=
  match tree.resolve path with
  | .ok place => tree.kindOf place
  | .error _ => none

def read (tree : FileTree) (path : String) : Except FileFault String := do
  match ← tree.resolve path with
  | .nullDevice => return ""
  | .above => throw .isDirectory
  | .inside names =>
    match tree.text? names with
    | some text => return text
    | none => throw (if tree.isDirectory names then .isDirectory else .missing)

/-- The path to the directory that the last name of a path is taken in. -/
def directoryOf (path : String) : String :=
  ((path.dropEndWhile (· == '/')).dropEndWhile (· != '/')).toString ++ "."

/-- A path that ends in a slash is that of a directory, even where a file has the name before it. -/
def write (tree : FileTree) (path text : String) : Except FileFault FileTree := do
  if path.endsWith "/" then
    if path.utf8ByteSize > 4095 then throw .nameTooLong
    let _ ← tree.resolve (directoryOf path)
    throw .isDirectory
  match ← tree.resolve path with
  | .nullDevice => return tree
  | .above => throw .isDirectory
  | .inside names =>
    if tree.isDirectory names then throw .isDirectory
    return ⟨(names, text) :: tree.files.filter (·.1 ≠ names)⟩

def filesBelow (tree : FileTree) (path : String) : List (List String) :=
  match tree.resolve path with
  | .ok (.inside names) => tree.files.filterMap fun (file, _) =>
      if names.isPrefixOf file then some (file.drop names.length) else none
  | _ => []

/-- The tree as a host on which nothing takes time. -/
def host (coloured : Bool) : Host (StateM FileTree) where
  coloured := coloured
  kind path := return (← get).kind path
  read path := return (← get).read path
  write path text := do
    match (← get).write path text with
    | .ok tree => set tree; return .ok ()
    | .error fault => return .error fault
  filesBelow path := return (← get).filesBelow path
  timed f := return (f (), 0)

end FileTree

end YulBackend.Command
