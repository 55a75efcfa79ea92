namespace YulBackend.Command

/-- A name with something before its ending. -/
def isSourceName (name : String) : Bool := name.endsWith ".yul" && name.length > 4

/-- Directories and files in one order by name, and a directory's files right where it stands. -/
def placesInOrder (places : List (List String)) : List (List String) :=
  places.mergeSort fun a b => (compare a b).isLE

/-- A path that ends in a slash needs no other before the names that follow. -/
def joinPath (directory : String) (names : List String) : String :=
  names.foldl (fun path name => if path.endsWith "/" then path ++ name else path ++ "/" ++ name)
    directory

/-- The paths of the input files below a directory. -/
def sourcePaths (directory : String) (places : List (List String)) : List String :=
  (placesInOrder (places.filter fun names => names.getLast?.any isSourceName)).map
    (joinPath directory)

end YulBackend.Command
