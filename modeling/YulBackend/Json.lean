namespace YulBackend

/-- A JSON value. Numbers are kept as they are written, and fields keep their order and may repeat. A string is `none`
if it holds half of a surrogate pair alone, for then it stands for no text; so is the name of a field. -/
inductive Json
  | null
  | bool (value : Bool)
  | number (text : String)
  | string (text : Option String)
  | array (elements : List Json)
  | object (fields : List (Option String × Json))
deriving Inhabited

namespace Json

def str (text : String) : Json := .string (some text)

def nat (n : Nat) : Json := .number (toString n)

def strs (texts : List String) : Json := .array (texts.map str)

def obj (fields : List (String × Json)) : Json :=
  .object (fields.map fun (name, value) => (some name, value))

/-- An object with one field, named for what it holds. -/
def tagged (tag : String) (content : Json) : Json := obj [(tag, content)]

def ofOption {α : Type} (f : α → Json) (o : Option α) : Json := (o.map f).getD .null

/-- The first field of a name. -/
def field? (j : Json) (name : String) : Option Json :=
  match j with
  | .object fields => fields.lookup (some name)
  | _ => none

/-- The field of a name, unless it is missing or null. -/
def optional? (j : Json) (name : String) : Option Json :=
  match j.field? name with
  | some .null => none
  | found => found

def string? : Json → Option String
  | .string text => text
  | _ => none

def bool? : Json → Option Bool
  | .bool value => some value
  | _ => none

def nat? : Json → Option Nat
  | .number text => text.toNat?
  | _ => none

def list? : Json → Option (List Json)
  | .array elements => some elements
  | _ => none

/-- The name and the content of an object's first field. -/
def untag? : Json → Option (String × Json)
  | .object ((some tag, content) :: _) => some (tag, content)
  | _ => none

/-- The name of a choice that holds nothing: a string, or an object whose one field is null. -/
def choice? : Json → Option String
  | .string text => text
  | .object [(name, .null)] => name
  | _ => none

/-- A record by its fields, which may be given without their names in an array of just as many. -/
def record (names : List String) : Json → Json
  | .array elements =>
    if elements.length = names.length then obj (names.zip elements) else .array elements
  | j => j

mutual

/-- How deep arrays and objects are nested. -/
def depth : Json → Nat
  | .array elements => listDepth elements + 1
  | .object fields => fieldsDepth fields + 1
  | _ => 0

def listDepth : List Json → Nat
  | [] => 0
  | j :: rest => max j.depth (listDepth rest)

def fieldsDepth : List (Option String × Json) → Nat
  | [] => 0
  | (_, j) :: rest => max j.depth (fieldsDepth rest)

end

end Json

end YulBackend
