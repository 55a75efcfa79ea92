import YulBackend.Declaration
import YulBackend.Json

namespace YulBackend

namespace DataLocation

def ofJson? (j : Json) : Option DataLocation := do
  match ← j.choice? with
  | "Storage" => some storage
  | "Memory" => some memory
  | "Calldata" => some calldata
  | _ => none

end DataLocation

namespace Visibility

def ofJson? (j : Json) : Option Visibility := do
  match ← j.choice? with
  | "Internal" => some internal
  | "External" => some external
  | _ => none

end Visibility

namespace SourceType

/-- What the parts of a type are called, in their order, if its kind has some. -/
def partNames : String → List String
  | "Function" => ["kind", "parameters", "returns"]
  | "Array" => ["element", "length", "location"]
  | "Struct" => ["name", "location"]
  | "Mapping" => ["key", "value"]
  | _ => []

/-- A type that is nested less deep than a bound. -/
def ofJsonWithin? : Nat → Json → Option SourceType
  | 0, _ => none
  | bound + 1, j =>
    match j.choice? with
    | some "Bool" => some .bool
    | some "Address" => some .address
    | _ => do
      let (kind, content) ← j.untag?
      let c := content.record (partNames kind)
      let type (part : String) : Option SourceType := do ofJsonWithin? bound (← c.field? part)
      let types (part : String) : Option (List SourceType) := do
        (← (← c.field? part).list?).mapM (ofJsonWithin? bound)
      let location : Option DataLocation := do DataLocation.ofJson? (← c.field? "location")
      match kind with
      | "Uint" => return .uint (← c.nat?)
      | "Int" => return .int (← c.nat?)
      | "FixedBytes" => return .fixedBytes (← c.nat?)
      | "Enum" => return .enum (← c.string?)
      | "Contract" => return .contract (← c.string?)
      | "Function" =>
        return .function (← Visibility.ofJson? (← c.field? "kind")) (← types "parameters")
          (← types "returns")
      | "Bytes" => return .bytes (← DataLocation.ofJson? c)
      | "String" => return .string (← DataLocation.ofJson? c)
      | "Array" =>
        return .array (← type "element") (← (c.optional? "length").mapM Json.nat?) (← location)
      | "Struct" => return .struct (← (← c.field? "name").string?) (← location)
      | "Mapping" => return .mapping (← type "key") (← type "value")
      | _ => none

/-- A type from JSON. One without parts is the name of its kind, any other an object named for its kind. -/
def ofJson? (j : Json) : Option SourceType := ofJsonWithin? (j.depth + 1) j

end SourceType

def FunctionKind.ofJson? (j : Json) : Option FunctionKind := do
  match ← j.choice? with
  | "Function" => some .regular
  | "Constructor" => some .constructor
  | "Fallback" => some .fallback
  | "Receive" => some .receive
  | _ => none

def Mutability.ofJson? (j : Json) : Option Mutability := do
  match ← j.choice? with
  | "Mutable" => some .mutable
  | "Immutable" => some .immutable
  | "Constant" => some .constant
  | _ => none

end YulBackend
