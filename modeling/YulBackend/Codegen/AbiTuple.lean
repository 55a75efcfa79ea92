import YulBackend.Codegen.Cleanup
import YulBackend.Codegen.Revert
import YulBackend.Codegen.Names

namespace YulBackend.AbiTuple

/-- Only values of one slot can be coded. -/
def check (types : List SourceType) : Except Fault Unit :=
  match types.find? fun t => !t.isValueType || t.sizeOnStack != 1 with
  | some type => .error (.unsupported (.abiCoding type))
  | none => .ok ()

def identifier (types : List SourceType) : String := "_".intercalate (types.map SourceType.identifier)

def headSize : List SourceType → Nat
  | [] => 0
  | type :: types => type.headSize + headSize types

/-- Pairs each type with the name of its value and the offset of its word, which start here. -/
def layout (offset : Nat) : List SourceType → List String → List (SourceType × String × Nat)
  | type :: types, name :: names =>
    (type, name, offset) :: layout (offset + type.headSize) types names
  | _, _ => []

/-- Stores one value, cleaned, at its place in the head. -/
def storeValue (entry : SourceType × String × Nat) : Helper Stmt := do
  let (type, name, offset) := entry
  let cleanup ← Helper.cleanup type
  return .perform "mstore"
    [.apply "add" [.var "headStart", .decimal offset], .apply cleanup [.var name]]

/-- Loads one value from its place in the head and cleans it. -/
def loadValue (entry : SourceType × String × Nat) : Helper Stmt := do
  let (type, name, offset) := entry
  let cleanup ← Helper.cleanup type
  return .assign [name]
    (.apply cleanup [.apply "calldataload" [.apply "add" [.var "headStart", .decimal offset]]])

/-- A function that takes a position and the values, writes them there and gives the end. -/
def encoder (types : List SourceType) : Helper String := do
  check types
  let name := "abi_encode_tuple_" ++ identifier types
  Collecting.create name do
    let names := numberedNames "value" types.length
    let stores ← (layout 0 types names).mapM storeValue
    let tail := Stmt.assign ["tail"]
      (.apply "add" [.var "headStart", .decimal (headSize types)])
    return (Stmt.define name ("headStart" :: names) ["tail"] (tail :: stores)).code

/-- A function that takes the bounds of the data and gives the values, unless the data is too short. -/
def decoder (reverts : RevertStrings) (types : List SourceType) : Helper String := do
  check types
  let name := "abi_decode_tuple_" ++ identifier types
  Collecting.create name do
    let names := numberedNames "value" types.length
    let revert ← Helper.revert reverts "ABI decoding: tuple data too short"
    let tooShort := Stmt.conditional {}
      (.apply "slt"
        [.apply "sub" [.var "dataEnd", .var "headStart"], .decimal (headSize types)])
      (.ofList [.perform revert []])
    let loads ← (layout 0 types names).mapM loadValue
    return (Stmt.define name ["headStart", "dataEnd"] names (tooShort :: loads)).code

end YulBackend.AbiTuple
