namespace YulBackend

inductive DataLocation
  | storage
  | memory
  | calldata
deriving DecidableEq, Inhabited, Repr

def DataLocation.name : DataLocation → String
  | storage => "storage"
  | memory => "memory"
  | calldata => "calldata"

inductive Visibility
  | internal
  | external
deriving DecidableEq, Inhabited, Repr

/-- Types of the source language, as far as code generation looks at them: how many stack slots a value takes, how many
of its bits count, and what helper functions are named after it. -/
inductive SourceType
  | bool
  | uint (bits : Nat)
  | int (bits : Nat)
  | address
  | fixedBytes (count : Nat)
  | enum (name : String)
  | contract (name : String)
  | function (visibility : Visibility) (parameters returns : List SourceType)
  | bytes (location : DataLocation)
  | string (location : DataLocation)
  | array (element : SourceType) (length : Option Nat) (location : DataLocation)
  | struct (name : String) (location : DataLocation)
  | mapping (key value : SourceType)
deriving Inhabited

namespace SourceType

def isValueType : SourceType → Bool
  | bool | uint _ | int _ | address | fixedBytes _ | enum _ | contract _ | function .. => true
  | bytes _ | string _ | array .. | struct .. | mapping .. => false

/-- What the parts of a value are called on the stack: an external function has an address and a
selector, call data of any length has an offset and a length, all else is one part without a name. -/
def slotSuffixes : SourceType → List String
  | function .external _ _ => ["address", "functionSelector"]
  | bytes .calldata | string .calldata | array _ none .calldata => ["offset", "length"]
  | _ => [""]

def sizeOnStack (t : SourceType) : Nat := t.slotSuffixes.length

/-- Bytes that a value takes in the head of an encoded tuple. -/
def headSize (_ : SourceType) : Nat := 32

def isSigned : SourceType → Bool
  | int _ => true
  | _ => false

/-- How many bits count in the word of a value. -/
def valueBits? : SourceType → Option Nat
  | bool => some 1
  | uint bits | int bits => some bits
  | address | contract _ => some 160
  | fixedBytes count => some (count * 8)
  | enum _ => some 8
  | _ => none

/-- The type's name as it stands in helper names, less the `t_` in front. -/
def name : SourceType → String
  | bool => "bool"
  | uint bits => "uint" ++ toString bits
  | int bits => "int" ++ toString bits
  | address => "address"
  | fixedBytes count => "bytes" ++ toString count
  | enum name => "enum_" ++ name
  | contract name => "contract_" ++ name
  | function .internal _ _ => "function_internal"
  | function .external _ _ => "function_external"
  | bytes location => "bytes_" ++ location.name
  | string location => "string_" ++ location.name
  | array element length location =>
    "array_t_" ++ element.name ++ "_" ++ (match length with | some n => toString n | none => "dyn") ++
      "_" ++ location.name
  | struct name location => "struct_" ++ name ++ "_" ++ location.name
  | mapping key value => "mapping_t_" ++ key.name ++ "_t_" ++ value.name

def identifier (t : SourceType) : String := "t_" ++ t.name

/-- Stack slots of a list of parameters or results. -/
def tupleSizeOnStack : List SourceType → Nat
  | [] => 0
  | type :: types => type.sizeOnStack + tupleSizeOnStack types

end SourceType

end YulBackend
