import YulBackend.Codegen.Code
import YulBackend.Codegen.Collector

namespace YulBackend

/-- The mask that keeps the first bytes of a word. -/
def leadingByteMask (count : Nat) : String :=
  "0x" ++ String.ofList (List.replicate (2 * count) 'f' ++ List.replicate (64 - 2 * count) '0')

namespace SourceType

/-- The canonical word of a value of the type. Signed integers are meant to be as wide as those of the source language,
a whole number of bytes from one up: below eight bits there is no byte for `bits / 8 - 1` to count. -/
def cleanup (type : SourceType) (value : Expr) : Except Fault Expr :=
  match type with
  | .bool => .ok (.apply "iszero" [.apply "iszero" [value]])
  | .function .internal _ _ => .ok value
  | .function .external _ _ => .error (.unsupported (.multiSlotCleanup type))
  | .int bits =>
    if bits < 256 then .ok (.apply "signextend" [.decimal (bits / 8 - 1), value]) else .ok value
  | .fixedBytes count =>
    if count < 32 then .ok (.apply "and" [value, .number (leadingByteMask count)]) else .ok value
  | _ =>
    if type.isValueType then
      match type.valueBits? with
      | some bits =>
        if bits < 256 then .ok (.apply "and" [value, .hexadecimal ((1 <<< bits) - 1)]) else .ok value
      | none => .ok value
    else .error (.unsupported (.nonValueCleanup type))

end SourceType

/-- The function that cleans values of a type. -/
def Helper.cleanup (type : SourceType) : Helper String := do
  let cleaned ← type.cleanup (.var "value")
  let name := "cleanup_" ++ type.identifier
  Collecting.create name <| pure <|
    (Stmt.define name ["value"] ["cleaned"] [.assign ["cleaned"] cleaned]).code

end YulBackend
