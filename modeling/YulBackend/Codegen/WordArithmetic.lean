import YulBackend.Codegen.Code
import YulBackend.Codegen.Collector
import YulBackend.Target

namespace YulBackend.Helper

/-- The value shifted right by a constant; where the target cannot shift, it divides. -/
def shiftedRight (version : EvmVersion) (bits : Nat) : Expr :=
  if version.hasBitwiseShifting then .apply "shr" [.decimal bits, .var "value"]
  else .apply "div" [.var "value", .hexadecimal (1 <<< bits)]

/-- Logical shift right by a number of bits that is less than a word has. -/
def shiftRight (version : EvmVersion) (bits : Nat) : Helper String :=
  if bits < 256 then
    let name := "shift_right_" ++ toString bits ++ "_unsigned"
    Collecting.create name <| pure <|
      (Stmt.define name ["value"] ["newValue"]
        [.assign ["newValue"] (shiftedRight version bits)]).code
  else throw (.violation (.shiftExceedsWord bits))

/-- The next multiple of thirty-two. -/
def roundUp : Helper String :=
  let name := "round_up_to_mul_of_32"
  Collecting.create name <| pure <|
    (Stmt.define name ["value"] ["result"]
      [.assign ["result"] (.apply "and"
        [.apply "add" [.var "value", .decimal 31], .apply "not" [.decimal 31]])]).code

end YulBackend.Helper
