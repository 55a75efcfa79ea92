import YulBackend.Codegen.Code
import YulBackend.Codegen.Collector
import YulBackend.Keccak
import YulBackend.Literal
import YulBackend.Target

namespace YulBackend

/-- The hash of a text's bytes. -/
def keccakOfText (text : String) : List UInt8 := Keccak.hash (utf8Bytes text)

/-- The first four bytes of the hash of a signature. -/
def selector (signature : String) : List UInt8 := (keccakOfText signature).take 4

/-- The selector at the high end of a word, as code spells it. -/
def selectorWord (signature : String) : String :=
  "0x" ++ Hex.ofBytes (selector signature) ++ String.ofList (List.replicate 56 '0')

inductive PanicCode
  | generic
  | assert
  | underOverflow
  | divisionByZero
  | enumConversionError
  | storageEncodingError
  | emptyArrayPop
  | arrayOutOfBounds
  | resourceError
  | invalidInternalFunction
deriving DecidableEq, Repr

def PanicCode.code : PanicCode → Nat
  | generic => 0x00
  | assert => 0x01
  | underOverflow => 0x11
  | divisionByZero => 0x12
  | enumConversionError => 0x21
  | storageEncodingError => 0x22
  | emptyArrayPop => 0x31
  | arrayOutOfBounds => 0x32
  | resourceError => 0x41
  | invalidInternalFunction => 0x51

/-- Splits a list into runs of `size`, the last of which may be shorter. -/
def chunks {α : Type} (size : Nat) (xs : List α) : List (List α) :=
  (List.range ((xs.length + size - 1) / size)).map fun i => (xs.drop (i * size)).take size

/-- The word whose high bytes are these, as code spells it. -/
def wordText (bytes : List UInt8) : String :=
  "0x" ++ Hex.ofBytes (bytes ++ List.replicate (wordBytes - bytes.length) 0)

/-- Reverts with a message, or with no data if there is none or the settings leave it out. -/
def revertStatements (reverts : RevertStrings) (message : String) : List Stmt :=
  let bytes := utf8Bytes message
  if !reverts.includesDebugReasons || bytes.isEmpty then
    [.perform "revert" [.decimal 0, .decimal 0]]
  else
    let position := Expr.var "reasonPos"
    let words := chunks wordBytes bytes
    [.perform "mstore" [.decimal 0, .number (selectorWord "Error(string)")],
      .perform "mstore" [.decimal 4, .hexadecimal 0x20],
      .perform "mstore"
        [.apply "add" [.decimal 4, .hexadecimal 0x20], .decimal bytes.length],
      .let "reasonPos" (.apply "add" [.decimal 4, .hexadecimal 0x40])] ++
    words.mapIdx (fun i word =>
      .perform "mstore"
        [.apply "add" [position, .hexadecimal (i * wordBytes)], .number (wordText word)]) ++
    [.perform "revert"
      [.decimal 0, .apply "add" [position, .hexadecimal (words.length * wordBytes)]]]

/-- The same as lines of code. -/
def revertText (reverts : RevertStrings) (message : String) : String :=
  "\n".intercalate ((revertStatements reverts message).map Stmt.code)

namespace Helper

/-- A function that reverts with a panic code. -/
def panic (code : PanicCode) : Helper String :=
  let name := "panic_error_0x" ++ Hex.padded 2 code.code
  Collecting.create name <| pure <|
    (Stmt.define name [] []
      [.perform "mstore" [.decimal 0, .number (selectorWord "Panic(uint256)")],
        .perform "mstore" [.decimal 4, .hexadecimal code.code],
        .perform "revert" [.decimal 0, .hexadecimal 0x24]]).code

/-- A function that reverts with a message, or with no data where the settings leave it out. -/
def revert (reverts : RevertStrings) (message : String) : Helper String :=
  let name := "revert_error_" ++ Hex.ofBytes (keccakOfText message)
  Collecting.create name <| pure <|
    (Stmt.define name [] [] (revertStatements reverts message)).code

end Helper

end YulBackend
