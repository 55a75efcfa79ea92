import YulBackend.Target

namespace YulBackend

inductive Instruction
  | stop | add | mul | sub | div | sdiv | mod | smod | exp | not | lt | gt | slt | sgt | eq | isZero
  | and | or | xor | byte | shl | shr | sar | addMod | mulMod | signExtend | keccak256
  | address | balance | origin | caller | callValue | callDataLoad | callDataSize | callDataCopy
  | codeSize | codeCopy | gasPrice | extCodeSize | extCodeCopy | returnDataSize | returnDataCopy
  | extCodeHash | blockHash | coinbase | timestamp | number | difficulty | gasLimit | chainId
  | selfBalance | baseFee | pop | mLoad | mStore | mStore8 | sLoad | sStore | mSize | gas
  | log0 | log1 | log2 | log3 | log4 | create | call | callCode | «return» | delegateCall | create2
  | staticCall | revert | invalid | selfDestruct
deriving DecidableEq, Repr

/-- How an instruction is written in code, what it takes and leaves, and which version brought it. -/
structure Instruction.Signature where
  name : String
  arguments : Nat
  returns : Nat
  since : EvmVersion := .homestead

namespace Instruction

def signature : Instruction → Signature
  | stop => { name := "stop", arguments := 0, returns := 0 }
  | add => { name := "add", arguments := 2, returns := 1 }
  | mul => { name := "mul", arguments := 2, returns := 1 }
  | sub => { name := "sub", arguments := 2, returns := 1 }
  | div => { name := "div", arguments := 2, returns := 1 }
  | sdiv => { name := "sdiv", arguments := 2, returns := 1 }
  | mod => { name := "mod", arguments := 2, returns := 1 }
  | smod => { name := "smod", arguments := 2, returns := 1 }
  | exp => { name := "exp", arguments := 2, returns := 1 }
  | not => { name := "not", arguments := 1, returns := 1 }
  | lt => { name := "lt", arguments := 2, returns := 1 }
  | gt => { name := "gt", arguments := 2, returns := 1 }
  | slt => { name := "slt", arguments := 2, returns := 1 }
  | sgt => { name := "sgt", arguments := 2, returns := 1 }
  | eq => { name := "eq", arguments := 2, returns := 1 }
  | isZero => { name := "iszero", arguments := 1, returns := 1 }
  | and => { name := "and", arguments := 2, returns := 1 }
  | or => { name := "or", arguments := 2, returns := 1 }
  | xor => { name := "xor", arguments := 2, returns := 1 }
  | byte => { name := "byte", arguments := 2, returns := 1 }
  | shl => { name := "shl", arguments := 2, returns := 1, since := .constantinople }
  | shr => { name := "shr", arguments := 2, returns := 1, since := .constantinople }
  | sar => { name := "sar", arguments := 2, returns := 1, since := .constantinople }
  | addMod => { name := "addmod", arguments := 3, returns := 1 }
  | mulMod => { name := "mulmod", arguments := 3, returns := 1 }
  | signExtend => { name := "signextend", arguments := 2, returns := 1 }
  | keccak256 => { name := "keccak256", arguments := 2, returns := 1 }
  | address => { name := "address", arguments := 0, returns := 1 }
  | balance => { name := "balance", arguments := 1, returns := 1 }
  | origin => { name := "origin", arguments := 0, returns := 1 }
  | caller => { name := "caller", arguments := 0, returns := 1 }
  | callValue => { name := "callvalue", arguments := 0, returns := 1 }
  | callDataLoad => { name := "calldataload", arguments := 1, returns := 1 }
  | callDataSize => { name := "calldatasize", arguments := 0, returns := 1 }
  | callDataCopy => { name := "calldatacopy", arguments := 3, returns := 0 }
  | codeSize => { name := "codesize", arguments := 0, returns := 1 }
  | codeCopy => { name := "codecopy", arguments := 3, returns := 0 }
  | gasPrice => { name := "gasprice", arguments := 0, returns := 1 }
  | extCodeSize => { name := "extcodesize", arguments := 1, returns := 1 }
  | extCodeCopy => { name := "extcodecopy", arguments := 4, returns := 0 }
  | returnDataSize => { name := "returndatasize", arguments := 0, returns := 1, since := .byzantium }
  | returnDataCopy => { name := "returndatacopy", arguments := 3, returns := 0, since := .byzantium }
  | extCodeHash => { name := "extcodehash", arguments := 1, returns := 1, since := .constantinople }
  | blockHash => { name := "blockhash", arguments := 1, returns := 1 }
  | coinbase => { name := "coinbase", arguments := 0, returns := 1 }
  | timestamp => { name := "timestamp", arguments := 0, returns := 1 }
  | number => { name := "number", arguments := 0, returns := 1 }
  | difficulty => { name := "difficulty", arguments := 0, returns := 1 }
  | gasLimit => { name := "gaslimit", arguments := 0, returns := 1 }
  | chainId => { name := "chainid", arguments := 0, returns := 1, since := .istanbul }
  | selfBalance => { name := "selfbalance", arguments := 0, returns := 1, since := .istanbul }
  | baseFee => { name := "basefee", arguments := 0, returns := 1, since := .london }
  | pop => { name := "pop", arguments := 1, returns := 0 }
  | mLoad => { name := "mload", arguments := 1, returns := 1 }
  | mStore => { name := "mstore", arguments := 2, returns := 0 }
  | mStore8 => { name := "mstore8", arguments := 2, returns := 0 }
  | sLoad => { name := "sload", arguments := 1, returns := 1 }
  | sStore => { name := "sstore", arguments := 2, returns := 0 }
  | mSize => { name := "msize", arguments := 0, returns := 1 }
  | gas => { name := "gas", arguments := 0, returns := 1 }
  | log0 => { name := "log0", arguments := 2, returns := 0 }
  | log1 => { name := "log1", arguments := 3, returns := 0 }
  | log2 => { name := "log2", arguments := 4, returns := 0 }
  | log3 => { name := "log3", arguments := 5, returns := 0 }
  | log4 => { name := "log4", arguments := 6, returns := 0 }
  | create => { name := "create", arguments := 3, returns := 1 }
  | call => { name := "call", arguments := 7, returns := 1 }
  | callCode => { name := "callcode", arguments := 7, returns := 1 }
  | «return» => { name := "return", arguments := 2, returns := 0 }
  | delegateCall => { name := "delegatecall", arguments := 6, returns := 1 }
  | create2 => { name := "create2", arguments := 4, returns := 1, since := .constantinople }
  | staticCall => { name := "staticcall", arguments := 6, returns := 1, since := .byzantium }
  | revert => { name := "revert", arguments := 2, returns := 0, since := .byzantium }
  | invalid => { name := "invalid", arguments := 0, returns := 0 }
  | selfDestruct => { name := "selfdestruct", arguments := 1, returns := 0 }

/-- Every instruction, in the order in which a dialect lists them. -/
def all : List Instruction :=
  [stop, add, mul, sub, div, sdiv, mod, smod, exp, not, lt, gt, slt, sgt, eq, isZero,
    and, or, xor, byte, shl, shr, sar, addMod, mulMod, signExtend, keccak256,
    address, balance, origin, caller, callValue, callDataLoad, callDataSize, callDataCopy,
    codeSize, codeCopy, gasPrice, extCodeSize, extCodeCopy, returnDataSize, returnDataCopy,
    extCodeHash, blockHash, coinbase, timestamp, number, difficulty, gasLimit, chainId,
    selfBalance, baseFee, pop, mLoad, mStore, mStore8, sLoad, sStore, mSize, gas,
    log0, log1, log2, log3, log4, create, call, callCode, «return», delegateCall, create2,
    staticCall, revert, invalid, selfDestruct]

end Instruction

/-- A function that needs no definition. One that is no instruction works on the surrounding object. -/
structure Builtin where
  name : String
  parameters : Nat
  returns : Nat
  instruction : Option Instruction
deriving DecidableEq, Repr

namespace Builtin

def ofInstruction (i : Instruction) : Builtin :=
  { name := i.signature.name, parameters := i.signature.arguments, returns := i.signature.returns,
    instruction := some i }

def objectAccess : List Builtin :=
  [⟨"datasize", 1, 1, none⟩, ⟨"dataoffset", 1, 1, none⟩, ⟨"datacopy", 3, 0, none⟩,
    ⟨"setimmutable", 3, 0, none⟩, ⟨"loadimmutable", 1, 1, none⟩, ⟨"memoryguard", 1, 1, none⟩]

end Builtin

/-- The builtins of a target, in listing order. -/
structure Dialect where
  evmVersion : Option EvmVersion
  builtins : List Builtin

namespace Dialect

/-- No builtins: every call is a call of a user function. -/
def plain : Dialect := { evmVersion := none, builtins := [] }

/-- The instructions that a version has, and the functions on objects. -/
def evm (version : EvmVersion) : Dialect :=
  { evmVersion := some version
    builtins := (Instruction.all.filter (·.signature.since ≤ version)).map Builtin.ofInstruction
      ++ Builtin.objectAccess }

def builtin? (d : Dialect) (name : String) : Option Builtin := d.builtins.find? (·.name == name)

/-- The instruction that a name stands for. -/
def instruction? (d : Dialect) (name : String) : Option Instruction := do
  (← d.builtin? name).instruction

end Dialect

end YulBackend
