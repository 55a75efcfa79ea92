namespace YulBackend

/-- Versions of the virtual machine, oldest first. -/
inductive EvmVersion
  | homestead
  | tangerineWhistle
  | spuriousDragon
  | byzantium
  | constantinople
  | petersburg
  | istanbul
  | berlin
  | london
deriving DecidableEq, Inhabited, Repr

namespace EvmVersion

def all : List EvmVersion :=
  [homestead, tangerineWhistle, spuriousDragon, byzantium, constantinople, petersburg, istanbul,
    berlin, london]

def name : EvmVersion → String
  | homestead => "homestead"
  | tangerineWhistle => "tangerineWhistle"
  | spuriousDragon => "spuriousDragon"
  | byzantium => "byzantium"
  | constantinople => "constantinople"
  | petersburg => "petersburg"
  | istanbul => "istanbul"
  | berlin => "berlin"
  | london => "london"

def ofName? (name : String) : Option EvmVersion := all.find? (·.name == name)

theorem ofName?_name (v : EvmVersion) : ofName? v.name = some v := by
  cases v <;> decide

/-- Position in the order of release. -/
def rank : EvmVersion → Nat
  | homestead => 0
  | tangerineWhistle => 1
  | spuriousDragon => 2
  | byzantium => 3
  | constantinople => 4
  | petersburg => 5
  | istanbul => 6
  | berlin => 7
  | london => 8

instance : LE EvmVersion := ⟨fun a b => a.rank ≤ b.rank⟩

instance : DecidableLE EvmVersion := fun a b => inferInstanceAs (Decidable (a.rank ≤ b.rank))

instance : LT EvmVersion := ⟨fun a b => a.rank < b.rank⟩

instance : DecidableLT EvmVersion := fun a b => inferInstanceAs (Decidable (a.rank < b.rank))

def supportsReturnData (v : EvmVersion) : Bool := byzantium ≤ v

def hasStaticCall (v : EvmVersion) : Bool := byzantium ≤ v

def hasBitwiseShifting (v : EvmVersion) : Bool := constantinople ≤ v

def hasCreate2 (v : EvmVersion) : Bool := constantinople ≤ v

def hasExtCodeHash (v : EvmVersion) : Bool := constantinople ≤ v

def hasChainId (v : EvmVersion) : Bool := istanbul ≤ v

def hasSelfBalance (v : EvmVersion) : Bool := istanbul ≤ v

def hasBaseFee (v : EvmVersion) : Bool := london ≤ v

end EvmVersion

/-- How much revert-reason text generated code carries, least first. -/
inductive RevertStrings
  | default
  | strip
  | debug
  | verboseDebug
deriving DecidableEq, Inhabited, Repr

namespace RevertStrings

def all : List RevertStrings := [default, strip, debug, verboseDebug]

def name : RevertStrings → String
  | default => "default"
  | strip => "strip"
  | debug => "debug"
  | verboseDebug => "verboseDebug"

def ofName? (name : String) : Option RevertStrings := all.find? (·.name == name)

theorem ofName?_name (r : RevertStrings) : ofName? r.name = some r := by
  cases r <;> decide

/-- Whether the compiler adds reasons of its own. -/
def includesDebugReasons : RevertStrings → Bool
  | default | strip => false
  | debug | verboseDebug => true

end RevertStrings

/-- What code is generated for: a version of the virtual machine, and how much text reverts carry. -/
structure Settings where
  evmVersion : EvmVersion := .london
  revertStrings : RevertStrings := .default
deriving DecidableEq, Inhabited, Repr

inductive TargetError
  | unknownEvmVersion (name : String)
  | unknownRevertStrings (name : String)
deriving DecidableEq, Repr

def TargetError.message : TargetError → String
  | unknownEvmVersion name => "Unknown EVM version: " ++ name
  | unknownRevertStrings name => "Unknown revert strings setting: " ++ name

def EvmVersion.ofName (name : String) : Except TargetError EvmVersion :=
  match ofName? name with
  | some v => .ok v
  | none => .error (.unknownEvmVersion name)

def RevertStrings.ofName (name : String) : Except TargetError RevertStrings :=
  match ofName? name with
  | some r => .ok r
  | none => .error (.unknownRevertStrings name)

end YulBackend
