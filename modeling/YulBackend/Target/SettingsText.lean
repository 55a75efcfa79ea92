import YulBackend.Json.Reader
import YulBackend.Target

namespace YulBackend.Settings

def readEvmVersion? (value : Json) : Option EvmVersion := do
  EvmVersion.ofName? (← value.choice?)

def readRevertStrings? (value : Json) : Option RevertStrings := do
  RevertStrings.ofName? (← value.choice?)

/-- The fields of an object one after the other. Every name has to be text, no known one may come
twice. -/
def ofFields? (version : Option EvmVersion) (reverts : Option RevertStrings) :
    List (Option String × Json) → Option Settings
  | [] => some { evmVersion := version.getD .london, revertStrings := reverts.getD .default }
  | (none, _) :: _ => none
  | (some name, value) :: rest =>
    if name = "evmVersion" then
      if version.isSome then none
      else do ofFields? (some (← readEvmVersion? value)) reverts rest
    else if name = "revertStrings" then
      if reverts.isSome then none
      else do ofFields? version (some (← readRevertStrings? value)) rest
    else ofFields? version reverts rest

/-- Settings as JSON: an object whose unknown fields do not count, or an array of the fields in order. What is missing
takes its default. -/
def ofJson? : Json → Option Settings
  | .object fields => ofFields? none none fields
  | .array [] => some {}
  | .array [version] => do return { evmVersion := ← readEvmVersion? version }
  | .array [version, reverts] => do
    return { evmVersion := ← readEvmVersion? version, revertStrings := ← readRevertStrings? reverts }
  | _ => none

def ofText? (text : String) : Option Settings := do ofJson? (← Json.ofText? text)

end YulBackend.Settings
