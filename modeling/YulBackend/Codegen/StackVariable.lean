import YulBackend.Codegen.Fault
import YulBackend.Codegen.Names

namespace YulBackend

/-- A source variable as generated code sees it: one name for each stack slot of its type. -/
structure StackVariable where
  name : String
  type : SourceType

namespace StackVariable

def ofVariable (v : Variable) : StackVariable := { name := v.localName, type := v.type }

/-- The name of the part with this suffix. -/
def slotName (v : StackVariable) (suffix : String) : String :=
  if suffix.isEmpty then v.name else v.name ++ "_" ++ suffix

/-- The names of all parts, in stack order. -/
def slots (v : StackVariable) : List String := v.type.slotSuffixes.map v.slotName

/-- The name of one part, which the type has to have. -/
def part (v : StackVariable) (suffix : String) : Except Fault String :=
  if v.type.slotSuffixes.contains suffix then .ok (v.slotName suffix)
  else .error (.violation (.noSuchPart v.type suffix))

/-- The parts as they stand in a declaration or a call. -/
def listText (v : StackVariable) : String := ", ".intercalate v.slots

end StackVariable

end YulBackend
