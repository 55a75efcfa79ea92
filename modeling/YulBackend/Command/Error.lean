import YulBackend.Command.Host
import YulBackend.Parser
import YulBackend.Target

namespace YulBackend.Command

/-- Why a command fails. -/
inductive CommandError
  | unreadableSettings (path : String) (fault : FileFault)
  | invalidSettings (path : String)
  | target (error : TargetError)
  | inputNotFound (path : String)
  | oneInputForOutput (found : Nat)
  | unreadable (path : String) (fault : FileFault)
  | unparsable (path : String) (error : ParseError)
  | unwritable (fault : FileFault)
  | failedStep (message : String)
  | rejected (invalid total : Nat)
deriving DecidableEq, Repr

namespace CommandError

def message : CommandError → String
  | unreadableSettings path _ => "Failed to read settings from " ++ path
  | invalidSettings path => "Invalid settings in " ++ path
  | target error => error.message
  | inputNotFound path => "Input not found: " ++ path
  | oneInputForOutput found => "--output needs exactly one input file, found " ++ toString found
  | unreadable path _ => "Failed to read " ++ path
  | unparsable path _ => "Failed to parse " ++ path
  | unwritable fault => fault.message
  | failedStep message => message
  | rejected invalid total =>
    "Validation failed for " ++ toString invalid ++ " of " ++ toString total ++ " file(s)"

/-- What lies behind the failure, if the message does not say it. -/
def cause? : CommandError → Option String
  | unreadableSettings _ fault | unreadable _ fault => some fault.message
  | invalidSettings _ => some "not settings in JSON"
  | unparsable _ error => some error.message
  | _ => none

/-- All lines of the cause are indented by four blanks. -/
def report (error : CommandError) : String :=
  let cause :=
    match error.cause? with
    | none => ""
    | some cause => "\n\nCaused by:\n    " ++ "\n    ".intercalate (cause.splitOn "\n")
  "Error: " ++ error.message ++ cause ++ "\n"

end CommandError

end YulBackend.Command
