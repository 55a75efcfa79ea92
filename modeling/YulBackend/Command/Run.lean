import YulBackend.Command.Arguments
import YulBackend.Command.Inputs
import YulBackend.Command.Session
import YulBackend.Json.Writer
import YulBackend.Optimizer.Suite
import YulBackend.Printer
import YulBackend.Target.SettingsText
import YulBackend.Text.Colour

namespace YulBackend.Command

open Session

variable {m : Type → Type} [Monad m]

def Host.paint (host : Host m) (colour : Colour) (text : String) : String :=
  if host.coloured then colour.paint text else text

def Host.paintBold (host : Host m) (colour : Colour) (text : String) : String :=
  if host.coloured then colour.paintBold text else text

/-- How the prover that decides conditions is called. -/
def proverName : String := "eval"

/-- The settings of a file, or else the defaults, with the version that the command line asks for. -/
def loadSettings (host : Host m) (invocation : Invocation) : Session m Settings := do
  let settings ←
    match invocation.settingsFile with
    | none => pure {}
    | some path =>
      match ← ask (host.read path) with
      | .error fault => throw (.unreadableSettings path fault)
      | .ok text =>
        match Settings.ofText? text with
        | some settings => pure settings
        | none => throw (.invalidSettings path)
  match invocation.evmVersion with
  | none => return settings
  | some name =>
    match EvmVersion.ofName name with
    | .ok evmVersion => return { settings with evmVersion }
    | .error error => throw (.target error)

/-- A file itself, or the sources below a directory. -/
def inputPaths (host : Host m) (input : String) : Session m (List String) := do
  match ← ask (host.kind input) with
  | some .file => return [input]
  | some .directory => return sourcePaths input (← ask (host.filesBelow input))
  | none => throw (.inputNotFound input)

def readInput (host : Host m) (path : String) : Session m String := do
  match ← ask (host.read path) with
  | .ok text => return text
  | .error fault => throw (.unreadable path fault)

/-- A title, underlined, and some lines on the run. -/
def sayHeader (host : Host m) (colour : Colour) (title : String) (lines : List String) :
    Session m Unit := do
  say (host.paintBold colour title)
  say (host.paint colour (String.ofList (List.replicate 50 '=')))
  lines.forM say
  say ""

/-- What came of a file. -/
structure FileReport where
  path : String
  steps : List StepReport
  /-- In microseconds. -/
  duration : Nat
  code : String

/-- Thousandths as a decimal, without places where there is nothing after the point. -/
def thousandths (n : Nat) : String :=
  if n % 1000 = 0 then toString (n / 1000)
  else toString (n / 1000) ++ "." ++ String.ofList ((toString (1000 + n % 1000)).toList.drop 1)

def stepJson (duration : Nat) (report : StepReport) : Json :=
  .obj [("name", .str report.name), ("duration_ms", .number (thousandths duration)),
    ("summary", Json.ofOption .str report.summary)]

def FileReport.toJson (report : FileReport) : Json :=
  .obj [("file", .str report.path), ("steps", .array (report.steps.map (stepJson report.duration))),
    ("code", .str report.code)]

/-- Every file has a suite of its own, so its report counts nothing from the files before it. -/
def optimizeFile (host : Host m) (settings : Settings) (style : PrintStyle) (path : String) :
    Session m FileReport := do
  match parse (← readInput host path) with
  | .error error => throw (.unparsable path error)
  | .ok block =>
    let suite : OptimizerSuite := { steps := [.constantConditions], collectsStatistics := true }
    let ((steps, block, failure), duration) ← ask (host.timed fun _ =>
      let (suite, block, failure) := suite.run (.evm settings.evmVersion) block
      (suite.statistics, block, failure))
    match failure with
    | some message => throw (.failedStep message)
    | none => return { path, steps, duration, code := block.print style }

def noteSteps (host : Host m) (stats : Bool) (report : FileReport) : Session m Unit :=
  report.steps.forM fun step => do
    if let some summary := step.summary then
      note (" " ++ host.paint .brightCyan (step.name ++ ":") ++ " " ++ summary)
    if stats then note ("   " ++ step.name ++ " " ++ thousandths report.duration ++ " ms")

def optimize (host : Host m) (invocation : Invocation) (settings : Settings) (input : String)
    (output : Option String) (stats colour : Bool) : Session m Unit := do
  let paths ← inputPaths host input
  if output.isSome ∧ paths.length ≠ 1 then throw (.oneInputForOutput paths.length)
  if invocation.verbose ∧ ¬ invocation.json then
    sayHeader host .brightBlue " yulir Optimiser"
      [" Input: " ++ input, " EVM version: " ++ settings.evmVersion.name,
        " Prover: " ++ proverName, " Files: " ++ toString paths.length]
  let showsColours := colour && host.coloured && output.isNone && !invocation.json
  let style := if showsColours then PrintStyle.coloured else PrintStyle.plain
  let reports ← paths.mapM (optimizeFile host settings style)
  if invocation.json then say (Json.array (reports.map (·.toJson))).pretty
  else
    match output, reports with
    | some path, report :: _ =>
      match ← ask (host.write path (report.code ++ "\n")) with
      | .error fault => throw (.unwritable fault)
      | .ok () =>
        say (" " ++ host.paintBold .brightGreen "SUCCESS:" ++ " Optimised IR saved to: " ++ path)
        noteSteps host stats report
    | _, reports =>
      reports.forM fun report => do
        if paths.length > 1 ∨ invocation.verbose then
          say (host.paint .brightYellow ("// " ++ report.path))
        say report.code
        noteSteps host stats report

/-- What is wrong with a file, if anything. -/
structure Verdict where
  path : String
  error : Option ParseError

def Verdict.toJson (verdict : Verdict) : Json :=
  .obj (
    (verdict.error.map fun error => ("error", Json.str error.message)).toList ++
      [("file", .str verdict.path), ("valid", .bool verdict.error.isNone)])

def validateFile (host : Host m) (invocation : Invocation) (path : String) : Session m Verdict := do
  match parse (← readInput host path) with
  | .ok block =>
    unless invocation.json do
      say (host.paintBold .brightGreen " VALID" ++ " " ++ path)
      if invocation.verbose then
        say ("   " ++ toString block.statements.length ++ " top-level statements")
    return { path, error := none }
  | .error error =>
    unless invocation.json do
      say (host.paintBold .brightRed " INVALID" ++ " " ++ path)
      say ("\n" ++ host.paint .brightRed "Parse Error:")
      say error.message
    return { path, error := some error }

def validate (host : Host m) (invocation : Invocation) (input : String) : Session m Unit := do
  let paths ← inputPaths host input
  if invocation.verbose ∧ ¬ invocation.json then
    sayHeader host .brightCyan " Validating IR" [" Input: " ++ input]
  let verdicts ← paths.mapM (validateFile host invocation)
  if invocation.json then say (Json.array (verdicts.map (·.toJson))).pretty
  let invalid := verdicts.countP (·.error.isSome)
  if invalid > 0 then throw (.rejected invalid paths.length)

/-- What a version can do: in words, as a field, and whether it does. -/
def capabilities (version : EvmVersion) : List (String × String × Bool) :=
  [("Bitwise shifting", "bitwise_shifting", version.hasBitwiseShifting),
    ("STATICCALL", "static_call", version.hasStaticCall),
    ("RETURNDATA", "returndata", version.supportsReturnData),
    ("CREATE2", "create2", version.hasCreate2),
    ("CHAINID", "chain_id", version.hasChainId),
    ("BASEFEE", "base_fee", version.hasBaseFee)]

def settingsJson (settings : Settings) : Json :=
  .obj (
    ("settings", .obj [("evmVersion", .str settings.evmVersion.name),
      ("revertStrings", .str settings.revertStrings.name)]) ::
    ("prover", .str proverName) ::
    (capabilities settings.evmVersion).map fun (_, field, has) => (field, .bool has))

def showSettings (host : Host m) (invocation : Invocation) (settings : Settings) :
    Session m Unit := do
  if invocation.json then say (settingsJson settings).pretty
  else
    say (host.paintBold .brightCyan " Settings")
    say (" EVM version: " ++ settings.evmVersion.name)
    say (" Revert strings: " ++ settings.revertStrings.name)
    say (" Prover: " ++ proverName)
    (capabilities settings.evmVersion).forM fun (title, _, has) =>
      say (" " ++ title ++ ": " ++ if has then host.paint .green "yes" else host.paint .red "no")

def Invocation.session (invocation : Invocation) (host : Host m) : Session m Unit := do
  let settings ← loadSettings host invocation
  match invocation.action with
  | .optimize input output stats colour =>
    optimize host invocation settings input output stats colour
  | .validate input => validate host invocation input
  | .settings => showSettings host invocation settings

/-- What the program calls itself, and its version. -/
def versionText : String := "yulir 0.1.0"

def usage : String :=
  "Usage: yulir [-V|--version] [--json] [-v|--verbose] [--settings FILE] [--evm-version VERSION] " ++
  "COMMAND\n\n" ++
  "  optimize INPUT [-o|--output FILE] [--stats] [--color]\n" ++
  "  validate INPUT\n" ++
  "  settings\n"

/-- Runs a command line. One that cannot be read ends with a code of its own. -/
def run (host : Host m) (arguments : List String) : m Outcome :=
  match Request.ofArguments? arguments with
  | none => return { code := 2, streams := { err := usage } }
  | some .version => (say versionText).finish
  | some (.invocation invocation) => (invocation.session host).finish

end YulBackend.Command
