namespace YulBackend.Command

inductive Flag
  | json
  | verbose
  | settings
  | evmVersion
  | output
  | stats
  | colour
  | version
deriving DecidableEq, Repr

namespace Flag

def name : Flag → String
  | json => "json"
  | verbose => "verbose"
  | settings => "settings"
  | evmVersion => "evm-version"
  | output => "output"
  | stats => "stats"
  | colour => "color"
  | version => "version"

def letter? : Flag → Option Char
  | verbose => some 'v'
  | output => some 'o'
  | version => some 'V'
  | _ => none

def takesValue : Flag → Bool
  | settings | evmVersion | output => true
  | json | verbose | stats | colour | version => false

/-- The name of a file is never empty. -/
def allows : Flag → String → Bool
  | settings, value | output, value => !value.isEmpty
  | _, _ => true

end Flag

/-- A flag with its value, which is empty where the flag takes none. -/
abbrev Setting := Flag × String

/-- Whether the version of the program is asked for. -/
def asksVersion (given : List Setting) : Bool := given.any (·.1 == .version)

inductive CommandName
  | optimize
  | validate
  | settings
deriving DecidableEq, Repr

namespace CommandName

def ofText? : String → Option CommandName
  | "optimize" => some optimize
  | "validate" => some validate
  | "settings" => some settings
  | _ => none

end CommandName

/-- The flags that may stand before the command, if it is still to come, or behind it. -/
def Flag.known : Option CommandName → List Flag
  | none => [json, verbose, settings, evmVersion, version]
  | some .optimize => [json, verbose, settings, evmVersion, output, stats, colour]
  | some _ => [json, verbose, settings, evmVersion]

/-- What a word is by itself. -/
inductive Word
  /-- Flags, the last of which may wait for its value. -/
  | flags (given : List Setting) (waiting : Option Flag)
  | divider
  | operand
deriving DecidableEq, Repr

namespace Word

def ofLetters? (known : List Flag) : List Char → Option (List Setting × Option Flag)
  | [] => some ([], none)
  | letter :: rest => do
    let flag ← known.find? (·.letter? == some letter)
    if flag.takesValue then
      match rest with
      | [] => return ([], some flag)
      | '=' :: value => return ([(flag, String.ofList value)], none)
      | value => return ([(flag, String.ofList value)], none)
    else if flag = .version then return ([(flag, "")], none)
    else
      let (given, waiting) ← ofLetters? known rest
      return ((flag, "") :: given, waiting)

def ofName? (known : List Flag) (text : List Char) : Option (List Setting × Option Flag) := do
  let name := String.ofList (text.takeWhile (· ≠ '='))
  let flag ← known.find? (·.name == name)
  match flag.takesValue, text.dropWhile (· ≠ '=') with
  | true, [] => return ([], some flag)
  | true, _ :: value => return ([(flag, String.ofList value)], none)
  | false, [] => return ([(flag, "")], none)
  | false, _ :: _ => none

/-- A dash alone is an operand. -/
def ofText? (known : List Flag) (text : String) : Option Word :=
  match text.toList with
  | ['-', '-'] => some divider
  | '-' :: '-' :: name => (ofName? known name).map fun (given, waiting) => flags given waiting
  | '-' :: letter :: rest =>
    (ofLetters? known (letter :: rest)).map fun (given, waiting) => flags given waiting
  | _ => some operand

end Word

/-- A command line, piece by piece. -/
inductive Item
  | setting (setting : Setting)
  | command (name : CommandName)
  | operand (text : String)
deriving DecidableEq, Repr

namespace Item

def setting? : Item → Option Setting
  | setting s => some s
  | _ => none

def operand? : Item → Option String
  | operand text => some text
  | _ => none

/-- The flags and operands in the words of a command line. A flag is a word of its own, or one of several letters
behind a dash. Its value follows an equals sign, or stands in the next word, or fills what is left of a word of
letters. Behind two dashes alone every word is an operand. -/
def ofWords? (command : Option CommandName) : List String → Option (List Item)
  | [] => some []
  | text :: rest =>
    match Word.ofText? (Flag.known command) text, rest with
    | none, _ => none
    | some .divider, rest => if command.isSome then some (rest.map operand) else none
    | some .operand, rest =>
      match command with
      | some _ => do return operand text :: (← ofWords? command rest)
      | none => do
        let name ← CommandName.ofText? text
        return .command name :: (← ofWords? (some name) rest)
    | some (.flags given none), rest => do
      if asksVersion given then return given.map setting
      return given.map setting ++ (← ofWords? command rest)
    | some (.flags _ (some _)), [] => none
    | some (.flags given (some flag)), value :: rest =>
      if Word.ofText? (Flag.known command) value = some .operand then do
        return given.map setting ++ setting (flag, value) :: (← ofWords? command rest)
      else none

end Item

/-- What to do. -/
inductive Action
  | optimize (input : String) (output : Option String) (stats colour : Bool)
  | validate (input : String)
  | settings
deriving DecidableEq, Repr

structure Invocation where
  action : Action
  json : Bool
  verbose : Bool
  settingsFile : Option String
  evmVersion : Option String
deriving DecidableEq, Repr

/-- Reads a command with its settings, those that count before those that do not, and its operands. -/
def Action.ofParts? : CommandName → List Setting → List String → Option Action
  | .optimize, given, [input] =>
    if input.isEmpty then none
    else
      some (.optimize input (given.lookup .output) (given.lookup .stats).isSome
        (given.lookup .colour).isSome)
  | .validate, _, [input] => if input.isEmpty then none else some (.validate input)
  | .settings, _, [] => some .settings
  | _, _, _ => none

/-- No flag comes twice, and every value is allowed. -/
def admissible (given : List Setting) : Bool :=
  (given.map (·.1)).Nodup && given.all fun (flag, value) => flag.allows value

/-- What a command line asks for. -/
inductive Request
  | version
  | invocation (invocation : Invocation)
deriving DecidableEq, Repr

/-- What a command line asks for. Flags that all commands share may stand on either side of the command, once on each,
and count as they stand behind it. The flag that asks for the version stands before the command, and what follows it is
not looked at. -/
def Request.ofArguments? (arguments : List String) : Option Request := do
  let items ← Item.ofWords? none arguments
  let before := (items.takeWhile (·.setting?.isSome)).filterMap (·.setting?)
  guard (admissible before)
  if asksVersion before then return .version
  match items.dropWhile (·.setting?.isSome) with
  | .command name :: behind =>
    let after := behind.filterMap (·.setting?)
    guard (admissible after)
    let given := after ++ before
    return .invocation {
      action := ← Action.ofParts? name given (behind.filterMap (·.operand?))
      json := (given.lookup .json).isSome
      verbose := (given.lookup .verbose).isSome
      settingsFile := given.lookup .settings
      evmVersion := given.lookup .evmVersion }
  | _ => none

end YulBackend.Command
