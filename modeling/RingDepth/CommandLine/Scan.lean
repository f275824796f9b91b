import RingDepth.CommandLine.Option

/-!
# Scanning the command line

The arguments in front of a command and those after it are scanned in the same way, one after the
other. An option may be followed by its value, as the next argument or behind an equals sign; its value
is read only once the next option begins or the scan ends, so that an unknown option is reported
first. After two dashes alone no options are taken.
-/

namespace RingDepth

/-- Where the value of an option comes from. -/
inductive ValueSource where
  | environment
  | argument
deriving DecidableEq, Repr

/-- An option that was given, with its value and where this comes from. -/
structure GivenOption where
  name : OptionName
  value : OptionValue
  source : ValueSource
deriving DecidableEq

/-- An option whose value has not been read. -/
inductive Pending where
  | none
  /-- The next argument is its value. -/
  | awaiting (name : OptionName)
  /-- Its value is there. -/
  | valued (name : OptionName) (value : String)
deriving DecidableEq, Repr

/-- The state of a scan: the options given so far, and the option whose value has not been read. -/
structure ScanState where
  given : List GivenOption := []
  pending : Pending := .none
deriving DecidableEq

namespace ScanState

/-- Whether an option was given. -/
def has (s : ScanState) (name : OptionName) : Bool := s.given.any fun g => g.name = name

/-- Adds an option, which may be given only once. -/
def add (s : ScanState) (name : OptionName) (value : String) (source : ValueSource) :
    Except UsageError ScanState := do
  if s.has name then
    throw .conflict
  let value ← name.kind.read value
  return { s with given := s.given ++ [{ name, value, source }] }

/-- Reads the value of the pending option. -/
def settle (s : ScanState) : Except UsageError ScanState :=
  match s.pending with
  | .none => .ok s
  | .awaiting _ => .error .emptyValue
  | .valued name value => { s with pending := .none }.add name value .argument

/-- Takes an option that stands alone. -/
def takeSwitch (s : ScanState) (name : OptionName) : Except UsageError ScanState := do
  let s ← s.settle
  match name with
  | .help => throw .helpWanted
  | .version => throw .versionWanted
  | _ => s.add name "" .argument

/-- Takes an option by its word, with the value behind an equals sign if there is one. -/
def takeWord (s : ScanState) (options : List OptionName) (word : String)
    (value : Option String) : Except UsageError ScanState := do
  match options.find? fun name => name.word = word with
  | none => throw .unknownArgument
  | some name =>
    match decide (name.kind = .switch), value with
    | true, none => s.takeSwitch name
    | true, some _ => throw .unexpectedValue
    | false, some value => (← s.settle).add name value .argument
    | false, none => return { ← s.settle with pending := .awaiting name }

/-- Takes the options whose letters stand behind one dash. -/
def takeLetters (s : ScanState) (options : List OptionName) :
    List Char → Except UsageError ScanState
  | [] => .ok s
  | letter :: rest =>
    match options.find? fun name => name.letter? = some letter with
    | none => .error .unknownArgument
    | some name => do (← s.takeSwitch name).takeLetters options rest

/-- Adds the options that variables give, unless they were given on the command line. -/
def addVariables (s : ScanState) (environment : List (String × String)) :
    List OptionName → Except UsageError ScanState
  | [] => .ok s
  | name :: rest =>
    match s.has name, name.environmentKey?.bind fun key => environment.lookup key with
    | false, some value => do (← s.add name value .environment).addVariables environment rest
    | _, _ => s.addVariables environment rest

/-- Whether two of the options given exclude each other. -/
def hasConflict (s : ScanState) : Bool :=
  s.given.any fun g => s.given.any fun h => g.name.excludes h.name

/-- Ends a scan: reads the last value, adds the variables, and checks what was given. -/
def finish (s : ScanState) (environment : List (String × String)) (options : List OptionName) :
    Except UsageError ScanState := do
  (← s.settle).addVariables environment options

end ScanState

/-- Splits the part of an argument after two dashes at its first equals sign. -/
def splitValue (cs : List Char) : String × Option String :=
  let word := String.ofList (cs.takeWhile (· ≠ '='))
  match cs.dropWhile (· ≠ '=') with
  | [] => (word, none)
  | _ :: value => (word, some (String.ofList value))

/-- Takes an argument as options or as the value of one; none if it is a word of its own. -/
def takeArgument (s : ScanState) (options : List OptionName) (argument : String) :
    Except UsageError (Option ScanState) :=
  match argument.toList with
  | '-' :: '-' :: rest =>
    let (word, value) := splitValue rest
    (s.takeWord options word value).map some
  | '-' :: letter :: rest => (s.takeLetters options (letter :: rest)).map some
  | _ =>
    match s.pending with
    | .awaiting name => .ok (some { s with pending := .valued name argument })
    | _ => .ok none

/-- Whether the next argument is the value of an option. -/
def ScanState.isAwaiting (s : ScanState) : Bool :=
  match s.pending with
  | .awaiting _ => true
  | _ => false

/-- Scans the arguments after a command. -/
def scanAfter (options : List OptionName) (s : ScanState) :
    List String → Except UsageError ScanState
  | [] => .ok s
  | argument :: rest =>
    if argument = "--" then
      if rest.isEmpty then .ok s else .error .unknownArgument
    else
      match takeArgument s options argument with
      | .error e => .error e
      | .ok (some s) => scanAfter options s rest
      | .ok none => .error .unknownArgument

/-- The answer to a request for help on commands. -/
def helpOn : List String → UsageError
  | [] => .helpWanted
  | [word] => if word = "help" ∨ (CommandName.ofWord? word).isSome then .helpWanted
    else .unknownCommand
  | _ => .unknownCommand

/-- The error for arguments after two dashes in front of a command. -/
def afterDashes : List String → Option UsageError
  | [] => none
  | word :: _ =>
    if word = "help" ∨ (CommandName.ofWord? word).isSome then some .unknownArgument
    else some .unknownCommand

/-- Scans the arguments in front of a command. Gives the command and the arguments after it, if there
is one. -/
def scanBefore (s : ScanState) :
    List String → Except UsageError (ScanState × Option (CommandName × List String))
  | [] => .ok (s, none)
  | argument :: rest =>
    if !s.isAwaiting && argument = "help" then .error (helpOn rest)
    else
      match s.isAwaiting, CommandName.ofWord? argument with
      | false, some command => .ok (s, some (command, rest))
      | _, _ =>
        if argument = "--" then
          match afterDashes rest with
          | some e => .error e
          | none => .ok (s, none)
        else
          match takeArgument s OptionName.before argument with
          | .error e => .error e
          | .ok (some s) => scanBefore s rest
          | .ok none => .error .unknownCommand

end RingDepth
