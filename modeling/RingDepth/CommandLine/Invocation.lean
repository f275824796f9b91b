import RingDepth.CommandLine.Scan
import RingDepth.Settings
import RingDepth.Trace.Search

/-!
# Invocations

A command line that can be carried out: the options shared by all commands, and a command with its
options. The value of a shared option is the one given after the command, unless it comes from the
environment and another is given in front of the command.
-/

namespace RingDepth

/-- The options shared by all commands. -/
structure SharedOptions where
  dataDirectory : Option String := none
  testnet : Bool := false
  stagenet : Bool := false
  logLevel : Option String := none
  logFormat : Option LogFormat := none
  config : Option String := none
deriving DecidableEq

/-- The options of a search for depths. -/
structure DepthOptions where
  transaction : Option TxHash := none
  height : Option UInt64 := none
  includeReward : Bool := false
  strictOwners : Bool := false
  maxDepth : Option UInt64 := none
  parallel : Bool := false
deriving DecidableEq

/-- A command with its options. -/
inductive Command where
  | depth (options : DepthOptions)
  | exportBlocks (outputFile : String) (blockStart blockStop : UInt64)
  | importBlocks (inputFile : String) (checkpoints : Option String)
  | analyzeSpent (listing : Option String) (verbose : Bool)
deriving DecidableEq

/-- A command line that can be carried out. -/
structure Invocation where
  shared : SharedOptions
  command : Command
deriving DecidableEq

/-- Options that were given, those that count first. -/
abbrev GivenOptions := List GivenOption

namespace GivenOptions

/-- The value of an option. -/
def value? (given : GivenOptions) (name : OptionName) : Option OptionValue :=
  (given.find? fun g => g.name = name).map GivenOption.value

/-- Whether an option was given. -/
def has (given : GivenOptions) (name : OptionName) : Bool := (given.value? name).isSome

/-- The text given with an option. -/
def text? (given : GivenOptions) (name : OptionName) : Option String :=
  match given.value? name with
  | some (.text s) => some s
  | _ => none

/-- The counter given with an option. -/
def counter? (given : GivenOptions) (name : OptionName) : Option UInt64 :=
  match given.value? name with
  | some (.counter n) => some n
  | _ => none

/-- The format given with an option. -/
def logFormat? (given : GivenOptions) (name : OptionName) : Option LogFormat :=
  match given.value? name with
  | some (.logFormat format) => some format
  | _ => none

/-- The hash given with an option. -/
def transaction? (given : GivenOptions) (name : OptionName) : Option TxHash :=
  match given.value? name with
  | some (.transaction hash) => some hash
  | _ => none

/-- The options shared by all commands. -/
def shared (given : GivenOptions) : SharedOptions where
  dataDirectory := given.text? .dataDirectory
  testnet := given.has .testnet
  stagenet := given.has .stagenet
  logLevel := given.text? .logLevel
  logFormat := given.logFormat? .logFormat
  config := given.text? .config

/-- A command with its options. -/
def command (given : GivenOptions) : CommandName → Command
  | .depth => .depth {
      transaction := given.transaction? .transaction
      height := given.counter? .height
      includeReward := given.has .includeReward
      strictOwners := given.has .strictOwners
      maxDepth := given.counter? .maxDepth
      parallel := given.has .parallel }
  | .exportBlocks =>
    .exportBlocks ((given.text? .outputFile).getD "") ((given.counter? .blockStart).getD 0)
      ((given.counter? .blockStop).getD 0)
  | .importBlocks =>
    .importBlocks ((given.text? .inputFile).getD "") (given.text? .checkpoints)
  | .analyzeSpent => .analyzeSpent (given.text? .listing) (given.has .verbose)

/-- Brings together the options given before and after a command, those that count first. -/
def merge (before after : GivenOptions) : GivenOptions :=
  before.filter (fun g => g.source = .argument && (after.find? fun h => h.name = g.name).all
    fun h => h.source = .environment) ++ after ++ before

end GivenOptions

namespace Invocation

/-- Checks the options given after a command. -/
def checkAfter (command : CommandName) (s : ScanState) : Except UsageError Unit := do
  if s.hasConflict then
    throw .conflict
  if !(OptionName.required command).all s.has then
    throw .missingOption

/-- Checks the options given in front of a command. -/
def checkBefore (s : ScanState) : Except UsageError Unit := do
  if s.hasConflict then
    throw .conflict

/-- The error for a command line without a command. -/
def withoutCommand (s : ScanState) : UsageError :=
  if s.given.isEmpty then .nothingGiven else .noCommand

/-- The invocation that a command line stands for, with the variables of the environment. What stands
after the command is looked at before what stands in front of it is checked. -/
def parse (environment : List (String × String)) (arguments : List String) :
    Except UsageError Invocation := do
  let (before, found) ← scanBefore {} arguments
  match found with
  | none =>
    let before ← before.finish environment OptionName.before
    throw (withoutCommand before)
  | some (command, rest) =>
    let options := OptionName.after command
    let after ← (← scanAfter options {} rest).finish environment options
    checkAfter command after
    let before ← before.finish environment OptionName.before
    checkBefore before
    let given := GivenOptions.merge before.given after.given
    return { shared := given.shared, command := given.command command }

end Invocation

end RingDepth
