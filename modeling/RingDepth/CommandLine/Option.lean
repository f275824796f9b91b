import RingDepth.Identifier
import RingDepth.LogFormat
import RingDepth.Text.Basic

/-!
# Options of the command line

Every command takes options of its own beside those that all share. An option either stands alone or
takes a value, and some take their value from a variable of the environment when they are not given.
-/

namespace RingDepth

/-- A command. -/
inductive CommandName where
  | depth
  | exportBlocks
  | importBlocks
  | analyzeSpent
deriving DecidableEq, Repr

namespace CommandName

/-- The word for a command. -/
def word : CommandName → String
  | depth => "depth"
  | exportBlocks => "export"
  | importBlocks => "import"
  | analyzeSpent => "analyze-spent"

/-- The command with a word. -/
def ofWord? (s : String) : Option CommandName :=
  [depth, exportBlocks, importBlocks, analyzeSpent].find? fun command => command.word == s

end CommandName

/-- Why a command line is not carried out. -/
inductive UsageError where
  | helpWanted
  | versionWanted
  | nothingGiven
  | noCommand
  | unknownCommand
  /-- There is no such option, or a word stands where none is taken. -/
  | unknownArgument
  | emptyValue
  | malformedValue
  /-- An option is given twice, or beside another that excludes it. -/
  | conflict
  | missingOption
  | unexpectedValue
deriving DecidableEq, Repr

/-- The text of the error. -/
def UsageError.message : UsageError → String
  | helpWanted => "usage: mindepth [options] depth|export|import|analyze-spent [options]"
  | versionWanted => "mindepth"
  | nothingGiven => "usage: mindepth [options] depth|export|import|analyze-spent [options]"
  | noCommand => "error: a command is missing"
  | unknownCommand => "error: unknown command"
  | unknownArgument => "error: unexpected argument"
  | emptyValue => "error: a value is missing"
  | malformedValue => "error: a value does not read"
  | conflict => "error: an option is repeated or excluded by another"
  | missingOption => "error: a required option is missing"
  | unexpectedValue => "error: an option takes no value"

/-- An option. -/
inductive OptionName where
  | help
  | version
  | dataDirectory
  | testnet
  | stagenet
  | logLevel
  | logFormat
  | config
  | transaction
  | height
  | includeReward
  | strictOwners
  | maxDepth
  | parallel
  | outputFile
  | blockStart
  | blockStop
  | inputFile
  | checkpoints
  | listing
  | verbose
deriving DecidableEq, Repr

/-- What an option takes. -/
inductive OptionKind where
  | switch
  /-- A path, which may not be empty. -/
  | path
  | text
  | counter
  | logFormat
  | transaction
deriving DecidableEq, Repr

/-- What was given with an option. -/
inductive OptionValue where
  | switch
  | text (value : String)
  | counter (value : UInt64)
  | logFormat (value : LogFormat)
  | transaction (value : TxHash)
deriving DecidableEq

/-- Reads the value of an option. -/
def OptionKind.read : OptionKind → String → Except UsageError OptionValue
  | switch, _ => .ok .switch
  | path, s => if s.isEmpty then .error .emptyValue else .ok (.text s)
  | text, s => .ok (.text s)
  | counter, s =>
    match Text.counter? s.toList with
    | some n => .ok (.counter n)
    | none => .error .malformedValue
  | logFormat, s => ((LogFormat.parse s).mapError fun _ => .malformedValue).map .logFormat
  | transaction, s => ((Identifier.parse s).mapError fun _ => .malformedValue).map .transaction

namespace OptionName

/-- The word for an option, after two dashes. -/
def word : OptionName → String
  | help => "help"
  | version => "version"
  | dataDirectory => "data-dir"
  | testnet => "testnet"
  | stagenet => "stagenet"
  | logLevel => "log-level"
  | logFormat => "log-format"
  | config => "config"
  | transaction => "txid"
  | height => "height"
  | includeReward => "include-coinbase"
  | strictOwners => "strict-owners"
  | maxDepth => "max-depth"
  | parallel => "parallel"
  | outputFile => "output-file"
  | blockStart => "block-start"
  | blockStop => "block-stop"
  | inputFile => "input-file"
  | checkpoints => "checkpoints"
  | listing => "input"
  | verbose => "verbose"

/-- The letter for an option, after one dash. -/
def letter? : OptionName → Option Char
  | help => some 'h'
  | version => some 'V'
  | verbose => some 'v'
  | _ => none

/-- What an option takes. -/
def kind : OptionName → OptionKind
  | dataDirectory => .path
  | logLevel => .text
  | logFormat => .logFormat
  | config => .path
  | transaction => .transaction
  | height => .counter
  | maxDepth => .counter
  | outputFile => .path
  | blockStart => .counter
  | blockStop => .counter
  | inputFile => .path
  | checkpoints => .path
  | listing => .path
  | _ => .switch

/-- The variable that gives the value of an option. -/
def environmentKey? : OptionName → Option String
  | dataDirectory => some "MINDEPTH_DATA_DIR"
  | logLevel => some "MINDEPTH_LOG_LEVEL"
  | logFormat => some "MINDEPTH_LOG_FORMAT"
  | config => some "MINDEPTH_CONFIG"
  | maxDepth => some "MINDEPTH_MAX_DEPTH"
  | checkpoints => some "MINDEPTH_CHECKPOINTS"
  | _ => none

/-- The variables that give the values of options. -/
def environmentKeys : List String :=
  [dataDirectory, logLevel, logFormat, config, maxDepth, checkpoints].filterMap environmentKey?

/-- Whether two options exclude each other. -/
def excludes : OptionName → OptionName → Bool
  | testnet, stagenet => true
  | stagenet, testnet => true
  | transaction, height => true
  | height, transaction => true
  | _, _ => false

/-- The options that all commands share. -/
def shared : List OptionName := [dataDirectory, testnet, stagenet, logLevel, logFormat, config]

/-- The options of a command. -/
def own : CommandName → List OptionName
  | .depth => [transaction, height, includeReward, strictOwners, maxDepth, parallel]
  | .exportBlocks => [outputFile, blockStart, blockStop]
  | .importBlocks => [inputFile, checkpoints]
  | .analyzeSpent => [listing, verbose]

/-- The options that may be given in front of a command. -/
def before : List OptionName := shared ++ [help, version]

/-- The options that may be given after a command. -/
def after (command : CommandName) : List OptionName := own command ++ shared ++ [help]

/-- The options without which a command cannot be carried out. -/
def required : CommandName → List OptionName
  | .exportBlocks => [outputFile]
  | .importBlocks => [inputFile]
  | _ => []

end OptionName

end RingDepth
