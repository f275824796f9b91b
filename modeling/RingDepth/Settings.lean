import RingDepth.Files.Basic
import RingDepth.LogFormat
import RingDepth.Text.Toml.Document
import RingDepth.Trace.Basic

/-!
# Settings

What all commands share, read from a TOML file. Members that are not there take their defaults, and
unknown ones are ignored.
-/

namespace RingDepth

open Text (Toml)

/-- A network; each has a ledger of its own. -/
inductive Network where
  | mainnet
  | testnet
  | stagenet
deriving DecidableEq, Repr

namespace Network

/-- The name of a network. -/
def name : Network → String
  | mainnet => "mainnet"
  | testnet => "testnet"
  | stagenet => "stagenet"

/-- The network with a name. -/
def ofName? (s : String) : Option Network :=
  [mainnet, testnet, stagenet].find? fun network => network.name == s

/-- The directory of a network below that of the data; the production network has none. -/
def subdirectory? : Network → Option String
  | mainnet => none
  | testnet => some "testnet"
  | stagenet => some "stagenet"

end Network

/-- What all commands share. -/
structure Settings where
  network : Network := .mainnet
  dataDirectory : String := "./mindepth_data"
  logFormat : LogFormat := .human
  logLevel : String := "info"
  mapSize : Nat := 17179869184
  checkpoints : Option String := none
  trace : TraceConfig := {}
deriving DecidableEq, Repr

/-- Why there are no settings. -/
inductive SettingsError where
  | file (path : String) (e : FileError)
  | malformed (path : String)
deriving DecidableEq, Repr

/-- The texts of the error and of its causes. -/
def SettingsError.chain : SettingsError → List String
  | file path e => [s!"failed to read config file {path}", e.message]
  | malformed path =>
    [s!"invalid config file {path}", "failed to parse configuration", "TOML parse error"]

namespace Settings

/-- Reads a text. -/
def text? : Toml → Option String
  | .text s => some s
  | _ => none

/-- Reads a whole number that is not negative. -/
def natural? : Toml → Option Nat
  | .integer n => if 0 ≤ n then some n.toNat else none
  | _ => none

/-- Reads a counter. -/
def counter? (t : Toml) : Option UInt64 := (natural? t).map UInt64.ofNat

/-- Reads a truth value. -/
def bool? : Toml → Option Bool
  | .bool b => some b
  | _ => none

/-- Whether a value is an empty list or table. -/
def isEmpty : Toml → Bool
  | .list items => items.isEmpty
  | .table _ members => members.isEmpty
  | _ => false

/-- Reads a choice among names: a text, or a table whose only key is the name of an empty value. -/
def choice? {α : Type} (ofName? : String → Option α) : Toml → Option α
  | .text s => ofName? s
  | .table _ [(key, value)] => if isEmpty value then ofName? key else none
  | _ => none

/-- Reads a value if it is there, and takes a default otherwise. -/
def orDefault {α : Type} (read : Toml → Option α) (default : α) : Option Toml → Option α
  | none => some default
  | some value => read value

/-- Reads the settings of traces, given the values of their four fields. -/
def traceOf? (includeReward ownerPolicy maxDepth parallel : Option Toml) : Option TraceConfig := do
  return {
    includeReward := ← orDefault bool? false includeReward
    ownerPolicy := ← orDefault (choice? OwnerPolicy.ofName?) .firstMatch ownerPolicy
    maxDepth := ← orDefault (fun t => (counter? t).map some) none maxDepth
    parallel := ← orDefault bool? false parallel }

/-- Reads the settings of traces from a table, or from a list of their fields in order. A moment in
time counts as a table without fields. -/
def trace? : Toml → Option TraceConfig
  | .table _ members =>
    traceOf? (members.lookup "include_coinbase") (members.lookup "owner_policy")
      (members.lookup "max_depth") (members.lookup "parallel")
  | .list items => traceOf? items[0]? items[1]? items[2]? items[3]?
  | .tables [] => traceOf? none none none none
  | .dateTime => some {}
  | _ => none

/-- Reads settings from the members of a table. -/
def ofMembers? (members : Toml.Members) : Option Settings := do
  return {
    network := ← orDefault (choice? Network.ofName?) .mainnet (members.lookup "network")
    dataDirectory := ← orDefault text? "./mindepth_data" (members.lookup "data_dir")
    logFormat := ← orDefault (choice? LogFormat.ofName?) .human (members.lookup "log_format")
    logLevel := ← orDefault text? "info" (members.lookup "log_level")
    mapSize := ← orDefault natural? 17179869184 (members.lookup "map_size")
    checkpoints := ← orDefault (fun t => (text? t).map some) none (members.lookup "checkpoints")
    trace := ← orDefault trace? {} (members.lookup "trace") }

/-- The settings that a text gives. -/
def parse? (s : String) : Option Settings := (Toml.parse? s).bind ofMembers?

/-- The directory of the ledger. -/
def ledgerDirectory (s : Settings) : String :=
  let base :=
    match s.network.subdirectory? with
    | some name => Path.join s.dataDirectory name
    | none => s.dataDirectory
  Path.join base "lmdb"

end Settings

end RingDepth
