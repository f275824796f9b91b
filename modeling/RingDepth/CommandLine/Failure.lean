import RingDepth.Bootstrap.Frame
import RingDepth.Settings
import RingDepth.Spent.Scan
import RingDepth.Store.Integrity
import RingDepth.Store.Schema

/-!
# Failures of commands

A failure is reported with its causes, from the outermost to the innermost, joined by colons. An error
whose text already names its cause is followed by the cause all the same.
-/

namespace RingDepth

/-- The texts of an error of a ledger and of its causes. -/
def LedgerError.chain (e : LedgerError) : List String :=
  e.message ::
    match e with
    | checkpoint e => [e.message]
    | storage e => [e.message]
    | _ => []

/-- The texts of an error around a bootstrap file and of its causes. -/
def BootstrapError.chain (e : BootstrapError) : List String :=
  e.message ::
    match e with
    | file e => [e.message]
    | codec e => [e.message]
    | store e => [e.message]
    | ledger e => e.chain
    | _ => []

/-- The texts of an error of a trace and of its causes. -/
def TraceError.chain (e : TraceError) : List String :=
  e.message ::
    match e with
    | store e => [e.message]
    | _ => []

/-- Why a command failed. -/
inductive CommandError where
  | settings (e : SettingsError)
  | opening (directory : String) (e : EnvironmentError)
  | unhealthy (directory : String) (faults : List HeightFault)
  | trace (e : TraceError)
  | exporting (file : String) (e : BootstrapError)
  | checkpoints (file : String) (e : CheckpointError)
  | importing (file : String) (e : BootstrapError)
  | counting (e : SpentError)
  | store (e : StoreError)

namespace CommandError

/-- The texts of the error and of its causes. -/
def chain : CommandError → List String
  | settings e => e.chain
  | opening directory e => [s!"failed to open ledger at {directory}", e.message]
  | unhealthy directory faults =>
    let reasons := "; ".intercalate (faults.map HeightFault.message)
    [s!"ledger at {directory} failed its integrity check: {reasons}"]
  | trace e => e.chain
  | exporting file e => s!"export to {file} failed" :: e.chain
  | checkpoints file e => [s!"failed to load checkpoints from {file}", e.message]
  | importing file e => s!"import of {file} failed" :: e.chain
  | counting e => [e.message]
  | store e => [e.message]

/-- The report of the error. -/
def message (e : CommandError) : String := "Error: " ++ ": ".intercalate e.chain

end CommandError

end RingDepth
