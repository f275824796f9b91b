import RingDepth.Bootstrap.InTree
import RingDepth.Checkpoints.Listing
import RingDepth.CommandLine.Failure
import RingDepth.CommandLine.Invocation
import RingDepth.Files.Tree
import RingDepth.Settings
import RingDepth.Spent.Analysis
import RingDepth.Spent.Scan
import RingDepth.Trace.Report
import RingDepth.Workspace

/-!
# Carrying out commands

A command is carried out on a workspace. It reads settings, checkpoints and listings of spent outputs from files, of
which only that of the checkpoints may be missing. It opens the ledger of the chosen network, does its work, and
closes the ledger again. All but an import open it for reading, and look for damage first. The output
is written as a whole when the command succeeds.
-/

namespace RingDepth

/-- Reads settings from the file at a path. -/
def Settings.readAt (t : FileTree) (path : String) : Except SettingsError Settings := do
  let text ← (t.readText path).mapError fun e => .file path e
  match Settings.parse? text with
  | some settings => return settings
  | none => throw (.malformed path)

/-- Adds the checkpoints of the file at a path, if there is one. -/
def Checkpoints.loadAt (c : Checkpoints) (t : FileTree) (path : String) :
    Checkpoints × Except CheckpointError Nat :=
  if t.contains path then
    match t.readText path with
    | .error e => (c, .error (.file e))
    | .ok text => c.load text
  else (c, .ok 0)

/-- The text of the listing at a path. -/
def SpentCounts.textAt (t : FileTree) (path : String) : Except SpentError String :=
  (t.readText path).mapError fun e => .file path e

/-- Reads the listing of spent outputs at a path. -/
def SpentCounts.readAt (t : FileTree) (path : String) : Except (Halt SpentError) SpentCounts := do
  SpentCounts.parse (← textAt t path)

/-- What a command writes, or why it fails. -/
abbrev CommandResult := Except (Halt CommandError) String

namespace SharedOptions

/-- The network, unless no option chooses one. -/
def network? (o : SharedOptions) : Option Network :=
  if o.testnet then some .testnet else if o.stagenet then some .stagenet else none

/-- Replaces the settings for which there are options. -/
def override (o : SharedOptions) (s : Settings) : Settings :=
  { s with
    network := o.network?.getD s.network
    dataDirectory := o.dataDirectory.getD s.dataDirectory
    logLevel := o.logLevel.getD s.logLevel
    logFormat := o.logFormat.getD s.logFormat }

/-- The settings of the file that is named, or the default ones, with the options on top. -/
def settings (o : SharedOptions) (t : FileTree) : Except SettingsError Settings :=
  match o.config with
  | some path => (Settings.readAt t path).map o.override
  | none => .ok (o.override {})

end SharedOptions

namespace DepthOptions

/-- Where a run starts: at a transaction, or at the block of a height, by default the first. -/
def start (o : DepthOptions) : StartPoint :=
  match o.transaction with
  | some hash => .transaction hash
  | none => .block (o.height.getD 0)

/-- Puts the options on top of the settings of traces. -/
def override (o : DepthOptions) (c : TraceConfig) : TraceConfig where
  includeReward := c.includeReward || o.includeReward
  ownerPolicy := if o.strictOwners then .rejectAmbiguous else c.ownerPolicy
  maxDepth := o.maxDepth <|> c.maxDepth
  parallel := c.parallel || o.parallel

/-- The report on the depths of the transactions from which a run starts. -/
def run (o : DepthOptions) (c : TraceConfig) (e : Environment) : Except TraceError String := do
  let r := Reader.ofStore e
  let c := o.override c
  let hashes ← o.start.transactions r c.includeReward
  let outcomes ← traceAll r c hashes
  return ((DepthReport.ofOutcomes? outcomes).map fun report => report.toText ++ "\n").getD ""

end DepthOptions

namespace SpentReport

/-- The report, after the lines of all amounts if they are wanted. -/
def output (r : SpentReport) (verbose : Bool) : String :=
  let amounts := if verbose then r.amounts.map AmountUsage.toText else []
  String.join ((amounts ++ [r.toText]).map fun line => line ++ "\n")

end SpentReport

namespace Command

/-- The numbers of spent outputs, by a listing or by the ledger itself. -/
def countSpent (t : FileTree) (e : Environment) :
    Option String → Except (Halt SpentError) SpentCounts
  | some path => SpentCounts.readAt t path
  | none => SpentCounts.scan (Reader.ofStore e)

/-- Reports which outputs are known to be spent. -/
def runAnalyzeSpent (t : FileTree) (e : Environment) (listing : Option String) (verbose : Bool) :
    CommandResult := do
  let counts ← Halt.within CommandError.counting (countSpent t e listing)
  let report ← Halt.within CommandError.store (SpentReport.analyze e counts)
  return report.output verbose

/-- Runs a part of a command with the ledger open for reading, unless it is damaged. -/
def withLedger (w : Workspace) (s : Settings)
    (f : Environment → FileTree → FileTree × CommandResult) : Workspace × CommandResult :=
  let directory := s.ledgerDirectory
  match w.openReadOnly directory with
  | (w, .error e) => (w, .error (.failure (.opening directory e)))
  | (w, .ok h) =>
    let e := (w.environment h).environment
    let report := e.tables.checkIntegrity
    if report.isHealthy then
      let (files, result) := f e w.files
      ({ w with files }.close h, result)
    else (w.close h, .error (.failure (.unhealthy directory report.faults)))

/-- Loads the checkpoints that an import has to meet. -/
def loadCheckpoints (t : FileTree) : Option String → Except CommandError Checkpoints
  | none => .ok {}
  | some path =>
    match Checkpoints.loadAt {} t path with
    | (_, .error e) => .error (.checkpoints path e)
    | (c, .ok _) => .ok c

/-- Appends the blocks of a file to the ledger. Those before a failure stay in it. -/
def runImport (w : Workspace) (s : Settings) (inputFile : String) (checkpoints : Option String) :
    Workspace × CommandResult :=
  match loadCheckpoints w.files (checkpoints <|> s.checkpoints) with
  | .error e => (w, .error (.failure e))
  | .ok c =>
    let directory := s.ledgerDirectory
    match w.openLedger directory s.mapSize with
    | (w, .error e) => (w, .error (.failure (.opening directory e)))
    | (w, .ok h) =>
      let ledger : Ledger MappedEnvironment := { store := w.environment h, checkpoints := c }
      let (ledger, result) := Import.ofPath ledger w.files inputFile
      ((w.save h ledger.store).close h,
        (Halt.within (CommandError.importing inputFile) result).map fun _ => "")

/-- Carries out a command. -/
def run (w : Workspace) (s : Settings) : Command → Workspace × CommandResult
  | depth o =>
    withLedger w s fun e files =>
      (files, ((o.run s.trace e).mapError CommandError.trace : Except CommandError String))
  | exportBlocks outputFile blockStart blockStop =>
    withLedger w s fun e files =>
      let (files, result) := Export.toPath e files outputFile blockStart blockStop
      (files, (Halt.within (CommandError.exporting outputFile) result).map fun _ => "")
  | importBlocks inputFile checkpoints => runImport w s inputFile checkpoints
  | analyzeSpent listing verbose =>
    withLedger w s fun e files => (files, runAnalyzeSpent files e listing verbose)

end Command

/-- The paths of the files that a command reads or writes. -/
def Command.paths (s : Settings) (command : Command) : List String :=
  let named :=
    match command with
    | depth _ => []
    | exportBlocks outputFile _ _ => [outputFile]
    | importBlocks inputFile checkpoints =>
      inputFile :: (checkpoints <|> s.checkpoints).toList
    | analyzeSpent listing _ => listing.toList
  Path.join s.ledgerDirectory Workspace.ledgerFileName ::
    Path.join s.ledgerDirectory Workspace.lockFileName :: named

/-- Carries out an invocation. -/
def Invocation.run (w : Workspace) (i : Invocation) : Workspace × CommandResult :=
  match i.shared.settings w.files with
  | .error e => (w, .error (.failure (.settings e)))
  | .ok s => i.command.run w s

end RingDepth
