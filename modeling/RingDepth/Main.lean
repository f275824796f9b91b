import RingDepth.CommandLine.Run
import RingDepth.Files.Snapshot

/-!
# The program

Reads the files that an invocation names, carries it out on them, and writes back those that changed.
A ledger directory keeps its databases in one file, as `LedgerFile.toBytes` writes them.
-/

namespace RingDepth.Program

/-- What a file holds: databases, if it is the file of a ledger directory. -/
def entryOf (place : Place) (bytes : Bytes) : Entry :=
  if place.getLast? = some Workspace.ledgerFileName then
    match LedgerFile.ofBytes? bytes with
    | some content => .ledger content
    | none => .file bytes
  else .file bytes

/-- Reads what stands at a place; nothing if it cannot be reached. -/
def entryAt (place : Place) : IO (Option Entry) := do
  match ← (IO.FS.readBinFile (Path.ofPlace place)).toBaseIO with
  | .ok content => return some (entryOf place content.toList)
  | .error (.inappropriateType _ 21 _) => return some .directory
  | .error (.inappropriateType ..) => return none
  | .error (.noFileOrDirectory ..) => return none
  | .error e => throw e

/-- Reads what stands where a name leads from a place. -/
def loadName (t : FileTree) (place : Place) (name : String) : IO (FileTree × Place) := do
  match t.follow place name with
  | .error _ => return (t, place)
  | .ok next =>
    if (t.entry? next).isSome then
      return (t, next)
    match ← entryAt next with
    | some e => return (t.put next e, next)
    | none => return (t, next)

/-- Reads what stands on the way of a path. -/
def load (t : FileTree) (path : String) : IO FileTree := do
  let (t, _) ← (Path.names path).foldlM (fun (t, place) name => loadName t place name)
    (t, Path.start path)
  return t

/-- Reads what stands on the way of paths. -/
def loadAll (t : FileTree) (paths : List String) : IO FileTree := paths.foldlM load t

/-- Writes an entry. -/
def store (place : Place) : Entry → IO Unit
  | .directory => IO.FS.createDirAll (Path.ofPlace place)
  | .file bytes => IO.FS.writeBinFile (Path.ofPlace place) ⟨bytes.toArray⟩
  | .ledger content => IO.FS.writeBinFile (Path.ofPlace place) ⟨content.toBytes.toArray⟩
  | .sink => return

/-- Carries out an invocation on the files that it names. -/
def execute (i : Invocation) : IO CommandResult := do
  let t ← loadAll {} i.shared.config.toList
  let paths :=
    match i.shared.settings t with
    | .ok s => i.command.paths s
    | .error _ => []
  let t ← loadAll t paths
  let (w, result) := i.run { files := t }
  for (place, e) in w.files.changesFrom t do
    store place e
  return result

/-- The variables of the environment that options look at. -/
def environment : IO (List (String × String)) :=
  OptionName.environmentKeys.filterMapM fun key => do
    return (← IO.getEnv key).map fun value => (key, value)

/-- Tells why a command line is not carried out. -/
def explain (e : UsageError) : IO Unit :=
  match e with
  | .helpWanted => IO.println e.message
  | .versionWanted => IO.println e.message
  | _ => IO.eprintln e.message

end RingDepth.Program

open RingDepth RingDepth.Program in
/-- Runs the command line. The exit code is zero if the command succeeded. -/
def main (arguments : List String) : IO UInt32 := do
  match Invocation.parse (← environment) arguments with
  | .error e =>
    explain e
    return 1
  | .ok i =>
    match ← execute i with
    | .ok output =>
      IO.print output
      return 0
    | .error e =>
      IO.eprintln (e.message CommandError.message)
      return 1
