import RingDepth.Bootstrap.Transfer
import RingDepth.Files.Tree

/-!
# Bootstrap files in a tree of files

Reading, growing and importing the bootstrap file at a path. A writer makes the directories above its
file. Once a writer is open its file is there, with all the chunks that were written, whatever fails
after that.
-/

namespace RingDepth

namespace BootstrapFile

/-- The bytes of the file at a path. -/
def bytesAt (t : FileTree) (path : String) : Except BootstrapError Bytes :=
  (t.readBytes path).mapError BootstrapError.file

/-- Reads the header of the file at a path. -/
def readAt (t : FileTree) (path : String) : Except BootstrapError BootstrapFile := do
  read (← bytesAt t path)

/-- The number of packages of the file at a path, and the height of the first. -/
def countBlocksAt (t : FileTree) (path : String) : Except BootstrapError (Nat × UInt64) := do
  countBlocks (← bytesAt t path)

end BootstrapFile

namespace BootstrapWriter

/-- Makes the directories above the place of a path. -/
def makeParent (t : FileTree) (path : String) : FileTree × Except BootstrapError Unit :=
  match Path.parent? path with
  | none => (t, .ok ())
  | some parent =>
    if t.contains parent && !t.isDirectory parent then (t, .error (.notDirectory parent))
    else
      let (t, result) := t.makeDirectories parent
      (t, result.mapError BootstrapError.file)

/-- Replaces the bytes of a file that is there. -/
def saveBytes (t : FileTree) (path : String) (bytes : Bytes) : FileTree :=
  match t.resolve path with
  | .ok place => t.overwrite place bytes
  | .error _ => t

/-- Keeps what a writer has written. -/
def saveAt (w : BootstrapWriter) (t : FileTree) (path : String) : FileTree :=
  saveBytes t path w.file

/-- Starts the file at a path, where nothing is. -/
def createAt (t : FileTree) (path : String) (first last : UInt64) :
    Except BootstrapError (FileTree × BootstrapWriter) := do
  let w := create first last
  let t ← (t.writeBytes path w.file).mapError BootstrapError.file
  return (t, w)

/-- Goes on with the file at a path if it is there, and starts it otherwise. -/
def openAt (t : FileTree) (path : String) (first last : UInt64) :
    FileTree × Except (Halt BootstrapError) BootstrapWriter :=
  match makeParent t path with
  | (t, .error e) => (t, .error (.failure e))
  | (t, .ok ()) =>
    if t.contains path then
      match BootstrapFile.bytesAt t path with
      | .error e => (t, .error (.failure e))
      | .ok bs => (t, resume bs)
    else
      match createAt t path first last with
      | .error e => (t, .error (.failure e))
      | .ok (t, w) => (t, .ok w)

/-- Adds packages to the file at a path, and finishes it. Gives the height of the next block before
and after, and the number of packages added. -/
def addAt (t : FileTree) (path : String) (first last : UInt64) (packages : List BlockPackage) :
    FileTree × Except (Halt BootstrapError) (UInt64 × UInt64 × Nat) :=
  match openAt t path first last with
  | (t, .error e) => (t, .error e)
  | (t, .ok w) =>
    match w.appendAll packages with
    | (v, .error e) => (v.saveAt t path, .error e)
    | (v, .ok ()) => (v.flush.saveAt t path, .ok (w.nextHeight, v.nextHeight, v.written))

end BootstrapWriter

/-- Writes the blocks of a ledger to the file at a path, from a height to another one or to the last
block. -/
def Export.toPath {σ : Type} [Store σ] (s : σ) (t : FileTree) (path : String)
    (start stop : UInt64) : FileTree × Except (Halt BootstrapError) ExportSummary :=
  match lastHeight s stop with
  | .error e => (t, .error (.failure e))
  | .ok last =>
    match BootstrapWriter.openAt t path start last with
    | (t, .error e) => (t, .error e)
    | (t, .ok w) =>
      let (bytes, result) := run s w start last
      (BootstrapWriter.saveBytes t path bytes, result)

/-- Appends the packages of the file at a path to a ledger. -/
def Import.ofPath {σ : Type} [Store σ] (l : Ledger σ) (t : FileTree) (path : String) :
    Ledger σ × Except (Halt BootstrapError) ImportSummary :=
  match BootstrapFile.bytesAt t path with
  | .error e => (l, .error (.failure e))
  | .ok bs => run l bs

end RingDepth
