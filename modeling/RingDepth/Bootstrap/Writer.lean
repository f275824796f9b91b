import RingDepth.Bootstrap.Contents

/-!
# Writing bootstrap files

Packages are collected and written as a chunk once there are a hundred of them, or when the writer is
finished. A package that is not yet part of a chunk is lost if the writer is given up. A file that is
there already is grown behind its last chunk; its header is left as it is.
-/

namespace RingDepth

/-- The number of packages in a full chunk. -/
def packagesPerChunk : Nat := 100

/-- A file being written, with the frames that are to go into the next chunk and their number. -/
structure BootstrapWriter where
  file : Bytes
  pending : Bytes := []
  pendingCount : Nat := 0
  nextHeight : UInt64
  written : Nat := 0

namespace BootstrapWriter

/-- Starts a file for the blocks from one height to another. -/
def create (first last : UInt64) : BootstrapWriter where
  file := BootstrapHeader.encode { file := {}, blocks := { first, last } }
  nextHeight := first

/-- Goes on with a file that is there already. -/
def resume (bs : Bytes) : Except (Halt BootstrapError) BootstrapWriter := do
  let (count, first) ← BootstrapFile.countBlocks bs
  let nextHeight ← addCounter first (UInt64.ofNat count)
  return { file := bs, nextHeight }

/-- Goes on with a file if it is there, and starts it otherwise. -/
def start (existing : Option Bytes) (first last : UInt64) :
    Except (Halt BootstrapError) BootstrapWriter :=
  match existing with
  | some bs => resume bs
  | none => .ok (create first last)

/-- Writes the pending frames as a chunk, if there are any. -/
def flush (w : BootstrapWriter) : BootstrapWriter :=
  if w.pending.isEmpty then w
  else { w with file := w.file ++ frame w.pending, pending := [], pendingCount := 0 }

/-- Adds a package. -/
def append (w : BootstrapWriter) (p : BlockPackage) :
    Except (Halt BootstrapError) BootstrapWriter := do
  let nextHeight ← addCounter w.nextHeight 1
  let grown := { w with
    pending := w.pending ++ frame (Codec.encode p)
    pendingCount := w.pendingCount + 1
    nextHeight
    written := w.written + 1 }
  return if grown.pendingCount = packagesPerChunk then grown.flush else grown

/-- Adds packages in order. Gives the writer before the first that fails, and the failure. -/
def appendAll (w : BootstrapWriter) :
    List BlockPackage → BootstrapWriter × Except (Halt BootstrapError) Unit
  | [] => (w, .ok ())
  | p :: rest =>
    match w.append p with
    | .error e => (w, .error e)
    | .ok w => w.appendAll rest

end BootstrapWriter

end RingDepth
