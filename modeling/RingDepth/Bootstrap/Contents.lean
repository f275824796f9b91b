import RingDepth.Bootstrap.Frame

/-!
# The packages of a bootstrap file

A file is cut into chunks, and each chunk into frames. Reading goes from front to back and ends at the
first fault; what stands before the fault is read. Fewer than four bytes after the last chunk are no
fault.
-/

namespace RingDepth

/-- What was read before the end of a file or its first fault, and the number of chunks that were entered. -/
structure Contents (α : Type) where
  items : List α := []
  failure : Option BootstrapError := none
  chunks : Nat := 0

namespace Contents

variable {α : Type}

/-- Reads the frames of a chunk, of which there are at most `fuel`. -/
def ofFrames (decode : Bytes → Except BootstrapError α) : (fuel : Nat) → Bytes → Contents α
  | 0, _ => {}
  | _ + 1, [] => {}
  | fuel + 1, bs =>
    match takeFrame bs with
    | .error e => { failure := some e }
    | .ok (record, rest) =>
      match decode record with
      | .error e => { failure := some e }
      | .ok item =>
        let others := ofFrames decode fuel rest
        { others with items := item :: others.items }

/-- Reads a chunk. -/
def ofChunk (decode : Bytes → Except BootstrapError α) (chunk : Bytes) : Contents α :=
  ofFrames decode chunk.length chunk

/-- Reads chunks in order; after them comes the end of the file or a fault. -/
def ofChunks (decode : Bytes → Except BootstrapError α) (failure : Option BootstrapError) :
    List Bytes → Contents α
  | [] => { failure }
  | chunk :: rest =>
    let here := ofChunk decode chunk
    match here.failure with
    | some e => { here with failure := some e, chunks := 1 }
    | none =>
      let others := ofChunks decode failure rest
      { others with items := here.items ++ others.items, chunks := others.chunks + 1 }

/-- The items, if there was no fault. -/
def toExcept (c : Contents α) : Except BootstrapError (List α) :=
  match c.failure with
  | some e => .error e
  | none => .ok c.items

end Contents

/-- Cuts the body of a file into at most `fuel` chunks, the first of them with the given number. Also
gives the fault at which the cutting ended, if it did not reach the end. -/
def cutChunks : (fuel index : Nat) → Bytes → List Bytes × Option BootstrapError
  | 0, _, _ => ([], none)
  | fuel + 1, index, bs =>
    let size := Bytes.ofLittleEndian (bs.take 4)
    let rest := bs.drop 4
    if bs.length < 4 then ([], none)
    else if maxChunkSize < size then ([], some (.chunkTooLarge size))
    else if rest.length < size then ([], some (.truncated (.chunk index)))
    else
      let (chunks, failure) := cutChunks fuel (index + 1) (rest.drop size)
      (rest.take size :: chunks, failure)

/-- A file whose header has been read. -/
structure BootstrapFile where
  header : BootstrapHeader
  body : Bytes

namespace BootstrapFile

/-- Reads the header of a file. -/
def read (bs : Bytes) : Except BootstrapError BootstrapFile :=
  (BootstrapHeader.read bs).map fun (header, body) => { header, body }

/-- Reads the frames of a file. -/
def contents {α : Type} (decode : Bytes → Except BootstrapError α) (f : BootstrapFile) :
    Contents α :=
  let (chunks, failure) := cutChunks f.body.length 0 f.body
  Contents.ofChunks decode failure chunks

/-- Reads the packages of a file. -/
def packages (f : BootstrapFile) : Contents BlockPackage := f.contents (readRecord BlockPackage)

/-- The number of packages of a file. -/
def count (f : BootstrapFile) : Except BootstrapError Nat :=
  (f.contents Except.ok).toExcept.map List.length

/-- The number of packages of a file, and the height of the first. -/
def countBlocks (bs : Bytes) : Except BootstrapError (Nat × UInt64) := do
  let file ← read bs
  let count ← file.count
  return (count, file.header.blocks.first)

end BootstrapFile

end RingDepth
