import RingDepth.Files.Basic
import RingDepth.Ledger.Basic

/-!
# Bootstrap files

A bootstrap file carries blocks with their transactions from one ledger to another. It starts with a
magic number and a header of fixed size; chunks follow. A chunk is preceded by its length and holds
packages, each of them framed by its own length. Lengths have four bytes.
-/

namespace RingDepth

/-- What a file ends in the middle of. -/
inductive Truncation where
  | magic
  | header
  | chunk (index : Nat)
  | frameLength
  | frame
deriving DecidableEq, Repr

/-- The truncation in words. -/
def Truncation.message : Truncation → String
  | magic => "missing magic"
  | header => "short header"
  | chunk index => s!"chunk {index} is short"
  | frameLength => "missing length prefix"
  | frame => "framed record runs past its buffer"

/-- The greatest size of a chunk that is read. -/
def maxChunkSize : Nat := 64 * 1024 * 1024

/-- Why a bootstrap file could not be read, written or imported. -/
inductive BootstrapError where
  | file (e : FileError)
  /-- The path of the directory for the file leads to a file. -/
  | notDirectory (path : String)
  | badMagic (found : UInt32)
  /-- The header states another size. -/
  | headerSize (found : UInt32)
  /-- The file ends before the height at which it is to go on. -/
  | gap (start : UInt64)
  | chunkTooLarge (size : Nat)
  | truncated (e : Truncation)
  | emptyLedger
  | codec (e : CodecError)
  | store (e : StoreError)
  | ledger (e : LedgerError)
deriving DecidableEq

/-- The text of the error. -/
def BootstrapError.message : BootstrapError → String
  | file e => s!"I/O error: {e.message}"
  | notDirectory path => s!"export directory path is a file: {path}"
  | badMagic found => s!"bad bootstrap magic 0x{Hex.toText (Bytes.bigEndian 4 found.toNat)}"
  | headerSize found => s!"invalid bootstrap header: unsupported header size {found}"
  | gap start =>
    s!"invalid bootstrap header: file ends before height {start}; appending would leave a gap"
  | chunkTooLarge size => s!"chunk of {size} bytes exceeds the maximum of {maxChunkSize}"
  | truncated e => s!"truncated bootstrap file: {e.message}"
  | emptyLedger => "ledger has no blocks to export"
  | codec e => s!"codec error: {e.message}"
  | store e => s!"storage error: {e.message}"
  | ledger e => s!"ledger error: {e.message}"

/-- Bytes with their length in front. -/
def frame (record : Bytes) : Bytes := Bytes.littleEndian 4 record.length ++ record

/-- Takes a framed record off the front of the bytes. -/
def takeFrame (bs : Bytes) : Except BootstrapError (Bytes × Bytes) :=
  let size := Bytes.ofLittleEndian (bs.take 4)
  let rest := bs.drop 4
  if bs.length < 4 then .error (.truncated .frameLength)
  else if rest.length < size then .error (.truncated .frame)
  else .ok (rest.take size, rest.drop size)

/-- Reads a record. -/
def readRecord (α : Type) [Codec α] (bs : Bytes) : Except BootstrapError α :=
  (Codec.read bs).mapError fun e => .codec (.decode e)

/-- A block with the transactions that it lists. -/
structure BlockPackage where
  block : BlockRecord
  transactions : List TxRecord
deriving DecidableEq

instance : Codec BlockPackage :=
  Codec.ofFields (fun p => (p.block, p.transactions)) fun (block, transactions) =>
    { block, transactions }

/-- The version of a file and the size of its header in bytes. -/
structure FileInfo where
  majorVersion : UInt32 := 1
  minorVersion : UInt32 := 0
  headerSize : UInt32 := 1024
deriving DecidableEq, Repr

instance : Codec FileInfo :=
  Codec.ofFields (fun i => (i.majorVersion, i.minorVersion, i.headerSize))
    fun (majorVersion, minorVersion, headerSize) => { majorVersion, minorVersion, headerSize }

/-- The heights for which a file was started. Blocks that are added later do not change them, and the position
of the last block is always zero in files that are written. -/
structure BlocksInfo where
  first : UInt64
  last : UInt64
  lastPosition : UInt64 := 0
deriving DecidableEq, Repr

instance : Codec BlocksInfo :=
  Codec.ofFields (fun i => (i.first, i.last, i.lastPosition))
    fun (first, last, lastPosition) => { first, last, lastPosition }

/-- The records of a header. -/
structure BootstrapHeader where
  file : FileInfo
  blocks : BlocksInfo
deriving DecidableEq, Repr

namespace BootstrapHeader

/-- The number with which a file starts. -/
def magic : UInt32 := 0x28721586

/-- The size of a header. -/
def size : Nat := 1024

/-- The start of a file: the magic number, and the framed records padded with zeros. -/
def encode (h : BootstrapHeader) : Bytes :=
  let records := frame (Codec.encode h.file) ++ frame (Codec.encode h.blocks)
  Codec.encode magic ++ records ++ List.replicate (size - records.length) 0

/-- Reads the records of a header. Both are read before the size that they state is looked at. -/
def ofRecords (header : Bytes) : Except BootstrapError BootstrapHeader := do
  let (record, rest) ← takeFrame header
  let file ← readRecord FileInfo record
  let (record, _) ← takeFrame rest
  let blocks ← readRecord BlocksInfo record
  if file.headerSize.toNat ≠ size then
    throw (.headerSize file.headerSize)
  return { file, blocks }

/-- Reads the start of a file, and gives the rest of it. -/
def read (bs : Bytes) : Except BootstrapError (BootstrapHeader × Bytes) := do
  if bs.length < 4 then
    throw (.truncated .magic)
  let found := UInt32.ofNat (Bytes.ofLittleEndian (bs.take 4))
  if found ≠ magic then
    throw (.badMagic found)
  let rest := bs.drop 4
  if rest.length < size then
    throw (.truncated .header)
  let header ← ofRecords (rest.take size)
  return (header, rest.drop size)

end BootstrapHeader

end RingDepth
