import RingDepth.Bootstrap.Contents

/-!
# Reading package by package

A file need not be read at once. A cursor holds the chunk that was loaded last and a position in it. Asked for the
next package, it takes the frame at the position; if the chunk has no more, then it loads the next one, and goes on
loading as long as the chunks are empty. After a fault it gives nothing any more.
-/

namespace RingDepth

/-- What is read of a file between two packages: the chunk that was loaded last, the position of the next
frame in it, what stands behind it, and whether there was a fault. -/
structure Cursor where
  input : Bytes
  chunk : Bytes := []
  position : Nat := 0
  chunksRead : Nat := 0
  failed : Bool := false

namespace Cursor

/-- A cursor in front of the first chunk of a file. -/
def start (f : BootstrapFile) : Cursor := { input := f.body }

/-- Loads the next chunk. There is none if less than four bytes are left. What the chunk is after a fault does
not matter, as it is not looked at any more. -/
def nextChunk (s : Cursor) : Except BootstrapError Bool × Cursor :=
  let size := Bytes.ofLittleEndian (s.input.take 4)
  let rest := s.input.drop 4
  if s.input.length < 4 then (.ok false, { s with input := [] })
  else if maxChunkSize < size then (.error (.chunkTooLarge size), { s with input := rest })
  else if rest.length < size then (.error (.truncated (.chunk s.chunksRead)), { s with input := [] })
  else
    (.ok true, { s with
      input := rest.drop size
      chunk := rest.take size
      position := 0
      chunksRead := s.chunksRead + 1 })

/-- A chunk that is loaded, with its length, comes off the input. -/
theorem length_input_of_nextChunk {s s' : Cursor} (h : s.nextChunk = (.ok true, s')) :
    s'.input.length + s'.chunk.length + 4 = s.input.length := by
  rw [nextChunk] at h
  split at h
  · cases h
  · split at h
    · cases h
    · split at h
      · cases h
      · rename_i hshort hlarge hcut
        cases h
        rw [List.length_drop] at hcut
        rw [List.length_drop, List.length_take, List.length_drop]
        omega

/-- The frame at the position, after loading as many chunks as it takes to come to one. -/
def nextFrame (s : Cursor) : Except BootstrapError (Option Bytes) × Cursor :=
  if s.position < s.chunk.length then
    match takeFrame (s.chunk.drop s.position) with
    | .error e => (.error e, s)
    | .ok (record, _) => (.ok (some record), { s with position := s.position + 4 + record.length })
  else
    match _hload : s.nextChunk with
    | (.error e, s') => (.error e, s')
    | (.ok false, s') => (.ok none, s')
    | (.ok true, s') => s'.nextFrame
termination_by s.input.length
decreasing_by
  have := length_input_of_nextChunk _hload
  omega

/-- The number of bytes that a cursor has not looked at, but for those that it skips. -/
def size (s : Cursor) : Nat := s.input.length + (s.chunk.length - s.position)

/-- A frame that is taken comes off these bytes. -/
theorem size_lt_of_nextFrame {s s' : Cursor} {record : Bytes} (h : s.nextFrame = (.ok (some record), s')) :
    s'.size < s.size := by
  fun_induction nextFrame s with
  | case1 s hposition e htake => cases h
  | case2 s hposition found rest htake =>
    cases h
    simp only [size]
    omega
  | case3 s hposition e next hload => cases h
  | case4 s hposition next hload => cases h
  | case5 s hposition next hload ih =>
    have hless := ih h
    have hshorter := length_input_of_nextChunk hload
    simp only [size] at hless ⊢
    omega

/-- Counts the frames that are left, on top of those that were counted before. -/
def countFrames (s : Cursor) (count : Nat) : Except BootstrapError Nat :=
  match htake : s.nextFrame with
  | (.error e, _) => .error e
  | (.ok none, _) => .ok count
  | (.ok (some _), s') => s'.countFrames (count + 1)
termination_by s.size
decreasing_by exact size_lt_of_nextFrame htake

variable {α : Type} (decode : Bytes → Except BootstrapError α)

/-- The next item, or the fault that there is instead of it. There is none at the end and after a fault. -/
def next (s : Cursor) : Option (Except BootstrapError α) × Cursor :=
  if s.failed then (none, s)
  else
    match s.nextFrame with
    | (.error e, s') => (some (.error e), { s' with failed := true })
    | (.ok none, s') => (none, s')
    | (.ok (some record), s') =>
      match decode record with
      | .error e => (some (.error e), { s' with failed := true })
      | .ok item => (some (.ok item), s')

/-- The next items, but not more than a number of them, and the cursor behind them. -/
def take : (count : Nat) → Cursor → List (Except BootstrapError α) × Cursor
  | 0, s => ([], s)
  | count + 1, s =>
    match s.next decode with
    | (none, s') => ([], s')
    | (some found, s') =>
      let (others, last) := take count s'
      (found :: others, last)

/-- All items that are left, and the cursor behind them. Each takes a byte or more, but for a fault. -/
def exhaust (s : Cursor) : List (Except BootstrapError α) × Cursor := s.take decode (s.size + 2)

end Cursor

end RingDepth
