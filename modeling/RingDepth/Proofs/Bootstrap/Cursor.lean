import RingDepth.Bootstrap.Cursor
import RingDepth.Proofs.Bootstrap.Framing

/-!
# What a cursor gives

What a cursor has left to give is the packages behind its position in the chunk and those of the chunks that
were not loaded. A step takes one off its front. So a cursor gives what the file holds, up to the first fault,
whatever the sizes of the chunks are.
-/

namespace RingDepth

namespace Contents

variable {α : Type} {decode : Bytes → Except BootstrapError α}

/-- The items, and then the fault that ended the reading, if there was one. -/
def results (c : Contents α) : List (Except BootstrapError α) :=
  c.items.map .ok ++ c.failure.toList.map .error

/-- More frames than a chunk can have are not read. -/
theorem ofFrames_eq_of_le {m n : ℕ} {chunk : Bytes} (hm : chunk.length ≤ m) (hn : chunk.length ≤ n) :
    ofFrames decode m chunk = ofFrames decode n chunk := by
  induction m generalizing n chunk with
  | zero =>
    obtain rfl := List.length_eq_zero_iff.mp (Nat.le_zero.mp hm)
    cases n <;> rfl
  | succ m ih =>
    by_cases hempty : chunk = []
    · subst hempty
      cases n <;> rfl
    · obtain ⟨n, rfl⟩ := Nat.exists_eq_add_one_of_ne_zero (n := n) fun hzero =>
        hempty (List.length_eq_zero_iff.mp (by omega))
      rw [ofFrames.eq_3 _ _ _ hempty, ofFrames.eq_3 _ _ _ hempty]
      cases htake : takeFrame chunk with
      | error e => rfl
      | ok taken =>
        obtain ⟨record, rest⟩ := taken
        obtain ⟨-, rfl⟩ := takeFrame_eq_ok_iff.mp htake
        rw [List.length_append, length_frame] at hm hn
        have hrest := ih (n := n) (show rest.length ≤ m by omega) (by omega)
        simp only [hrest]

/-- A chunk that does not begin with a frame has a fault there. -/
theorem ofChunk_of_takeFrame_error {chunk : Bytes} {e : BootstrapError} (hempty : chunk ≠ [])
    (h : takeFrame chunk = .error e) : ofChunk decode chunk = { failure := some e } := by
  obtain ⟨n, hn⟩ := Nat.exists_eq_add_one_of_ne_zero (mt List.length_eq_zero_iff.mp hempty)
  rw [ofChunk, hn, ofFrames.eq_3 _ _ _ hempty, h]

/-- The frame at the front of a chunk is read, and then the others, if its record decodes. -/
theorem ofChunk_of_takeFrame_ok {chunk record rest : Bytes} (h : takeFrame chunk = .ok (record, rest)) :
    ofChunk decode chunk =
      match decode record with
      | .error e => { failure := some e }
      | .ok item => { ofChunk decode rest with items := item :: (ofChunk decode rest).items } := by
  obtain ⟨-, rfl⟩ := takeFrame_eq_ok_iff.mp h
  obtain ⟨n, hn⟩ := Nat.exists_eq_add_one_of_ne_zero
    (mt List.length_eq_zero_iff.mp (frame_append_ne_nil record rest))
  rw [ofChunk, hn, ofFrames.eq_3 _ _ _ (frame_append_ne_nil _ _), h]
  rw [List.length_append, length_frame] at hn
  rw [ofChunk]
  dsimp only
  cases decode record with
  | error e => rfl
  | ok item =>
    have hrest : ofFrames decode n rest = ofFrames decode rest.length rest :=
      ofFrames_eq_of_le (by omega) le_rfl
    simp only [hrest]

end Contents

/-- More chunks than a body can have are not cut off. -/
theorem cutChunks_eq_of_le {m n index : ℕ} {bs : Bytes} (hm : bs.length ≤ m) (hn : bs.length ≤ n) :
    cutChunks m index bs = cutChunks n index bs := by
  induction m generalizing n index bs with
  | zero =>
    obtain rfl := List.length_eq_zero_iff.mp (Nat.le_zero.mp hm)
    cases n <;> rfl
  | succ m ih =>
    by_cases hshort : bs.length < 4
    · rw [cutChunks_of_length_lt hshort, cutChunks_of_length_lt hshort]
    · obtain ⟨n, rfl⟩ := Nat.exists_eq_add_one_of_ne_zero (n := n) (by omega)
      rw [cutChunks, cutChunks, ih]
      all_goals
        rw [List.length_drop, List.length_drop]
        omega

namespace Cursor

variable {α : Type} (decode : Bytes → Except BootstrapError α)

/-- All that a cursor gives until there is no next item. -/
inductive Yields : Cursor → List (Except BootstrapError α) → Cursor → Prop
  | done {s s' : Cursor} (h : s.next decode = (none, s')) : Yields s [] s'
  | item {s s' last : Cursor} {found : Except BootstrapError α} {others : List (Except BootstrapError α)}
    (h : s.next decode = (some found, s')) (hrest : Yields s' others last) : Yields s (found :: others) last

/-- What a cursor has left to give: the frames behind its position, and the chunks that were not loaded. -/
def left (s : Cursor) : Contents α :=
  let here := Contents.ofChunk decode (s.chunk.drop s.position)
  match here.failure with
  | some e => { items := here.items, failure := some e, chunks := s.chunksRead }
  | none =>
    let cut := cutChunks s.input.length s.chunksRead s.input
    let others := Contents.ofChunks decode cut.2 cut.1
    { others with items := here.items ++ others.items, chunks := s.chunksRead + others.chunks }

variable {decode} {s s' : Cursor} {e : BootstrapError}

/-- In front of the first chunk all that the file holds is left. -/
theorem left_start (f : BootstrapFile) : (start f).left decode = f.contents decode := by
  rw [left, BootstrapFile.contents]
  simp only [start, List.drop_nil, Nat.zero_add]
  rfl

/-- Behind the last frame of a chunk the chunks are left that were not loaded. -/
theorem left_of_length_le (h : s.chunk.length ≤ s.position) :
    s.left decode =
      let cut := cutChunks s.input.length s.chunksRead s.input
      let others := Contents.ofChunks decode cut.2 cut.1
      { others with chunks := s.chunksRead + others.chunks } := by
  rw [left, List.drop_of_length_le h]
  rfl

/-- The chunk that is loaded is the first one that is cut off, and a fault is the same. -/
theorem cutChunks_eq_nextChunk (s : Cursor) :
    cutChunks s.input.length s.chunksRead s.input =
      match s.nextChunk with
      | (.error e, _) => ([], some e)
      | (.ok false, _) => ([], none)
      | (.ok true, s') =>
        let cut := cutChunks s'.input.length s'.chunksRead s'.input
        (s'.chunk :: cut.1, cut.2) := by
  rw [nextChunk]
  by_cases hshort : s.input.length < 4
  · rw [cutChunks_of_length_lt hshort, if_pos hshort]
  · obtain ⟨n, hn⟩ : ∃ n, s.input.length = n + 1 := Nat.exists_eq_add_one_of_ne_zero (by omega)
    rw [cutChunks_eq_of_le (n := n + 1) le_rfl (Nat.le_of_eq hn), cutChunks]
    simp only [if_neg hshort]
    split_ifs with hlarge hcut
    · rfl
    · rfl
    · dsimp only
      rw [cutChunks_eq_of_le (m := n) _ le_rfl]
      rw [List.length_drop, List.length_drop]
      omega

/-- A chunk that cannot be loaded leaves the cursor where it is, and without a fault nothing is left of the
input. -/
theorem nextChunk_of_ne {x : Except BootstrapError Bool} (h : s.nextChunk = (x, s')) (hx : x ≠ .ok true) :
    s'.chunk = s.chunk ∧ s'.position = s.position ∧ s'.chunksRead = s.chunksRead ∧
      (x = .ok false → s'.input = []) := by
  rw [nextChunk] at h
  split_ifs at h
  all_goals cases h
  · exact ⟨rfl, rfl, rfl, fun _ => rfl⟩
  · exact ⟨rfl, rfl, rfl, fun h => by cases h⟩
  · exact ⟨rfl, rfl, rfl, fun h => by cases h⟩
  · exact absurd rfl hx

/-- Whether there was a fault is not told by loading a chunk. -/
theorem failed_nextChunk (s : Cursor) : s.nextChunk.2.failed = s.failed := by
  rw [nextChunk]
  split_ifs
  all_goals rfl

/-- Loading a chunk leaves what was left. -/
theorem left_of_nextChunk (hposition : s.chunk.length ≤ s.position) (h : s.nextChunk = (.ok true, s')) :
    s.left decode = s'.left decode := by
  have hloaded : s'.position = 0 ∧ s'.chunksRead = s.chunksRead + 1 := by
    rw [nextChunk] at h
    split_ifs at h
    all_goals cases h
    exact ⟨rfl, rfl⟩
  rw [left_of_length_le hposition, cutChunks_eq_nextChunk, h, left, hloaded.1, List.drop_zero]
  dsimp only
  rw [Contents.ofChunks]
  dsimp only
  cases (Contents.ofChunk decode s'.chunk).failure with
  | some e => rw [hloaded.2]
  | none => rw [hloaded.2, Nat.add_assoc, Nat.add_comm 1]

/-- What the frame that is taken next has to do with what is left: it is the first item of it, or what is wrong
there. At the end there is no frame any more. -/
def Takes (decode : Bytes → Except BootstrapError α) (s : Cursor) :
    Except BootstrapError (Option Bytes) × Cursor → Prop
  | (.error e, s') => s.left decode = { failure := some e, chunks := s'.chunksRead }
  | (.ok none, s') => s.left decode = { chunks := s'.chunksRead } ∧ s'.nextFrame = (.ok none, s')
  | (.ok (some record), s') => s'.size < s.size ∧ s.left decode =
      match decode record with
      | .error e => { failure := some e, chunks := s'.chunksRead }
      | .ok item => { s'.left decode with items := item :: (s'.left decode).items }

/-- A frame at the position is the first one that is left. -/
theorem takes_of_lt (h : s.position < s.chunk.length) : s.Takes decode s.nextFrame := by
  have hempty : s.chunk.drop s.position ≠ [] := by
    rw [ne_eq, List.drop_eq_nil_iff]
    omega
  rw [nextFrame, if_pos h]
  cases htake : takeFrame (s.chunk.drop s.position) with
  | error e =>
    change s.left decode = _
    rw [left, Contents.ofChunk_of_takeFrame_error hempty htake]
  | ok taken =>
    obtain ⟨record, rest⟩ := taken
    have hrest : s.chunk.drop (s.position + 4 + record.length) = rest := by
      obtain ⟨-, hframe⟩ := takeFrame_eq_ok_iff.mp htake
      rw [Nat.add_assoc, ← List.drop_drop, hframe, ← length_frame, List.drop_left]
    refine ⟨?_, ?_⟩
    · change s.input.length + (s.chunk.length - (s.position + 4 + record.length)) <
        s.input.length + (s.chunk.length - s.position)
      omega
    · rw [left, Contents.ofChunk_of_takeFrame_ok htake]
      cases decode record with
      | error e => rfl
      | ok item =>
        simp only [left, hrest]
        cases (Contents.ofChunk decode rest).failure <;> rfl

/-- Loading chunks changes nothing of this. -/
theorem Takes.of_left_eq {taken : Except BootstrapError (Option Bytes) × Cursor} (h : s'.Takes decode taken)
    (hleft : s.left decode = s'.left decode) (hsize : s'.size ≤ s.size) : s.Takes decode taken := by
  rcases taken with ⟨_ | _ | record, last⟩
  · exact hleft.trans h
  · exact ⟨hleft.trans h.1, h.2⟩
  · exact ⟨h.1.trans_le hsize, hleft.trans h.2⟩

/-- The frame that is taken next is the first one that is left, however many chunks have to be loaded. -/
theorem takes_nextFrame (s : Cursor) : s.Takes decode s.nextFrame := by
  -- The induction is on the chunks that are loaded before the frame.
  induction hlength : s.input.length using Nat.strong_induction_on generalizing s with
  | _ n ih =>
    by_cases hposition : s.position < s.chunk.length
    · exact takes_of_lt hposition
    · have hend := Nat.not_lt.mp hposition
      rw [nextFrame, if_neg hposition]
      split
      · rename_i e s' hload
        obtain ⟨-, -, hchunks, -⟩ := nextChunk_of_ne hload (by simp)
        change s.left decode = _
        rw [left_of_length_le hend, cutChunks_eq_nextChunk, hload, hchunks]
        rfl
      · rename_i s' hload
        obtain ⟨hchunk, hsame, hchunks, hinput⟩ := nextChunk_of_ne hload (by simp)
        refine ⟨?_, ?_⟩
        · rw [left_of_length_le hend, cutChunks_eq_nextChunk, hload, hchunks]
          rfl
        · have hload' : s'.nextChunk = (.ok false, s') := by
            have hnone := hinput rfl
            rw [nextChunk, hnone]
            cases s'
            cases hnone
            rfl
          rw [nextFrame, if_neg (by rw [hchunk, hsame]; exact hposition), hload']
      · rename_i s' hload
        have hshorter := length_input_of_nextChunk hload
        refine (ih s'.input.length (by omega) s' rfl).of_left_eq (left_of_nextChunk hend hload) ?_
        rw [size, size]
        omega

/-- What the next item has to do with what is left: it is the first item of it, or what is wrong there. At the
end there is no item any more, and none after a fault. -/
def Gives (decode : Bytes → Except BootstrapError α) (s : Cursor) :
    Option (Except BootstrapError α) × Cursor → Prop
  | (none, s') => s.left decode = { chunks := s'.chunksRead } ∧ s'.next decode = (none, s')
  | (some (.error e), s') => s.left decode = { failure := some e, chunks := s'.chunksRead } ∧ s'.failed = true
  | (some (.ok item), s') => s'.failed = false ∧ s'.size < s.size ∧
      s.left decode = { s'.left decode with items := item :: (s'.left decode).items }

/-- Nor is it told by taking a frame. -/
theorem failed_nextFrame (s : Cursor) : s.nextFrame.2.failed = s.failed := by
  fun_induction nextFrame s with
  | case1 s hposition e htake => rfl
  | case2 s hposition record rest htake => rfl
  | case3 s hposition e s' hload => rw [← s.failed_nextChunk, hload]
  | case4 s hposition s' hload => rw [← s.failed_nextChunk, hload]
  | case5 s hposition s' hload ih => rw [ih, ← s.failed_nextChunk, hload]

/-- A step takes the first item off what is left, or finds what is wrong there. -/
theorem left_next (h : s.failed = false) : s.Gives decode (s.next decode) := by
  have htakes : s.Takes decode s.nextFrame := s.takes_nextFrame
  have hfailed := s.failed_nextFrame
  rw [next, h, if_neg Bool.false_ne_true]
  rcases hframe : s.nextFrame with ⟨_ | _ | record, s'⟩
  all_goals
    rw [hframe] at htakes hfailed
    rw [h] at hfailed
  · exact ⟨htakes, rfl⟩
  · refine ⟨htakes.1, ?_⟩
    rw [next, hfailed, htakes.2]
    rfl
  · obtain ⟨hsize, hleft⟩ := htakes
    dsimp only
    cases hdecode : decode record with
    | error e =>
      rw [hdecode] at hleft
      exact ⟨hleft, rfl⟩
    | ok item =>
      rw [hdecode] at hleft
      exact ⟨hfailed, hsize, hleft⟩

/-- A cursor gives all that is left, and then nothing any more. -/
theorem exists_yields (h : s.failed = false) :
    ∃ last, Yields decode s (s.left decode).results last ∧ last.chunksRead = (s.left decode).chunks ∧
      last.next decode = (none, last) := by
  induction hsize : s.size using Nat.strong_induction_on generalizing s with
  | _ n ih =>
    have hgives : s.Gives decode (s.next decode) := left_next h
    rcases hnext : s.next decode with ⟨_ | (e | item), s'⟩
    all_goals rw [hnext] at hgives
    · obtain ⟨hleft, hend⟩ := hgives
      rw [hleft]
      exact ⟨s', .done hnext, rfl, hend⟩
    · obtain ⟨hleft, hfailed⟩ := hgives
      have hend : s'.next decode = (none, s') := by rw [next, hfailed, if_pos rfl]
      rw [hleft]
      exact ⟨s', .item hnext (.done hend), rfl, hend⟩
    · obtain ⟨hfailed, hless, hleft⟩ := hgives
      obtain ⟨last, hyields, hchunks, hend⟩ := ih s'.size (by omega) hfailed rfl
      rw [hleft]
      exact ⟨last, .item hnext hyields, hchunks, hend⟩

end Cursor

/-- A cursor gives what a file holds, item by item up to the first fault, and then nothing any more. It has then
loaded the chunks that are counted. -/
theorem BootstrapFile.yields_contents {α : Type} (decode : Bytes → Except BootstrapError α)
    (f : BootstrapFile) :
    ∃ last, Cursor.Yields decode (.start f) (f.contents decode).results last ∧
      last.chunksRead = (f.contents decode).chunks ∧ last.next decode = (none, last) := by
  rw [← Cursor.left_start]
  exact Cursor.exists_yields rfl

end RingDepth
