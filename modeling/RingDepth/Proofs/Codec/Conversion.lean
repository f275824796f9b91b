import Mathlib.Data.Set.List
import RingDepth.Proofs.Codec.Exact

/-!
# Records that convert

A record is wider than a transaction: it may have inputs of the older types. The records without such inputs are those
that make a transaction, and nothing of them is lost, so that records and transactions can be put for each other. With
blocks it is the same, for records whose reward has a single input that mints.

A transaction or a block that comes back from its own record is named by the digest of its stored form. Those that were
read from bytes with something behind the record are not.
-/

namespace RingDepth

namespace InputRecord

/-- Whether an input is of one of the types that a trace understands. -/
inductive Traceable : InputRecord → Prop
  | gen (height : UInt64) : Traceable (.gen height)
  | toKey (amount : UInt64) (keyOffsets : List UInt64) (keyImage : KeyImage) :
    Traceable (.toKey amount keyOffsets keyImage)

/-- Whether an input is of one of the older types. -/
inductive OfLegacyType : InputRecord → LegacyInput → Prop
  | toScript (prev : TxHash) (prevout : UInt64) (sigset : Bytes) :
    OfLegacyType (.toScript prev prevout sigset) .toScript
  | toScriptHash (prev : TxHash) (prevout : UInt64) (script sigset : Bytes) :
    OfLegacyType (.toScriptHash prev prevout script sigset) .toScriptHash

end InputRecord

/-- Whether the first input that cannot be traced is of some type. -/
def FirstLegacy (inputs : List InputRecord) (kind : LegacyInput) : Prop :=
  ∃ front x back, inputs = front ++ x :: back ∧ (∀ y ∈ front, y.Traceable) ∧ x.OfLegacyType kind

namespace Input

/-- The inputs that can be traced are the records of inputs. -/
theorem mem_range_toRecord_iff {x : InputRecord} : x ∈ Set.range toRecord ↔ x.Traceable := by
  refine ⟨fun h => ?_, fun h => ?_⟩
  · obtain ⟨input, rfl⟩ := h
    cases input with
    | terminal height => exact .gen height
    | keyed amount keyOffsets keyImage => exact .toKey amount keyOffsets keyImage
  · cases h with
    | gen height => exact ⟨.terminal height, rfl⟩
    | toKey amount keyOffsets keyImage => exact ⟨.keyed amount keyOffsets keyImage, rfl⟩

/-- The inputs that can be traced are those that convert. -/
theorem exists_ofRecord_iff {x : InputRecord} : (∃ input, ofRecord x = .ok input) ↔ x.Traceable := by
  rw [← mem_range_toRecord_iff]
  exact exists_congr fun input => by cases x <;> cases input <;> simp [ofRecord, toRecord, eq_comm]

/-- The inputs of the older types fail with the type. -/
theorem ofRecord_eq_error_iff {x : InputRecord} {e : CodecError} :
    ofRecord x = .error e ↔ ∃ kind, x.OfLegacyType kind ∧ e = .unsupportedInput kind := by
  refine ⟨fun h => ?_, fun h => ?_⟩
  · cases x with
    | gen | toKey => cases h
    | toScript prev prevout sigset => exact ⟨.toScript, .toScript prev prevout sigset, (Except.error.inj h).symm⟩
    | toScriptHash prev prevout script sigset =>
      exact ⟨.toScriptHash, .toScriptHash prev prevout script sigset, (Except.error.inj h).symm⟩
  · obtain ⟨kind, htype, rfl⟩ := h
    cases htype <;> rfl

end Input

namespace Transaction

/-- A record converts exactly when all of its inputs do. -/
theorem exists_ofRecord_iff {r : TxRecord} : (∃ t, ofRecord r = .ok t) ↔ ∀ x ∈ r.inputs, x.Traceable := by
  have hinputs : (∃ inputs : List Input, inputs.map Input.toRecord = r.inputs) ↔
      ∀ x ∈ r.inputs, x ∈ Set.range Input.toRecord :=
    Set.ext_iff.mp (Set.range_list_map Input.toRecord) r.inputs
  simp only [Input.mem_range_toRecord_iff, ← Input.mapM_ofRecord_eq_ok_iff] at hinputs
  simp only [← hinputs, ofRecord, named, map_eq_ok_iff]
  refine ⟨fun h => ?_, fun h => ?_⟩
  · obtain ⟨-, inputs, hok, -⟩ := h
    exact ⟨inputs, hok⟩
  · obtain ⟨inputs, hok⟩ := h
    exact ⟨_, inputs, hok, rfl⟩

/-- A record that does not convert fails with the type of its first input that cannot be traced. -/
theorem ofRecord_eq_error_iff {r : TxRecord} {e : CodecError} :
    ofRecord r = .error e ↔ ∃ kind, FirstLegacy r.inputs kind ∧ e = .unsupportedInput kind := by
  have hmap : ofRecord r = .error e ↔ r.inputs.mapM Input.ofRecord = .error e := by
    rw [ofRecord, named]
    cases r.inputs.mapM Input.ofRecord <;> simp [Except.map]
  rw [hmap, mapM_eq_error_iff]
  simp only [Input.exists_ofRecord_iff, Input.ofRecord_eq_error_iff, FirstLegacy]
  refine ⟨fun h => ?_, fun h => ?_⟩
  · obtain ⟨front, x, back, hsplit, hfront, kind, htype, he⟩ := h
    exact ⟨kind, ⟨front, x, back, hsplit, hfront, htype⟩, he⟩
  · obtain ⟨kind, ⟨front, x, back, hsplit, hfront, htype⟩, he⟩ := h
    exact ⟨front, x, back, hsplit, hfront, kind, htype, he⟩

/-- A transaction comes back from its record exactly when it is named by its stored form. -/
theorem ofRecord_toRecord_iff {t : Transaction} : ofRecord t.toRecord = .ok t ↔ t.NamedByEncoding := by
  rw [ofRecord_eq_ok_iff]
  exact and_iff_left rfl

/-- A transaction has an input that mints, and no other, exactly when its record has. -/
theorem inputs_eq_terminal_iff {t : Transaction} {height : UInt64} :
    t.inputs = [.terminal height] ↔ t.toRecord.inputs = [.gen height] := by
  have hinjective : Function.Injective Input.toRecord := fun first second h => by
    cases first <;> cases second <;> simp_all [Input.toRecord]
  exact (List.map_injective_iff.mpr hinjective).eq_iff.symm

end Transaction

namespace Block

variable {r : BlockRecord}

/-- The height of a reward is that of the single input of its record. -/
theorem heightOfReward_eq_ok_iff_record {record : TxRecord} {t : Transaction}
    (ht : Transaction.ofRecord record = .ok t) {height : UInt64} :
    heightOfReward t = .ok height ↔ record.inputs = [.gen height] := by
  rw [heightOfReward_eq_ok_iff, Transaction.inputs_eq_terminal_iff, (Transaction.ofRecord_eq_ok_iff.mp ht).2]

/-- A transaction that is no reward is refused with the number of its inputs. -/
theorem heightOfReward_eq_error_iff {t : Transaction} {e : CodecError} :
    heightOfReward t = .error e ↔
      (¬∃ height, heightOfReward t = .ok height) ∧ e = .malformedReward t.inputs.length := by
  unfold heightOfReward
  split <;> simp [eq_comm]

/-- A record converts exactly when its reward does, and has a single input that mints. -/
theorem exists_ofRecord_iff :
    (∃ b, ofRecord r = .ok b) ↔
      (∃ t, Transaction.ofRecord r.rewardTx = .ok t) ∧ ∃ height, r.rewardTx.inputs = [.gen height] := by
  refine ⟨fun h => ?_, fun h => ?_⟩
  · obtain ⟨b, hb⟩ := h
    obtain ⟨t, ht, hrest⟩ := bind_eq_ok_iff.mp hb
    obtain ⟨height, hheight, -⟩ := bind_eq_ok_iff.mp hrest
    exact ⟨⟨t, ht⟩, height, (heightOfReward_eq_ok_iff_record ht).mp hheight⟩
  · obtain ⟨⟨t, ht⟩, height, hinputs⟩ := h
    have hheight := (heightOfReward_eq_ok_iff_record ht).mpr hinputs
    exact ⟨_, bind_eq_ok_iff.mpr ⟨t, ht, bind_eq_ok_iff.mpr ⟨height, hheight, rfl⟩⟩⟩

/-- A record whose reward does not convert fails as the reward does, and one whose reward is none fails with the
number of its inputs. -/
theorem ofRecord_eq_error_iff {e : CodecError} :
    ofRecord r = .error e ↔ Transaction.ofRecord r.rewardTx = .error e ∨
      (∃ t, Transaction.ofRecord r.rewardTx = .ok t) ∧ (¬∃ height, r.rewardTx.inputs = [.gen height]) ∧
        e = .malformedReward r.rewardTx.inputs.length := by
  have hlength {t : Transaction} (ht : Transaction.ofRecord r.rewardTx = .ok t) :
      t.inputs.length = r.rewardTx.inputs.length := by
    rw [← (Transaction.ofRecord_eq_ok_iff.mp ht).2]
    exact (List.length_map _).symm
  rw [ofRecord, named, bind_eq_error_iff]
  refine or_congr_right ⟨fun h => ?_, fun h => ?_⟩
  · obtain ⟨t, ht, hrest⟩ := h
    obtain hheight | ⟨_, -, hpure⟩ := bind_eq_error_iff.mp hrest
    · obtain ⟨hnone, he⟩ := heightOfReward_eq_error_iff.mp hheight
      simp only [heightOfReward_eq_ok_iff_record ht] at hnone
      exact ⟨⟨t, ht⟩, hnone, by rw [he, hlength ht]⟩
    · cases hpure
  · obtain ⟨⟨t, ht⟩, hnone, he⟩ := h
    simp only [← heightOfReward_eq_ok_iff_record ht] at hnone
    refine ⟨t, ht, bind_eq_error_iff.mpr (.inl (heightOfReward_eq_error_iff.mpr ⟨hnone, ?_⟩))⟩
    rw [he, hlength ht]

/-- A block comes back from its record exactly when it is named by its stored form and its reward fits it. -/
theorem ofRecord_toRecord_iff {b : Block} : ofRecord b.toRecord = .ok b ↔ b.NamedByEncoding ∧ b.RewardFits := by
  rw [ofRecord_eq_ok_iff]
  exact and_congr_right' (and_iff_right rfl)

end Block

/-- When a record makes a transaction, and that nothing of it is lost. It makes one exactly if each of its
inputs can be traced, and otherwise it fails with the type of the first input that cannot. The transaction
gives the record back and is named by the digest of its stored form, from which it reads back if its lists
have lengths that can be written, as all lists in memory have. -/
structure TxRecord.ConvertsExactly (r : TxRecord) : Prop where
  succeeds_iff : (∃ t, Transaction.ofRecord r = .ok t) ↔ ∀ x ∈ r.inputs, x.Traceable
  fails_iff : ∀ e, Transaction.ofRecord r = .error e ↔
    ∃ kind, FirstLegacy r.inputs kind ∧ e = .unsupportedInput kind
  toRecord : ∀ t, Transaction.ofRecord r = .ok t → t.toRecord = r
  encode : ∀ t, Transaction.ofRecord r = .ok t → t.encode = Codec.encode r
  hash : ∀ t, Transaction.ofRecord r = .ok t → t.hash.bytes = Blake2b.digest (Codec.encode r)
  decode : ∀ t, Transaction.ofRecord r = .ok t → Writable r.lengths → Transaction.decode t.encode = .ok t

/-- When a record makes a block, and that nothing of it is lost. It makes one exactly if its reward makes a
transaction that has a single input that mints, and otherwise it fails as the reward does, or because the
reward is none. The block has the height of its reward, gives the record back and is named by the digest of
its stored form, from which it reads back if its lists have lengths that can be written. -/
structure BlockRecord.ConvertsExactly (r : BlockRecord) : Prop where
  succeeds_iff : (∃ b, Block.ofRecord r = .ok b) ↔
    (∃ t, Transaction.ofRecord r.rewardTx = .ok t) ∧ ∃ height, r.rewardTx.inputs = [.gen height]
  fails_iff : ∀ e, Block.ofRecord r = .error e ↔ Transaction.ofRecord r.rewardTx = .error e ∨
    (∃ t, Transaction.ofRecord r.rewardTx = .ok t) ∧ (¬∃ height, r.rewardTx.inputs = [.gen height]) ∧
      e = .malformedReward r.rewardTx.inputs.length
  height : ∀ b, Block.ofRecord r = .ok b → r.rewardTx.inputs = [.gen b.height]
  reward : ∀ b, Block.ofRecord r = .ok b → Transaction.ofRecord r.rewardTx = .ok b.rewardTx
  toRecord : ∀ b, Block.ofRecord r = .ok b → b.toRecord = r
  hash : ∀ b, Block.ofRecord r = .ok b → b.hash.bytes = Blake2b.digest (Codec.encode r)
  decode : ∀ b, Block.ofRecord r = .ok b → Writable r.lengths → Block.decode b.encode = .ok b

/-- Records of transactions convert exactly. -/
theorem TxRecord.convertsExactly (r : TxRecord) : r.ConvertsExactly where
  succeeds_iff := Transaction.exists_ofRecord_iff
  fails_iff _ := Transaction.ofRecord_eq_error_iff
  toRecord t h := (Transaction.ofRecord_eq_ok_iff.mp h).2
  encode t h := congrArg Codec.encode (Transaction.ofRecord_eq_ok_iff.mp h).2
  hash t h := by
    obtain ⟨hname, hrecord⟩ := Transaction.ofRecord_eq_ok_iff.mp h
    rw [hname, Transaction.encode, hrecord]
    rfl
  decode t h hlengths := by
    obtain ⟨hname, rfl⟩ := Transaction.ofRecord_eq_ok_iff.mp h
    exact Transaction.decode_encode ((TxRecord.fits_iff _).mpr hlengths) hname

/-- Records of blocks convert exactly. -/
theorem BlockRecord.convertsExactly (r : BlockRecord) : r.ConvertsExactly where
  succeeds_iff := Block.exists_ofRecord_iff
  fails_iff _ := Block.ofRecord_eq_error_iff
  height b h := by
    obtain ⟨-, rfl, hreward⟩ := Block.ofRecord_eq_ok_iff.mp h
    exact Transaction.inputs_eq_terminal_iff.mp hreward.inputs
  reward b h := by
    obtain ⟨-, rfl, hreward⟩ := Block.ofRecord_eq_ok_iff.mp h
    exact Transaction.ofRecord_toRecord_iff.mpr hreward.named
  toRecord b h := (Block.ofRecord_eq_ok_iff.mp h).2.1
  hash b h := by
    obtain ⟨hname, hrecord, -⟩ := Block.ofRecord_eq_ok_iff.mp h
    rw [hname, Block.encode, hrecord]
    rfl
  decode b h hlengths := by
    obtain ⟨hname, rfl, hreward⟩ := Block.ofRecord_eq_ok_iff.mp h
    exact Block.decode_encode ((BlockRecord.fits_iff _).mpr hlengths) hname hreward

/-- Records convert exactly, those of transactions and those of blocks. A transaction comes back from its record if it
is named by its stored form, and only then; a block does if its reward fits it as well. -/
theorem conversions_exact :
    (∀ r : TxRecord, r.ConvertsExactly) ∧ (∀ r : BlockRecord, r.ConvertsExactly) ∧
      (∀ t : Transaction, Transaction.ofRecord t.toRecord = .ok t ↔ t.NamedByEncoding) ∧
      ∀ b : Block, Block.ofRecord b.toRecord = .ok b ↔ b.NamedByEncoding ∧ b.RewardFits :=
  ⟨TxRecord.convertsExactly, BlockRecord.convertsExactly, fun _ => Transaction.ofRecord_toRecord_iff,
    fun _ => Block.ofRecord_toRecord_iff⟩

end RingDepth
