import RingDepth.Block
import RingDepth.Store.Basic
import RingDepth.Proofs.Codec.Lawful

/-!
# Records lose nothing

The codecs of all records are lawful. A transaction or a block that was made from a record gives the
record back, so its stored form reads as the same transaction or block, provided that it is named by the
digest of this form. What was read from bytes is named by the digest of all of them: the stored form is
a prefix of these bytes, and the name is that of the stored form only if nothing stood behind it.
-/

namespace RingDepth

open Codec (Lawful Fits)

namespace InputRecord

/-- The lists in an input have lengths that can be written. -/
def Fits : InputRecord → Prop
  | gen _ => True
  | toScript _ _ sigset => Codec.Fits sigset
  | toScriptHash _ _ script sigset => Codec.Fits script ∧ Codec.Fits sigset
  | toKey _ keyOffsets _ => Codec.Fits keyOffsets

/-- An input that was written reads back, whatever follows it. -/
theorem decode_encode (x : InputRecord) (rest : Bytes) (h : x.Fits) :
    decode (encode x ++ rest) = .ok (x, rest) := by
  have htag (tag : UInt32) (bs : Bytes) : Codec.decode (Codec.encode tag ++ bs) = .ok (tag, bs) :=
    Codec.decode_encode tag bs trivial
  cases x with
  | gen height =>
    simp only [encode, decode, List.append_assoc, htag, bind, Except.bind, if_true]
    rw [Codec.decode_encode height rest trivial]
    rfl
  | toScript prev prevout sigset =>
    have hfields := Codec.decode_encode (prev, prevout, sigset) rest ⟨trivial, trivial, h⟩
    simp only [encode, decode, List.append_assoc, htag, bind, Except.bind, hfields]
    rfl
  | toScriptHash prev prevout script sigset =>
    have hfields := Codec.decode_encode (prev, prevout, script, sigset) rest
      ⟨trivial, trivial, h.1, h.2⟩
    simp only [encode, decode, List.append_assoc, htag, bind, Except.bind, hfields]
    rfl
  | toKey amount keyOffsets keyImage =>
    have hfields := Codec.decode_encode (amount, keyOffsets, keyImage) rest ⟨trivial, h, trivial⟩
    simp only [encode, decode, List.append_assoc, htag, bind, Except.bind, hfields]
    rfl

/-- What reads as an input begins with its written form. -/
theorem encode_of_decode {bs rest : Bytes} {x : InputRecord} (h : decode bs = .ok (x, rest)) :
    x.Fits ∧ encode x ++ rest = bs := by
  obtain ⟨⟨tag, bs'⟩, htag, hbody⟩ := bind_eq_ok_iff.mp h
  obtain ⟨-, rfl⟩ := Codec.encode_of_decode htag
  dsimp only at hbody
  split_ifs at hbody with h0 h1 h2 h3
  · obtain ⟨⟨height, last⟩, hfields, heq⟩ := bind_eq_ok_iff.mp hbody
    cases heq
    obtain ⟨-, rfl⟩ := Codec.encode_of_decode hfields
    exact ⟨trivial, by rw [h0, encode, List.append_assoc]⟩
  · obtain ⟨⟨⟨prev, prevout, sigset⟩, last⟩, hfields, heq⟩ := bind_eq_ok_iff.mp hbody
    cases heq
    obtain ⟨hfits, rfl⟩ := Codec.encode_of_decode hfields
    exact ⟨hfits.2.2, by rw [h1, encode, List.append_assoc]⟩
  · obtain ⟨⟨⟨prev, prevout, script, sigset⟩, last⟩, hfields, heq⟩ := bind_eq_ok_iff.mp hbody
    cases heq
    obtain ⟨hfits, rfl⟩ := Codec.encode_of_decode hfields
    exact ⟨hfits.2.2, by rw [h2, encode, List.append_assoc]⟩
  · obtain ⟨⟨⟨amount, keyOffsets, keyImage⟩, last⟩, hfields, heq⟩ := bind_eq_ok_iff.mp hbody
    cases heq
    obtain ⟨hfits, rfl⟩ := Codec.encode_of_decode hfields
    exact ⟨hfits.2.1, by rw [h3, encode, List.append_assoc]⟩

instance : Lawful InputRecord where
  Fits := Fits
  decode_encode := decode_encode
  encode_of_decode := encode_of_decode

end InputRecord

instance : Lawful Output :=
  Lawful.ofFields (fun o => (o.amount, o.key)) (fun (amount, key) => ⟨amount, key⟩) rfl
    (fun _ => rfl) fun _ => rfl

instance : Lawful OutputLocation :=
  Lawful.ofFields (fun l => (l.height, l.key)) (fun (height, key) => ⟨height, key⟩) rfl
    (fun _ => rfl) fun _ => rfl

instance : Lawful TxRecord :=
  Lawful.ofFields (fun r => (r.version, r.unlockTime, r.inputs, r.outputs, r.extra))
    (fun (version, unlockTime, inputs, outputs, extra) =>
      ⟨version, unlockTime, inputs, outputs, extra⟩) rfl
    (fun _ => rfl) fun _ => rfl

instance : Lawful BlockRecord :=
  Lawful.ofFields
    (fun r => (r.majorVersion, r.minorVersion, r.timestamp, r.prevHash, r.nonce, r.rewardTx,
      r.txHashes))
    (fun (majorVersion, minorVersion, timestamp, prevHash, nonce, rewardTx, txHashes) =>
      ⟨majorVersion, minorVersion, timestamp, prevHash, nonce, rewardTx, txHashes⟩) rfl
    (fun _ => rfl) fun _ => rfl

namespace Input

/-- Inputs come from a list of records exactly when the records are theirs. -/
theorem mapM_ofRecord_eq_ok_iff {records : List InputRecord} {inputs : List Input} :
    records.mapM ofRecord = .ok inputs ↔ inputs.map toRecord = records := by
  induction records generalizing inputs with
  | nil => simp [pure, Except.pure, eq_comm]
  | cons record rest ih =>
    have hfirst (input : Input) : ofRecord record = .ok input ↔ input.toRecord = record := by
      cases record <;> cases input <;> simp [ofRecord, toRecord, eq_comm]
    rw [List.mapM_cons, bind_eq_ok_iff]
    refine ⟨fun hleft => ?_, fun h => ?_⟩
    · obtain ⟨input, hinput, h⟩ := hleft
      obtain ⟨others, hothers, ⟨⟩⟩ := bind_eq_ok_iff.mp h
      rw [List.map_cons, (hfirst input).mp hinput, ih.mp hothers]
    · obtain ⟨input, others, rfl, hinput, hothers⟩ := List.map_eq_cons_iff.mp h
      exact ⟨input, (hfirst input).mpr hinput, bind_eq_ok_iff.mpr ⟨others, ih.mpr hothers, rfl⟩⟩

end Input

namespace Transaction

/-- Whether a transaction is named by the digest of its stored form. -/
def NamedByEncoding (t : Transaction) : Prop := t.hash = .ofContent t.encode

/-- A record and a hash make the transaction that has both. -/
theorem named_eq_ok_iff {hash : TxHash} {r : TxRecord} {t : Transaction} :
    named hash r = .ok t ↔ t.hash = hash ∧ t.toRecord = r := by
  rw [named, map_eq_ok_iff]
  refine ⟨fun hleft => ?_, fun hright => ?_⟩
  · obtain ⟨inputs, hinputs, rfl⟩ := hleft
    rw [Input.mapM_ofRecord_eq_ok_iff] at hinputs
    exact ⟨rfl, by simp [toRecord, hinputs]⟩
  · obtain ⟨rfl, rfl⟩ := hright
    exact ⟨t.inputs, Input.mapM_ofRecord_eq_ok_iff.mpr rfl, rfl⟩

/-- A transaction that was made from a record has this record, and the digest of its form as name. -/
theorem ofRecord_eq_ok_iff {r : TxRecord} {t : Transaction} :
    ofRecord r = .ok t ↔ t.NamedByEncoding ∧ t.toRecord = r := by
  rw [ofRecord, named_eq_ok_iff, NamedByEncoding, encode]
  refine ⟨fun hleft => ?_, fun hright => ?_⟩
  · obtain ⟨hhash, rfl⟩ := hleft
    exact ⟨hhash, rfl⟩
  · obtain ⟨hhash, rfl⟩ := hright
    exact ⟨hhash, rfl⟩

/-- A transaction that was read has the record at the front of the bytes, and is named by all of them. -/
theorem decode_eq_ok_iff {bs : Bytes} {t : Transaction} :
    decode bs = .ok t ↔ t.hash = .ofContent bs ∧ Codec.read bs = .ok t.toRecord := by
  unfold decode
  split
  · rename_i e he
    simp [he]
  · rename_i r hr
    rw [named_eq_ok_iff, hr, Except.ok.injEq, eq_comm (a := t.toRecord)]

/-- The stored form of a transaction that is named by it reads as this transaction. -/
theorem decode_encode {t : Transaction} (hfits : Fits t.toRecord) (hname : t.NamedByEncoding) :
    decode t.encode = .ok t :=
  decode_eq_ok_iff.mpr ⟨hname, Codec.read_encode hfits⟩

/-- The bytes that a transaction was read from are its stored form and something behind it. -/
theorem encode_of_decode {bs : Bytes} {t : Transaction} (h : decode bs = .ok t) :
    ∃ rest, bs = t.encode ++ rest :=
  (Codec.encode_of_read (decode_eq_ok_iff.mp h).2).2

/-- A transaction that was put together is named by its stored form. -/
theorem namedByEncoding_new (unlockTime : UInt64) (inputs : List Input) (outputs : List Output)
    (extra : Bytes) :
    (new unlockTime inputs outputs extra).NamedByEncoding :=
  rfl

end Transaction

namespace Block

/-- Whether a block is named by the digest of its stored form. -/
def NamedByEncoding (b : Block) : Prop := b.hash = .ofContent b.encode

/-- A reward transaction is for a height exactly when minting at this height is its only input. -/
theorem heightOfReward_eq_ok_iff {t : Transaction} {height : UInt64} :
    heightOfReward t = .ok height ↔ t.inputs = [.terminal height] := by
  unfold heightOfReward
  split
  · rename_i found hinputs
    simp [hinputs]
  · rename_i hother
    simp only [reduceCtorEq, false_iff]
    exact hother height

/-- A record and a hash make the block that has both, if its reward is one: a transaction named by its
own form, with minting at the height of the block as its only input. -/
theorem named_eq_ok_iff {hash : BlockHash} {r : BlockRecord} {b : Block} :
    named hash r = .ok b ↔ b.hash = hash ∧ b.toRecord = r ∧
      b.rewardTx.NamedByEncoding ∧ b.rewardTx.inputs = [.terminal b.height] := by
  unfold named
  refine ⟨fun h => ?_, fun hright => ?_⟩
  · obtain ⟨reward, hreward, h⟩ := bind_eq_ok_iff.mp h
    obtain ⟨height, hheight, ⟨⟩⟩ := bind_eq_ok_iff.mp h
    obtain ⟨hname, hrecord⟩ := Transaction.ofRecord_eq_ok_iff.mp hreward
    exact ⟨rfl, by simp [toRecord, hrecord], hname, heightOfReward_eq_ok_iff.mp hheight⟩
  · obtain ⟨rfl, rfl, hname, hinputs⟩ := hright
    refine bind_eq_ok_iff.mpr ⟨b.rewardTx, Transaction.ofRecord_eq_ok_iff.mpr ⟨hname, rfl⟩, ?_⟩
    exact bind_eq_ok_iff.mpr ⟨b.height, heightOfReward_eq_ok_iff.mpr hinputs, rfl⟩

/-- Whether the reward of a block is one: named by its own form, and minting at the block's height. -/
structure RewardFits (b : Block) : Prop where
  named : b.rewardTx.NamedByEncoding
  inputs : b.rewardTx.inputs = [.terminal b.height]

/-- A block that was made from a record has this record, and the digest of its form as name. -/
theorem ofRecord_eq_ok_iff {r : BlockRecord} {b : Block} :
    ofRecord r = .ok b ↔ b.NamedByEncoding ∧ b.toRecord = r ∧ b.RewardFits := by
  rw [ofRecord, named_eq_ok_iff, NamedByEncoding, encode]
  refine ⟨fun hleft => ?_, fun hright => ?_⟩
  · obtain ⟨hhash, rfl, hname, hinputs⟩ := hleft
    exact ⟨hhash, rfl, hname, hinputs⟩
  · obtain ⟨hhash, rfl, hname, hinputs⟩ := hright
    exact ⟨hhash, rfl, hname, hinputs⟩

/-- A block that was read has the record at the front of the bytes, and is named by all of them. -/
theorem decode_eq_ok_iff {bs : Bytes} {b : Block} :
    decode bs = .ok b ↔ b.hash = .ofContent bs ∧ Codec.read bs = .ok b.toRecord ∧ b.RewardFits := by
  unfold decode
  split
  · rename_i e he
    simp [he]
  · rename_i r hr
    rw [named_eq_ok_iff, hr, Except.ok.injEq, eq_comm (a := b.toRecord)]
    refine ⟨fun hleft => ?_, fun hright => ?_⟩
    · obtain ⟨hhash, hrecord, hname, hinputs⟩ := hleft
      exact ⟨hhash, hrecord, hname, hinputs⟩
    · obtain ⟨hhash, hrecord, hname, hinputs⟩ := hright
      exact ⟨hhash, hrecord, hname, hinputs⟩

/-- The stored form of a block that is named by it reads as this block. -/
theorem decode_encode {b : Block} (hfits : Fits b.toRecord) (hname : b.NamedByEncoding)
    (hreward : b.RewardFits) : decode b.encode = .ok b :=
  decode_eq_ok_iff.mpr ⟨hname, Codec.read_encode hfits, hreward⟩

/-- The bytes that a block was read from are its stored form and something behind it. -/
theorem encode_of_decode {bs : Bytes} {b : Block} (h : decode bs = .ok b) :
    ∃ rest, bs = b.encode ++ rest :=
  (Codec.encode_of_read (decode_eq_ok_iff.mp h).2.1).2

end Block

end RingDepth
