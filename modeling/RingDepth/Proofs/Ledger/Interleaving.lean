import Mathlib.Data.List.Flatten
import RingDepth.Proofs.Ledger.Sharing
import RingDepth.Proofs.Store.Overwriting

/-!
# Steps that come in any order

Whatever the order of their steps, callers that share a store leave what the blocks that they wrote add,
each at its own height, and the outputs of all of them in the order of the writes. If that is what some of
the appends leave that are done in turn, then the steps were timely: a block that was written at a height
that is taken is the one that is there, and it has no outputs, so its write left the store as it was.
-/

namespace RingDepth

namespace Holdings

/-- The hashes at the heights after blocks were written one after the other. -/
def putHashes (blocks : List Extension) : List BlockHash :=
  blocks.foldl (fun hashes e => putHash hashes e.block.height.toNat e.block.hash) []

/-- What blocks add to an empty store that are written one after the other, at heights that may be
taken. -/
def ofWrites (blocks : List Extension) : Holdings :=
  { ofChain blocks with hashes := putHashes blocks }

/-- One more block is put at its height. -/
theorem putHashes_concat (blocks : List Extension) (e : Extension) :
    putHashes (blocks ++ [e]) = putHash (putHashes blocks) e.block.height.toNat e.block.hash := by
  rw [putHashes, List.foldl_append]
  rfl

/-- One more block adds to what those before it added. -/
theorem ofWrites_concat (blocks : List Extension) (e : Extension) :
    ofWrites (blocks ++ [e]) = (ofWrites blocks).put e.toWrite := by
  rw [ofWrites, putHashes_concat, ofChain_concat]
  rfl

/-- A block at the next height makes the heights one more. -/
theorem length_putHash (hashes : List BlockHash) (height : ℕ) (hash : BlockHash) :
    (putHash hashes height hash).length =
      if height < hashes.length then hashes.length else hashes.length + 1 := by
  rw [putHash]
  split <;> simp

/-- A hash is found at the height at which it was put, and the others where they were. -/
theorem getElem?_putHash {hashes : List BlockHash} {height : ℕ} (h : height ≤ hashes.length)
    (hash : BlockHash) (i : ℕ) :
    (putHash hashes height hash)[i]? = if i = height then some hash else hashes[i]? := by
  rw [putHash]
  split
  · rename_i hlt
    rw [List.getElem?_set]
    by_cases hi : height = i
    · simp [← hi, hlt]
    · simp [hi, Ne.symm hi]
  · obtain rfl : height = hashes.length := by omega
    exact getElem?_concat hashes hash i

/-- An entry is found under its hash if no other one was put there. -/
theorem foldl_putTransaction_of_unique {entries : List (TxHash × Bytes)} {hash : TxHash}
    {bytes : Bytes} (hmem : (hash, bytes) ∈ entries)
    (hunique : ∀ other, (hash, other) ∈ entries → other = bytes)
    (transactions : TxHash → Option Bytes) :
    entries.foldl putTransaction transactions hash = some bytes := by
  induction entries using List.reverseRecOn with
  | nil => cases hmem
  | append_singleton entries entry ih =>
    rw [List.foldl_append, List.foldl_cons, List.foldl_nil, putTransaction, Function.update_apply]
    split
    · rename_i hsame
      rw [hunique entry.2 (by simp [hsame])]
    · rename_i hother
      obtain hbefore | hlast := List.mem_append.mp hmem
      · exact ih hbefore fun other h => hunique other (List.mem_append_left _ h)
      · obtain rfl := List.mem_singleton.mp hlast
        exact absurd rfl hother

end Holdings

open Holdings (putHash putHashes)

/-- Blocks that were written one after the other, each at the next height or below it. -/
inductive Stacked : List Extension → Prop
  | nil : Stacked []
  | snoc {blocks : List Extension} {e : Extension} (stacked : Stacked blocks)
      (hheight : e.block.height.toNat ≤ (putHashes blocks).length) : Stacked (blocks ++ [e])

/-- The blocks of a valid chain are written behind each other. -/
theorem ValidChain.stacked {checkpoints : Checkpoints} {chain : List Extension}
    (h : ValidChain checkpoints chain) :
    Stacked chain ∧ putHashes chain = chain.map fun e => e.block.hash := by
  induction h with
  | nil => exact ⟨.nil, rfl⟩
  | @snoc chain e valid follows ih =>
    obtain ⟨hstacked, hhashes⟩ := ih
    have hlength : e.block.height.toNat = (putHashes chain).length := by
      rw [hhashes, List.length_map, follows.height]
    refine ⟨hstacked.snoc hlength.le, ?_⟩
    rw [Holdings.putHashes_concat, putHash, if_neg (by omega), hhashes]
    simp

/-- So they leave what the chain adds. -/
theorem ValidChain.ofWrites_eq {checkpoints : Checkpoints} {chain : List Extension}
    (h : ValidChain checkpoints chain) : Holdings.ofWrites chain = .ofChain chain := by
  rw [Holdings.ofWrites, h.stacked.2, ← Holdings.hashes_ofChain]

section Run

variable {ι σ : Type} [Store σ] [Store.Lawful σ] {registries : ι → Checkpoints}
  {before : List Extension} {x : Sharing ι σ}

/-- What callers leave who began with the store of a chain: the store holds what its blocks and those that
they wrote add. Each of them was written at the next height or below it, and so is each that is about to be
written. -/
structure Sharing.Kept (before : List Extension) (x : Sharing ι σ) : Prop where
  represents : Store.Represents x.store (.ofWrites (before ++ x.written))
  stacked : Stacked (before ++ x.written)
  pending : ∀ caller a, x.checked caller = some a →
    a.extension.block.height.toNat ≤ (putHashes (before ++ x.written)).length

/-- A block that extends a ledger has the number of the heights as height. -/
theorem Sharing.Kept.height_of_extends (h : x.Kept before) {caller : ι} {e : Extension}
    (hextends : (x.ledger registries caller).Extends e.block e.transactions) :
    e.block.height.toNat = (putHashes (before ++ x.written)).length := by
  obtain ⟨n, hn, hlength⟩ := (Store.answers h.represents).blockCount
  obtain rfl : n = e.block.height := Except.ok.inj (hn.symm.trans hextends.height)
  exact hlength

/-- One more block makes the number of heights one greater, or leaves it. -/
theorem length_putHashes_concat (blocks : List Extension) (e : Extension) :
    (putHashes (blocks ++ [e])).length =
      if e.block.height.toNat < (putHashes blocks).length then (putHashes blocks).length
      else (putHashes blocks).length + 1 := by
  rw [Holdings.putHashes_concat, Holdings.length_putHash]

/-- Callers begin with the store of a chain. -/
theorem History.Faithful.kept {h : History σ} (hf : h.Faithful) :
    Sharing.Kept h.chain ({ store := h.ledger.store } : Sharing ι σ) where
  represents := by
    rw [List.append_nil, hf.valid.ofWrites_eq]
    exact hf.represents
  stacked := by
    rw [List.append_nil]
    exact hf.valid.stacked.1
  pending _ _ hnone := nomatch hnone

variable [DecidableEq ι]

/-- Every step keeps this. -/
theorem Sharing.Kept.step [Store.Overwriting σ] (h : x.Kept before) (step : SharedStep ι) :
    (x.step registries step).Kept before := by
  have hto := Sharing.stepTo registries x step
  generalize x.step registries step = next at hto
  cases hto with
  | passed hextends =>
    refine ⟨h.represents, h.stacked, fun other a ha => ?_⟩
    obtain ⟨-, rfl⟩ | ⟨-, hheld⟩ := eq_some_of_update_some ha
    · exact (h.height_of_extends hextends).le
    · exact h.pending other a hheld
  | dropped =>
    exact ⟨h.represents, h.stacked, fun other a ha => h.pending other a (eq_some_of_update_none ha).2⟩
  | idle => exact h
  | @wrote caller a s ha hwrite =>
    have hheight := h.pending caller a ha
    constructor
    case represents =>
      rw [← List.append_assoc, Holdings.ofWrites_concat]
      exact Store.Overwriting.represents_put h.represents hheight hwrite
    case stacked =>
      rw [← List.append_assoc]
      exact h.stacked.snoc hheight
    case pending =>
      intro other b hb
      have hbefore := h.pending other b (eq_some_of_update_none hb).2
      rw [← List.append_assoc, length_putHashes_concat]
      split <;> omega

/-- Steps in any order keep it. -/
theorem Sharing.Kept.run [Store.Overwriting σ] (h : x.Kept before) (steps : List (SharedStep ι)) :
    (x.run registries steps).Kept before := by
  induction steps generalizing x with
  | nil => exact h
  | cons step rest ih => exact ih (h.step step)

end Run

/-- The hash of a block tells the block with its transactions. -/
def AppendsDiffer (appends : List Extension) : Prop :=
  ∀ e ∈ appends, ∀ other ∈ appends, e.block.hash = other.block.hash → e = other

/-- It does so among fewer blocks. -/
theorem AppendsDiffer.mono {appends more : List Extension} (h : AppendsDiffer more)
    (hsub : ∀ e ∈ appends, e ∈ more) : AppendsDiffer appends :=
  fun e he other hother hsame => h e (hsub e he) other (hsub other hother) hsame

section Chain

variable {checkpoints : Checkpoints} {chain blocks : List Extension} {e other : Extension}

/-- Blocks of a valid chain with one height are one block. -/
theorem ValidChain.eq_of_height (h : ValidChain checkpoints chain) (he : e ∈ chain)
    (hother : other ∈ chain) (hsame : e.block.height = other.block.height) : e = other :=
  List.inj_on_of_nodup_map h.nodup_heights he hother hsame

/-- Written blocks of a valid chain are found at their heights, and there is one at every height that is
taken. -/
theorem Stacked.heights (h : Stacked blocks) (hsub : ∀ e ∈ blocks, e ∈ chain)
    (valid : ValidChain checkpoints chain) :
    (∀ e ∈ blocks, (putHashes blocks)[e.block.height.toNat]? = some e.block.hash) ∧
      ∀ i < (putHashes blocks).length, ∃ e ∈ blocks, e.block.height.toNat = i := by
  induction h with
  | nil => simp [putHashes]
  | @snoc blocks last stacked hheight ih =>
    obtain ⟨hfound, hplaced⟩ := ih fun e he => hsub e (List.mem_append_left _ he)
    constructor
    · intro e he
      rw [Holdings.putHashes_concat, Holdings.getElem?_putHash hheight]
      split
      · rename_i hsame
        rw [valid.eq_of_height (hsub e he) (hsub last (by simp)) (UInt64.toNat_inj.mp hsame)]
      · rename_i hother
        obtain hbefore | hlast := List.mem_append.mp he
        · exact hfound e hbefore
        · exact absurd (by rw [List.mem_singleton.mp hlast]) hother
    · intro i hi
      by_cases hsame : last.block.height.toNat = i
      · exact ⟨last, by simp, hsame⟩
      · rw [length_putHashes_concat] at hi
        obtain ⟨e, he, hplace⟩ := hplaced i (by split at hi <;> omega)
        exact ⟨e, List.mem_append_left _ he, hplace⟩

/-- Where hashes tell blocks, the last block with the hash of a block is this block. -/
theorem AppendsDiffer.lastNamed? (h : AppendsDiffer blocks) (he : e ∈ blocks) :
    RingDepth.lastNamed? blocks e.block.hash = some e := by
  obtain ⟨last, hlast, hnamed, hhash⟩ := exists_lastNamed? he
  rw [hnamed, h last hlast e he hhash]

/-- Written blocks of a valid chain have their transactions under the hashes of these. -/
theorem ValidChain.transactions_ofChain (valid : ValidChain checkpoints chain)
    (hsub : ∀ e ∈ blocks, e ∈ chain) (he : e ∈ blocks) {t : Transaction} (ht : t ∈ e.confirmed) :
    (Holdings.ofChain blocks).transactions t.hash = some t.encode := by
  have hconfirmed (u : Transaction) (hu : u ∈ confirmedBy blocks) : u ∈ confirmedBy chain := by
    obtain ⟨other, hother, hu⟩ := List.mem_flatMap.mp hu
    exact List.mem_flatMap.mpr ⟨other, hsub other hother, hu⟩
  have htaken : t ∈ confirmedBy blocks := List.mem_flatMap.mpr ⟨e, he, ht⟩
  rw [Holdings.transactions_ofChain]
  apply Holdings.foldl_putTransaction_of_unique
  · exact List.mem_map.mpr ⟨t, htaken, rfl⟩
  · intro bytes hbytes
    obtain ⟨u, hu, hpair⟩ := List.mem_map.mp hbytes
    obtain ⟨hhash, rfl⟩ := Prod.mk.inj hpair
    rw [List.inj_on_of_nodup_map valid.nodup (hconfirmed u hu) (hconfirmed t htaken) hhash]

/-- Of a written block of a valid chain that has no outputs the store has all that it adds. -/
theorem Stacked.has (h : Stacked blocks) (hsub : ∀ e ∈ blocks, e ∈ chain)
    (valid : ValidChain checkpoints chain) (hdiffer : AppendsDiffer blocks) (he : e ∈ blocks)
    (houtputs : e.toWrite.outputs = []) : (Holdings.ofWrites blocks).Has e.toWrite where
  height := (h.heights hsub valid).1 e he
  block := by
    change (Holdings.ofChain blocks).blocks e.block.hash = _
    rw [Holdings.blocks_ofChain, hdiffer.lastNamed? he]
    rfl
  transactions := by
    intro entry hentry
    obtain ⟨t, ht, rfl⟩ := List.mem_map.mp hentry
    exact valid.transactions_ofChain hsub he ht
  outputs := houtputs

/-- Every written block is one of a chain, and one that is written again has no outputs. -/
structure Covers (chain blocks : List Extension) : Prop where
  mem : ∀ e ∈ blocks, e ∈ chain
  again : ∀ front e back, blocks = front ++ e :: back → e ∈ front → e.toWrite.outputs = []

/-- Blocks that were written first are covered as all of them are. -/
theorem Covers.mono {written : List Extension} (h : Covers chain blocks)
    (hearlier : written <+: blocks) : Covers chain written := by
  obtain ⟨later, rfl⟩ := hearlier
  refine ⟨fun e he => h.mem e (List.mem_append_left _ he), fun front e back hsplit hfront => ?_⟩
  apply h.again front e (back ++ later) _ hfront
  rw [hsplit, List.append_assoc, List.cons_append]

/-- A block that creates no output of any amount has no outputs. -/
theorem outputs_eq_nil (h : ∀ amount, (createdBy [e] amount).length = 0) :
    e.toWrite.outputs = [] := by
  apply List.eq_nil_iff_forall_not_mem.mpr
  intro entry hentry
  have hnone := h entry.1
  rw [createdBy, List.flatMap_singleton, ← e.filter_outputs_toWrite, List.length_map,
    List.length_eq_zero_iff, List.filter_eq_nil_iff] at hnone
  exact hnone entry hentry (by simp)

/-- If blocks that include those of a chain create as many outputs as the chain, then what they have more
than the chain has no outputs. -/
theorem covers_of_length_createdBy (hnodup : chain.Nodup) (hmem : ∀ e ∈ blocks, e ∈ chain)
    (hall : ∀ e ∈ chain, e ∈ blocks)
    (hcount : ∀ amount, (createdBy blocks amount).length = (createdBy chain amount).length) :
    Covers chain blocks := by
  refine ⟨hmem, fun front e back hsplit hfront => outputs_eq_nil fun amount => ?_⟩
  -- Without the second writing of the block there are still all blocks of the chain.
  have hsub : chain.Subperm (front ++ back) := by
    refine hnodup.subperm fun other hother => ?_
    have hother := hall other hother
    rw [hsplit, List.mem_append, List.mem_cons] at hother
    obtain hin | rfl | hin := hother
    · exact List.mem_append_left _ hin
    · exact List.mem_append_left _ hfront
    · exact List.mem_append_right _ hin
  have hle : (createdBy chain amount).length ≤ (createdBy (front ++ back) amount).length := by
    obtain ⟨chosen, hperm, hsublist⟩ := hsub
    calc (createdBy chain amount).length
        = (createdBy chosen amount).length := (hperm.flatMap_right _).length_eq.symm
      _ ≤ (createdBy (front ++ back) amount).length := (hsublist.flatMap _).length_le
  have htotal := hcount amount
  simp only [hsplit, createdBy, List.flatMap_append, List.flatMap_cons, List.length_append] at htotal
  simp only [createdBy, List.flatMap_append, List.length_append] at hle
  rw [createdBy, List.flatMap_singleton]
  omega

end Chain

section Same

variable {σ : Type} [Store σ] {s : σ}

/-- A store that answers from two holdings finds the same blocks in both. -/
theorem Store.Answers.blocks_eq {c c' : Holdings} (h : Answers s c) (h' : Answers s c')
    (hash : BlockHash) : c.blocks hash = c'.blocks hash := by
  have hsame := (h.block hash).symm.trans (h'.block hash)
  cases hleft : c.blocks hash <;> cases hright : c'.blocks hash <;>
    simp_all [answer]

/-- It counts the same outputs in both. -/
theorem Store.Answers.length_outputs_eq {c c' : Holdings} (h : Answers s c) (h' : Answers s c')
    (amount : UInt64) : (c.outputs amount).length = (c'.outputs amount).length := by
  obtain ⟨n, hn, hlength⟩ := h.outputCount amount
  obtain ⟨n', hn', hlength'⟩ := h'.outputCount amount
  obtain rfl : n = n' := Except.ok.inj (hn.symm.trans hn')
  rw [← hlength, hlength']

/-- Where hashes tell blocks, the blocks that are found tell the blocks that were written. -/
theorem mem_of_blocks_eq {blocks others : List Extension}
    (hsame : ∀ hash, (Holdings.ofChain blocks).blocks hash = (Holdings.ofChain others).blocks hash)
    (hdiffer : AppendsDiffer (blocks ++ others)) {e : Extension} (he : e ∈ blocks) : e ∈ others := by
  obtain ⟨last, -, hlast, -⟩ := exists_lastNamed? he
  have hfound := hsame e.block.hash
  rw [Holdings.blocks_ofChain, Holdings.blocks_ofChain, hlast, Option.map_some] at hfound
  obtain ⟨other, hother, -⟩ := Option.map_eq_some_iff.mp hfound.symm
  have hmem := List.mem_reverse.mp (List.mem_of_find?_eq_some hother)
  have hhash : other.block.hash = e.block.hash := by simpa using List.find?_some hother
  rw [hdiffer e (List.mem_append_left _ he) other (List.mem_append_right _ hmem) hhash.symm]
  exact hmem

end Same

section Exact

variable {ι σ : Type} [Store σ] [Store.Lawful σ] [Store.Overwriting σ]
  {registries : ι → Checkpoints} {x : Sharing ι σ} {before chain : List Extension}
  {steps : List (SharedStep ι)}

/-- What is about to be written is about to be written to the store that its checks read, unless its height
is taken by now. -/
def Sharing.Fresh (before : List Extension) (x : Sharing ι σ) : Prop :=
  ∀ caller a, x.checked caller = some a → x.store = a.read ∨
    a.extension.block.height.toNat < (putHashes (before ++ x.written)).length

/-- A write at a height that is taken leaves the store as it is, if what is written is covered by a chain. -/
theorem Sharing.Kept.eq_of_writeBlock (hkept : x.Kept before) (valid : ValidChain .empty chain)
    {e : Extension} (hcovers : Covers chain (before ++ x.written ++ [e]))
    (hdiffer : AppendsDiffer (before ++ x.written))
    (htaken : e.block.height.toNat < (putHashes (before ++ x.written)).length) {s : σ}
    (hwrite : Store.writeBlock x.store e.toWrite = .ok s) : s = x.store := by
  have hsub (other : Extension) (hother : other ∈ before ++ x.written) : other ∈ chain :=
    hcovers.mem other (List.mem_append_left _ hother)
  obtain ⟨there, hthere, hheight⟩ := (hkept.stacked.heights hsub valid).2 _ htaken
  obtain rfl : there = e :=
    valid.eq_of_height (hsub there hthere) (hcovers.mem e (by simp)) (UInt64.toNat_inj.mp hheight)
  have hhas := hkept.stacked.has hsub valid hdiffer hthere (hcovers.again _ _ [] rfl hthere)
  exact Store.Overwriting.writeBlock_of_has hkept.represents hhas hwrite

variable [DecidableEq ι]

/-- A step writes to the store that was checked, or leaves it as it is, if what is written is covered. -/
theorem Sharing.Fresh.findsRead (hfresh : x.Fresh before) (hkept : x.Kept before)
    (valid : ValidChain .empty chain) {step : SharedStep ι}
    (hcovers : Covers chain (before ++ (x.step registries step).written))
    (hdiffer : AppendsDiffer (before ++ (x.step registries step).written)) :
    x.FindsRead step := by
  cases step with
  | check caller e => trivial
  | write caller =>
    intro a s ha hwrite
    rw [Sharing.written_step_write ha hwrite, ← List.append_assoc] at hcovers hdiffer
    obtain hread | htaken := hfresh caller a ha
    · exact .inl hread
    · right
      have hdiffer := hdiffer.mono fun e he => List.mem_append_left _ he
      exact hkept.eq_of_writeBlock valid hcovers hdiffer htaken hwrite

/-- Every step keeps that what is about to be written is fresh. -/
theorem Sharing.Fresh.step (hfresh : x.Fresh before) (hkept : x.Kept before)
    (valid : ValidChain .empty chain) {step : SharedStep ι}
    (hcovers : Covers chain (before ++ (x.step registries step).written))
    (hdiffer : AppendsDiffer (before ++ (x.step registries step).written)) :
    (x.step registries step).Fresh before := by
  have hto := Sharing.stepTo registries x step
  generalize x.step registries step = next at hto hcovers hdiffer
  intro other b hb
  cases hto with
  | passed hextends =>
    obtain ⟨-, rfl⟩ | ⟨-, hheld⟩ := eq_some_of_update_some hb
    · exact .inl rfl
    · exact hfresh other b hheld
  | dropped => exact hfresh other b (eq_some_of_update_none hb).2
  | idle => exact hfresh other b hb
  | @wrote caller a s ha hwrite =>
    rw [← List.append_assoc] at hcovers hdiffer
    have hheld := (eq_some_of_update_none hb).2
    have hnext := hkept.pending other b hheld
    simp only [← List.append_assoc, length_putHashes_concat]
    by_cases htaken : a.extension.block.height.toNat < (putHashes (before ++ x.written)).length
    · -- The write left the store and the heights as they were.
      have hdiffer := hdiffer.mono fun e he => List.mem_append_left _ he
      rw [hkept.eq_of_writeBlock valid hcovers hdiffer htaken hwrite, if_pos htaken]
      exact hfresh other b hheld
    · right
      rw [if_neg htaken]
      omega

/-- Steps are timely if all that is written is covered by a chain. -/
theorem Sharing.Fresh.timely (hfresh : x.Fresh before) (hkept : x.Kept before)
    (valid : ValidChain .empty chain)
    (hcovers : Covers chain (before ++ (x.run registries steps).written))
    (hdiffer : AppendsDiffer (before ++ (x.run registries steps).written)) :
    x.Timely registries steps := by
  induction steps generalizing x with
  | nil => trivial
  | cons step rest ih =>
    have hearlier : before ++ (x.step registries step).written <+:
        before ++ ((x.step registries step).run registries rest).written :=
      (List.prefix_append_right_inj _).mpr (Sharing.written_prefix_run registries _ rest)
    have hcovers' := hcovers.mono hearlier
    have hdiffer' := hdiffer.mono fun e he => hearlier.subset he
    constructor
    · exact hfresh.findsRead hkept valid hcovers' hdiffer'
    · exact ih (hfresh.step hkept valid hcovers' hdiffer') (hkept.step step) hcovers hdiffer

/-- If steps leave what appends in turn leave, then what is written is covered by these. -/
theorem InTurn.covers {h : History σ} (hf : h.Faithful)
    (hdiffer : AppendsDiffer (h.chain ++ (begun steps).map Prod.snd)) {order : List (ι × Extension)}
    (hin : InTurn registries h steps order) :
    Covers (h.chain ++ order.map Prod.snd)
      (h.chain ++ (Sharing.run registries { store := h.ledger.store } steps).written) := by
  have hgrown := faithful_appendInTurn hf.unpinned hin.accepted
  have hkept : (Sharing.run registries { store := h.ledger.store } steps).Kept h.chain :=
    hf.kept.run steps
  have hanswers := Store.answers hkept.represents
  have hblocks := hanswers.blocks_eq hgrown.answers
  have hall : AppendsDiffer ((h.chain ++ (Sharing.run registries { store := h.ledger.store }
      steps).written) ++ (h.chain ++ order.map Prod.snd)) := by
    apply hdiffer.mono
    intro e he
    simp only [List.mem_append] at he ⊢
    obtain (hbefore | hwritten) | hbefore | hin' := he
    · exact .inl hbefore
    · exact .inr (Sharing.mem_written_start hwritten)
    · exact .inl hbefore
    · obtain ⟨p, hp, rfl⟩ := List.mem_map.mp hin'
      exact .inr (List.mem_map.mpr ⟨p, hin.subset.subset hp, rfl⟩)
  apply covers_of_length_createdBy
  · exact hgrown.valid.nodup_heights.of_map
  · exact fun e he => mem_of_blocks_eq hblocks hall he
  · refine fun e he => mem_of_blocks_eq (fun hash => (hblocks hash).symm) (hall.mono ?_) he
    intro other hother
    exact List.mem_append.mpr (List.mem_append.mp hother).symm
  · intro amount
    rw [← Holdings.outputs_ofChain, ← Holdings.outputs_ofChain]
    exact hanswers.length_outputs_eq hgrown.answers amount

/-- Steps that leave what appends in turn leave are timely, if the hash of a block tells the block with its
transactions. -/
theorem InTurn.timely {h : History σ} (hf : h.Faithful)
    (hdiffer : AppendsDiffer (h.chain ++ (begun steps).map Prod.snd)) {order : List (ι × Extension)}
    (hin : InTurn registries h steps order) :
    Sharing.Timely registries { store := h.ledger.store } steps := by
  have hgrown := faithful_appendInTurn hf.unpinned hin.accepted
  have hfresh : Sharing.Fresh h.chain ({ store := h.ledger.store } : Sharing ι σ) :=
    fun _ _ hnone => nomatch hnone
  apply hfresh.timely hf.kept hgrown.valid (hin.covers hf hdiffer)
  apply hdiffer.mono
  intro e he
  obtain hbefore | hwritten := List.mem_append.mp he
  · exact List.mem_append_left _ hbefore
  · exact List.mem_append_right _ (Sharing.mem_written_start hwritten)

end Exact

/-- Steps of callers leave what some of their appends leave that are done in turn if they are timely, and
only then if the hash of a block tells the block with its transactions. -/
structure ExactlyIfTimely {ι σ : Type} [DecidableEq ι] [Store σ] (registries : ι → Checkpoints)
    (h : History σ) (steps : List (SharedStep ι)) : Prop where
  inTurn : Sharing.Timely registries { store := h.ledger.store } steps →
    ∃ order, InTurn registries h steps order
  timely : AppendsDiffer (h.chain ++ (begun steps).map Prod.snd) →
    (∃ order, InTurn registries h steps order) →
      Sharing.Timely registries { store := h.ledger.store } steps

/-- Over stores that overwrite, timely steps are exactly those that leave what appends in turn leave. -/
theorem History.Faithful.exactlyIfTimely {ι σ : Type} [DecidableEq ι] [Store σ] [Store.Lawful σ]
    [Store.Overwriting σ] {h : History σ} (hf : h.Faithful) (registries : ι → Checkpoints)
    (steps : List (SharedStep ι)) : ExactlyIfTimely registries h steps where
  inTurn htimely := htimely.exists_inTurn hf
  timely hdiffer hin := by
    obtain ⟨order, hin⟩ := hin
    exact hin.timely hf hdiffer

/-- Callers share the store that any run from an empty one left. Steps that are timely leave what some of
their appends leave that are done in turn. Over a store in memory and over a ledger directory no other steps
do, if the hash of a block tells the block with its transactions. -/
theorem shared_appends_inTurn {ι : Type} [DecidableEq ι] (checkpoints : Checkpoints)
    (calls : List LedgerCall) (registries : ι → Checkpoints) (steps : List (SharedStep ι)) :
    (∀ metadata failWrites, ExactlyIfTimely registries
      (Ledger.run { store := ({ metadata, failWrites } : Memory), checkpoints } calls) steps) ∧
    (∀ metadata readOnly, ExactlyIfTimely registries
      (Ledger.run { store := ({ tables := { metadata }, readOnly } : Environment), checkpoints } calls)
      steps) ∧
    InEveryRun checkpoints calls fun h =>
      Sharing.Timely registries { store := h.ledger.store } steps →
        ∃ order, InTurn registries h steps order := by
  refine ⟨fun metadata failWrites => ?memory, fun metadata readOnly => ?environment, ?all⟩
  case memory =>
    have hf := Ledger.faithful_run (l := { store := ({ metadata, failWrites } : Memory), checkpoints })
      (Memory.represents_empty metadata failWrites) calls
    exact hf.exactlyIfTimely registries steps
  case environment =>
    have hf := Ledger.faithful_run
      (l := { store := ({ tables := { metadata }, readOnly } : Environment), checkpoints })
      (Tables.represents_empty metadata) calls
    exact hf.exactlyIfTimely registries steps
  case all =>
    exact inEveryRun_of_faithful fun _ hf _ _ htimely => htimely.exists_inTurn hf

/-- Two callers that append two blocks. The second one is refused while the first one is not written, and
is checked again after that. -/
def alternating : List (SharedStep Bool) :=
  [.check false lower, .check true upper, .write false, .check true upper, .write true]

/-- What they leave is what the two appends leave in turn, and the store has both blocks. -/
theorem inTurn_alternating :
    Sharing.Timely (fun _ : Bool => {}) { store := ({} : Memory) } alternating ∧
      AppendsDiffer ((begun alternating).map Prod.snd) ∧
      (∃ order, InTurn (fun _ : Bool => {}) (Ledger.run { store := ({} : Memory) } []) alternating order) ∧
      Store.blockCount (Sharing.run (fun _ : Bool => {}) { store := ({} : Memory) } alternating).store =
        .ok 2 := by
  have htimely : Sharing.Timely (fun _ : Bool => {}) { store := ({} : Memory) } alternating :=
    Sharing.timely_of_undisturbed [] (fun _ hnone => nomatch hnone) (by decide)
  have hexact := (shared_appends_inTurn {} [] (fun _ : Bool => {}) alternating).1 ∅ false
  have hdiffer : AppendsDiffer ((begun alternating).map Prod.snd) := by
    unfold AppendsDiffer
    decide +kernel
  exact ⟨htimely, hdiffer, hexact.inTurn htimely, by decide +kernel⟩

/-- Two callers that append one block to an empty store. Both do their checks before either writes. -/
def racing : List (SharedStep Bool) :=
  [.check false lower, .check true lower, .write false, .write true]

/-- Of appends of one block at most one is accepted in turn. -/
theorem InTurn.length_le_one {ι σ : Type} [DecidableEq ι] [Store σ] {registries : ι → Checkpoints}
    {h : History σ} {steps : List (SharedStep ι)} {order : List (ι × Extension)} {e : Extension}
    (hin : InTurn registries h steps order) (hall : ∀ p ∈ begun steps, p.2 = e) : order.length ≤ 1 := by
  match order, hin with
  | [], _ => simp
  | [_], _ => simp
  | p :: q :: rest, hin =>
    have hp := hall p (hin.subset.subset (by simp))
    have hq := hall q (hin.subset.subset (by simp))
    have hheights := hin.heights
    simp [hp, hq, List.nodup_append] at hheights

/-- A store that counts two outputs of an amount of which the block creates one has not taken it in turn. -/
theorem appendInTurn_ne_of_outputCount {σ : Type} [Store σ] [Store.Lawful σ] {s : σ}
    (hempty : Store.Represents s .empty)
    (hcount : Store.outputCount (Sharing.run (fun _ : Bool => {}) { store := s } racing).store 5 =
      .ok 2) (order : List (Bool × Extension)) (hsubset : order.Subperm (begun racing)) :
    appendInTurn (fun _ => {}) s order ≠
      .ok (Sharing.run (fun _ => {}) { store := s } racing).store := by
  intro haccepted
  have hf : History.Faithful { chain := [], ledger := { store := s } } := ⟨.nil, hempty⟩
  have hin := inTurn_of_accepted hf (fun p hp => hsubset.subset hp) haccepted
  have hall : ∀ p ∈ begun racing, p.2 = lower := by decide +kernel
  obtain ⟨n, hn, hlength⟩ := hin.numbered.count 5
  obtain rfl : 2 = n := Except.ok.inj (hcount.symm.trans hn)
  have htwo : (createdBy (order.map Prod.snd) 5).length = 2 := hlength.symm
  have hone := hin.length_le_one hall
  match order, hin with
  | [], _ => cases htwo
  | [p], hin =>
    have hp : p.2 = lower := hall p (hin.subset.subset (by simp))
    rw [List.map_singleton, hp] at htwo
    exact absurd htwo (by decide +kernel)

/-- What they leave is not what some of their appends leave that are done in turn: the store counts two
outputs of an amount of which the block creates one. -/
theorem not_inTurn_racing :
    (∀ order : List (Bool × Extension), order.Subperm (begun racing) →
      appendInTurn (fun _ => {}) ({} : Memory) order ≠
        .ok (Sharing.run (fun _ => {}) { store := ({} : Memory) } racing).store) ∧
    ∀ order : List (Bool × Extension), order.Subperm (begun racing) →
      appendInTurn (fun _ => {}) ({} : Environment) order ≠
        .ok (Sharing.run (fun _ => {}) { store := ({} : Environment) } racing).store :=
  ⟨appendInTurn_ne_of_outputCount (Memory.represents_empty ∅ false) (by decide +kernel),
    appendInTurn_ne_of_outputCount (Tables.represents_empty ∅) (by decide +kernel)⟩

end RingDepth
