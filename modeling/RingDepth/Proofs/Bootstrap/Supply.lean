import RingDepth.Bootstrap.Transfer
import RingDepth.Proofs.Bootstrap.Writer
import RingDepth.Proofs.Ledger.Stability

/-!
# The packages that a store supplies

An export asks a store for the blocks at some heights, one after the other, and for the transactions that
they list. It goes on as long as the store supplies them: what it adds to its file are the packages of as many
heights as were asked for, or of those before the first that the store could not supply.
-/

namespace RingDepth

/-- Whether packages belong to heights one after the other, from a height on, without a gap and none
twice. -/
def GapFree (belongs : UInt64 → BlockPackage → Prop) (first : ℕ) (packages : List BlockPackage) : Prop :=
  ∀ i p, packages[i]? = some p → ∃ height : UInt64, height.toNat = first + i ∧ belongs height p

namespace GapFree

variable {belongs other : UInt64 → BlockPackage → Prop} {first : ℕ} {packages more : List BlockPackage}

/-- No packages belong to no heights. -/
theorem nil (belongs : UInt64 → BlockPackage → Prop) (first : ℕ) : GapFree belongs first [] :=
  fun i p h => by simp at h

/-- The package of a height comes in front of those that follow. -/
theorem cons {height : UInt64} {p : BlockPackage} (hp : belongs height p)
    (h : GapFree belongs (height.toNat + 1) packages) : GapFree belongs height.toNat (p :: packages) := by
  intro i q hq
  cases i with
  | zero =>
    obtain rfl : p = q := by simpa using hq
    exact ⟨height, rfl, hp⟩
  | succ i =>
    obtain ⟨next, hnext, hbelongs⟩ := h i q (by simpa using hq)
    exact ⟨next, by omega, hbelongs⟩

/-- More packages go on where some end. -/
theorem append (h : GapFree belongs first packages)
    (hmore : GapFree belongs (first + packages.length) more) :
    GapFree belongs first (packages ++ more) := by
  intro i p hp
  by_cases hi : i < packages.length
  · rw [List.getElem?_append_left hi] at hp
    exact h i p hp
  · rw [List.getElem?_append_right (Nat.le_of_not_lt hi)] at hp
    obtain ⟨height, hheight, hbelongs⟩ := hmore _ p hp
    exact ⟨height, by omega, hbelongs⟩

/-- The first of some packages belong to heights as all of them do. -/
theorem take (h : GapFree belongs first packages) (n : ℕ) : GapFree belongs first (packages.take n) := by
  intro i p hp
  rw [List.getElem?_take] at hp
  split at hp
  · exact h i p hp
  · cases hp

/-- What belongs to heights in one way does so in every wider one. -/
theorem imp (h : GapFree belongs first packages) (himp : ∀ height p, belongs height p → other height p) :
    GapFree other first packages := by
  intro i p hp
  obtain ⟨height, hheight, hbelongs⟩ := h i p hp
  exact ⟨height, hheight, himp height p hbelongs⟩

end GapFree

section

variable {σ τ : Type} [Store σ] [Store τ] {s : σ} {s' : τ}

/-- Whether a package holds the record of the block that a store has at a height, and those of the
transactions that the block lists, in the order of the list. -/
structure BlockPackage.StoredAt (p : BlockPackage) (s : σ) (height : UInt64) : Prop where
  block : ∃ bytes, Store.blockAt s height = .ok bytes ∧ readRecord BlockRecord bytes = .ok p.block
  transactions : List.Forall₂
    (fun hash r => ∃ bytes, Store.transaction s hash = .ok bytes ∧ readRecord TxRecord bytes = .ok r)
    p.block.txHashes p.transactions

/-- A package that is stored is still stored where all is found again. -/
theorem BlockPackage.StoredAt.keptBy {p : BlockPackage} {height : UInt64} (h : p.StoredAt s height)
    (hkept : Store.KeptBy s s') : p.StoredAt s' height where
  block := by
    obtain ⟨bytes, hbytes, hread⟩ := h.block
    exact ⟨bytes, hkept.blockAt hbytes, hread⟩
  transactions := h.transactions.imp fun hash r hr => by
    obtain ⟨bytes, hbytes, hread⟩ := hr
    exact ⟨bytes, hkept.transaction hbytes, hread⟩

/-- The lengths in a record that was read can be written. -/
theorem fits_of_readRecord {α : Type} [Codec α] [Codec.Lawful α] {bytes : Bytes} {x : α}
    (h : readRecord α bytes = .ok x) : Codec.Fits x :=
  (Codec.encode_of_read (mapError_eq_ok_iff.mp h)).1

/-- The lengths in a package that is stored can be written. -/
theorem BlockPackage.StoredAt.fits {p : BlockPackage} {height : UInt64} (h : p.StoredAt s height) :
    Codec.Fits p := by
  obtain ⟨bytes, -, hblock⟩ := h.block
  have hfits : Codec.Fits p.block := fits_of_readRecord hblock
  have hlisted : Codec.Fits p.block.txHashes := hfits.2.2.2.2.2.2
  refine ⟨hfits, ?_, ?_⟩
  · change p.transactions.length < 2 ^ 64
    rw [← h.transactions.length_eq]
    exact hlisted.1
  · intro r hr
    obtain ⟨i, hi, rfl⟩ := List.getElem_of_mem hr
    obtain ⟨bytes, -, hread⟩ := h.transactions.get (h.transactions.length_eq ▸ hi) hi
    exact fits_of_readRecord hread

namespace Export

/-- A package is fetched exactly if it is stored at the height. -/
theorem packageAt_eq_ok_iff {height : UInt64} {p : BlockPackage} :
    packageAt s height = .ok p ↔ p.StoredAt s height := by
  constructor
  · intro h
    obtain ⟨bytes, hbytes, h⟩ := bind_eq_ok_iff.mp h
    obtain ⟨block, hblock, h⟩ := bind_eq_ok_iff.mp h
    obtain ⟨transactions, htransactions, heq⟩ := bind_eq_ok_iff.mp h
    obtain rfl := Except.ok.inj heq
    refine ⟨⟨bytes, mapError_eq_ok_iff.mp hbytes, hblock⟩, ?_⟩
    refine (mapM_eq_ok_iff.mp htransactions).imp fun hash r hr => ?_
    obtain ⟨bytes, hbytes, hread⟩ := bind_eq_ok_iff.mp hr
    exact ⟨bytes, mapError_eq_ok_iff.mp hbytes, hread⟩
  · intro h
    obtain ⟨bytes, hbytes, hblock⟩ := h.block
    refine bind_eq_ok_iff.mpr ⟨bytes, mapError_eq_ok_iff.mpr hbytes, ?_⟩
    refine bind_eq_ok_iff.mpr ⟨p.block, hblock, bind_eq_ok_iff.mpr ⟨p.transactions, ?_, rfl⟩⟩
    refine mapM_eq_ok_iff.mpr (h.transactions.imp fun hash r hr => ?_)
    obtain ⟨bytes, hbytes, hread⟩ := hr
    exact bind_eq_ok_iff.mpr ⟨bytes, mapError_eq_ok_iff.mpr hbytes, hread⟩

/-- Whether packages are stored at heights one after the other, from a height on. -/
def Supplies (s : σ) (first : ℕ) (packages : List BlockPackage) : Prop :=
  GapFree (fun height p => p.StoredAt s height) first packages

namespace Supplies

variable {first : ℕ} {packages : List BlockPackage}

/-- Packages that are stored are still stored where all is found again. -/
theorem keptBy (h : Supplies s first packages) (hkept : Store.KeptBy s s') : Supplies s' first packages :=
  h.imp fun _ _ hp => hp.keptBy hkept

/-- The lengths in packages that are stored can be written. -/
theorem fits (h : Supplies s first packages) {p : BlockPackage} (hp : p ∈ packages) : Codec.Fits p := by
  obtain ⟨i, hi⟩ := List.getElem?_of_mem hp
  obtain ⟨height, -, hstored⟩ := h i p hi
  exact hstored.fits

end Supplies

/-- Whether all packages that a store supplies one after the other may be read, as long as they go into one
chunk. -/
def ChunksFit (s : σ) : Prop := ∀ first packages, Supplies s first packages → RunsFit packages

/-- What an export adds to a file before it ends: the packages of all heights that it asks for, or of those
before the first that is not supplied. -/
theorem writeBlocks_adding {start : Bytes} {before : List BlockPackage} {blocks : ℕ} {height : UInt64}
    {w : BootstrapWriter} (hw : w.Adding start before) (hnext : w.nextHeight = height)
    (hroom : height.toNat + blocks < UInt64.size) :
    ∃ added, Supplies s height.toNat added ∧
      (writeBlocks s blocks height w).1.Adding start (before ++ added) ∧
      ((writeBlocks s blocks height w).2 = .ok () ∧ added.length = blocks ∨
        added.length < blocks ∧ ∃ next e, UInt64.toNat next = height.toNat + added.length ∧
          packageAt s next = .error e ∧ (writeBlocks s blocks height w).2 = .error (.failure e)) := by
  induction blocks generalizing height w before with
  | zero => exact ⟨[], .nil _ _, (List.append_nil before).symm ▸ hw, .inl ⟨rfl, rfl⟩⟩
  | succ blocks ih =>
    rw [writeBlocks]
    cases hpackage : packageAt s height with
    | error e =>
      refine ⟨[], .nil _ _, (List.append_nil before).symm ▸ hw, .inr ⟨Nat.succ_pos blocks, ?_⟩⟩
      exact ⟨height, e, rfl, hpackage, rfl⟩
    | ok p =>
      have hheight : (height + 1).toNat = height.toNat + 1 := Ledger.toNat_above (by omega)
      obtain ⟨w', happend⟩ := w.exists_append p (by rw [hnext]; omega)
      obtain ⟨-, hraised, -⟩ := hw.holds.append happend
      have hnext' : w'.nextHeight = height + 1 := by
        rw [← UInt64.toNat_inj, hraised, hnext, hheight]
      obtain ⟨added, hsupplied, hadding, hend⟩ := ih (hw.append happend) hnext' (by omega)
      rw [hheight] at hsupplied hend
      rw [List.append_assoc, List.singleton_append] at hadding
      simp only [happend]
      refine ⟨p :: added, .cons (packageAt_eq_ok_iff.mp hpackage) hsupplied, hadding, ?_⟩
      rw [List.length_cons]
      obtain ⟨hdone, hlength⟩ | ⟨hlength, next, e, hfailed, hbroken⟩ := hend
      · exact .inl ⟨hdone, by omega⟩
      · exact .inr ⟨by omega, next, e, by omega, hbroken⟩

end Export

end

end RingDepth
