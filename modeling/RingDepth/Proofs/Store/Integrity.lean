import Mathlib.Data.List.Perm.Subperm
import RingDepth.Proofs.Ledger.Run
import RingDepth.Store.Integrity

/-!
# The check of a ledger directory is exact

A check walks the height index once, in the order of its keys, and finds nothing wrong exactly if the keys are the
numbers from zero on, whatever else the tables hold. Numbers of eight bytes walk in numeric order, so that the keys of
an index without gaps are met one after the other. In any other index the walk stops: a key of another length is no
number, wherever among the numbers it stands, and without such keys some number is not the next one.

In an index without gaps the number of blocks is that of its entries, and a lookup by height finds an entry exactly
below it. Ledgers write no other index.
-/

namespace RingDepth

namespace Tables

variable {t : Tables} {keys : List Bytes} {n : ℕ}

/-- The key of a number of 64 bits is written from the lowest eight bytes. -/
theorem numberKey_ofNat (n : ℕ) : numberKey (UInt64.ofNat n) = Bytes.bigEndian 8 n :=
  Bytes.bigEndian_mod 8 n

/-- A key reads as a number exactly if it is the key of this number. -/
theorem number?_eq_some_iff {key : Bytes} {n : UInt64} : number? key = some n ↔ key = numberKey n := by
  refine ⟨fun h => ?_, fun h => ?_⟩
  · rw [number?] at h
    split_ifs at h with hlength
    obtain rfl := Option.some.inj h
    rw [numberKey_ofNat, ← hlength, Bytes.bigEndian_ofBigEndian]
  · rw [h, number?_numberKey]

/-- A walk that expects a number finds nothing wrong exactly if the keys are those of the numbers from it on. -/
theorem heightFault?_eq_none_iff {start : ℕ} :
    heightFault? (UInt64.ofNat start) keys = none ↔
      keys = (List.range' start keys.length).map (Bytes.bigEndian 8) := by
  induction keys generalizing start with
  | nil => exact iff_of_true rfl rfl
  | cons key rest ih =>
    rw [List.length_cons, List.range'_succ, List.map_cons, List.cons.injEq, ← ih, ← numberKey_ofNat,
      ← number?_eq_some_iff, UInt64.ofNat_add, heightFault?]
    cases number? key with
    | none => simp
    | some found =>
      dsimp only
      split_ifs with hfound <;> simp [hfound]

/-- Where a number is left out, the next key is found in its place. -/
example : heightFault? 0 [numberKey 0, numberKey 2] = some (.gap 1 2) := by decide +kernel

/-- The numbers below `n` are different keys exactly if 64 bits hold all of them. -/
theorem nodup_map_bigEndian_iff :
    ((List.range n).map (Bytes.bigEndian 8)).Nodup ↔ n ≤ UInt64.size := by
  rw [List.nodup_map_iff_inj_on List.nodup_range]
  refine ⟨fun h => ?_, fun h i hi j hj hij => ?_⟩
  · by_contra hn
    have hzero := h 0 (List.mem_range.mpr (by omega)) UInt64.size (List.mem_range.mpr (by omega))
      (Bytes.bigEndian_mod 8 UInt64.size)
    exact absurd hzero (by decide)
  · have hread := congrArg Bytes.ofBigEndian hij
    have hi' : i < 256 ^ 8 := (List.mem_range.mp hi).trans_le h
    have hj' : j < 256 ^ 8 := (List.mem_range.mp hj).trans_le h
    rwa [Bytes.ofBigEndian_bigEndian, Bytes.ofBigEndian_bigEndian, Nat.mod_eq_of_lt hi', Nat.mod_eq_of_lt hj'] at hread

/-- As many numbers as 64 bits hold are in the order of their keys. -/
theorem pairwise_map_bigEndian (h : n ≤ UInt64.size) :
    ((List.range n).map (Bytes.bigEndian 8)).Pairwise fun a b => compare a b = .lt := by
  rw [List.pairwise_map]
  refine List.pairwise_lt_range.imp_of_mem fun {i j} _ hj hij => ?_
  exact Bytes.compare_bigEndian_of_lt hij ((List.mem_range.mp hj).trans_le h)

/-- Keys in order are those of the first numbers exactly if they are the same keys. -/
theorem eq_map_range_iff (hordered : keys.Pairwise fun a b => compare a b = .lt) :
    keys = (List.range keys.length).map (Bytes.bigEndian 8) ↔
      ∀ key, key ∈ keys ↔ ∃ i < keys.length, key = Bytes.bigEndian 8 i := by
  refine ⟨fun h key => ?_, fun h => ?_⟩
  · conv_lhs => rw [h]
    simp only [List.mem_map, List.mem_range, eq_comm]
  · have hnodup : keys.Nodup := hordered.imp fun {a b} hlt heq => by
      subst heq
      have hself : compare a a = .eq := Std.ReflCmp.compare_self
      rw [hself] at hlt
      cases hlt
    have hsubset : keys ⊆ (List.range keys.length).map (Bytes.bigEndian 8) := by
      intro key hkey
      obtain ⟨i, hi, rfl⟩ := (h key).mp hkey
      exact List.mem_map_of_mem (List.mem_range.mpr hi)
    -- As there are as many keys as numbers, the numbers are different keys too, and few enough to be in order.
    have hperm := (List.subperm_of_subset hnodup hsubset).perm_of_length_le (by simp)
    have hnumbers := pairwise_map_bigEndian (nodup_map_bigEndian_iff.mp (hperm.nodup_iff.mp hnodup))
    refine List.Perm.eq_of_pairwise (fun a b _ _ hab hba => ?_) hordered hnumbers hperm
    have hgt : compare a b = .gt := Std.OrientedCmp.gt_of_lt hba
    rw [hab] at hgt
    cases hgt

/-- Whether the keys of the height index are the numbers from zero on, as many as it has entries. -/
def CountsHeights (t : Tables) : Prop :=
  ∀ key, key ∈ t.blockHeights ↔ ∃ i < t.blockHeights.size, key = Bytes.bigEndian 8 i

/-- An index counts heights exactly if its keys, in their order, are those of the first numbers. -/
theorem countsHeights_iff_keys :
    t.CountsHeights ↔ t.blockHeights.keys = (List.range t.blockHeights.keys.length).map (Bytes.bigEndian 8) := by
  rw [eq_map_range_iff Std.ExtTreeMap.ordered_keys, CountsHeights]
  simp only [Std.ExtTreeMap.mem_keys, Std.ExtTreeMap.length_keys]

/-- A check finds nothing wrong exactly if the keys of the height index are the numbers from zero on. -/
theorem isHealthy_checkIntegrity_iff : t.checkIntegrity.isHealthy ↔ t.CountsHeights := by
  have hwalk : t.checkIntegrity.isHealthy ↔ heightFault? (UInt64.ofNat 0) t.blockHeights.keys = none := by
    rw [IntegrityReport.isHealthy, checkIntegrity, List.isEmpty_iff, Option.toList_eq_nil_iff]
    rfl
  rw [hwalk, heightFault?_eq_none_iff, ← List.range_eq_range', countsHeights_iff_keys]

/-- An index that counts heights has no more entries than there are numbers of 64 bits. -/
theorem CountsHeights.size_le (h : t.CountsHeights) : t.blockHeights.size ≤ UInt64.size := by
  have hnodup : t.blockHeights.keys.Nodup := Std.ExtTreeMap.nodup_keys
  rw [countsHeights_iff_keys.mp h, nodup_map_bigEndian_iff, Std.ExtTreeMap.length_keys] at hnodup
  exact hnodup

/-- In an index that counts heights there is an entry for a height exactly if it is below the number of entries. -/
theorem CountsHeights.numberKey_mem_iff (h : t.CountsHeights) {height : UInt64} :
    numberKey height ∈ t.blockHeights ↔ height.toNat < t.blockHeights.size := by
  rw [h (numberKey height)]
  refine ⟨fun hmem => ?_, fun hlt => ⟨height.toNat, hlt, rfl⟩⟩
  obtain ⟨i, hi, hkey⟩ := hmem
  rw [← numberKey_ofNat] at hkey
  rw [numberKey_injective hkey, UInt64.toNat_ofNat']
  exact (Nat.mod_le i _).trans_lt hi

/-- Tables that hold the blocks of a chain count their heights. -/
theorem Represents.countsHeights {c : Holdings} (h : t.Represents c) : t.CountsHeights := by
  have hnumbers : (List.range t.blockHeights.size).map (Bytes.bigEndian 8) ⊆ t.blockHeights.keys := by
    intro key hkey
    obtain ⟨i, hi, rfl⟩ := List.mem_map.mp hkey
    have hsize := List.mem_range.mp hi
    have hi64 : (UInt64.ofNat i).toNat = i := UInt64.toNat_ofNat_of_lt' (hsize.trans h.room)
    rw [Std.ExtTreeMap.mem_keys, ← numberKey_ofNat, Std.ExtTreeMap.mem_iff_isSome_getElem?, h.heights]
    simpa [hi64, ← h.size] using hsize
  -- There is one entry for each block, so that there is no room for keys that are no heights.
  have hperm := (List.subperm_of_subset (nodup_map_bigEndian_iff.mpr h.room.le) hnumbers).perm_of_length_le
    (by rw [Std.ExtTreeMap.length_keys, List.length_map, List.length_range])
  intro key
  rw [← Std.ExtTreeMap.mem_keys, ← hperm.mem_iff]
  simp only [List.mem_map, List.mem_range, eq_comm]

end Tables

namespace Environment

variable {e : Environment}

/-- A lookup by height misses exactly if there is no entry for the height. -/
theorem blockHash_eq_notFound_iff {height : UInt64} {sought : Missing} :
    Store.blockHash e height = .error (.notFound sought) ↔
      Tables.numberKey height ∉ e.tables.blockHeights ∧ sought = .height height := by
  change blockHash e height = _ ↔ _
  rw [blockHash, find, Std.ExtTreeMap.mem_iff_isSome_getElem?]
  cases e.tables.blockHeights[Tables.numberKey height]? with
  | none => simp [bind, Except.bind, eq_comm]
  | some bytes =>
    cases hbytes : (Identifier.ofBytes? bytes : Option BlockHash) <;>
      simp [bind, Except.bind, hbytes, pure, Except.pure, throw, throwThe, MonadExceptOf.throw]

variable (e) in
/-- Whether the check of a directory says exactly what there is to say about its height index. It finds
nothing wrong exactly if the keys are the numbers from zero on, and then no lookup of a height below their
number misses, and all others do. What it counts are the entries of the six databases. -/
structure CheckedExactly : Prop where
  healthy_iff : e.tables.checkIntegrity.isHealthy ↔ e.tables.CountsHeights
  count : e.tables.checkIntegrity.isHealthy → ∃ n, Store.blockCount e = .ok n ∧
    (n.toNat = e.tables.blockHeights.size ∨ e.tables.blockHeights.size = UInt64.size)
  found : e.tables.checkIntegrity.isHealthy → ∀ height, height.toNat < e.tables.blockHeights.size →
    ∀ sought, Store.blockHash e height ≠ .error (.notFound sought)
  missing : e.tables.checkIntegrity.isHealthy → ∀ height, e.tables.blockHeights.size ≤ height.toNat →
    Store.blockHash e height = .error (.notFound (.height height))
  entries : e.tables.checkIntegrity.entries =
    e.tables.blocks.size + e.tables.blockHeights.size + e.tables.transactions.size + e.tables.outputs.size +
      e.tables.outputCounts.size + e.tables.metadata.size

/-- The check of every directory is exact. -/
theorem checkedExactly (e : Environment) : e.CheckedExactly where
  healthy_iff := Tables.isHealthy_checkIntegrity_iff
  count h := by
    refine ⟨UInt64.ofNat e.tables.blockHeights.size, rfl, ?_⟩
    have hsize := (Tables.isHealthy_checkIntegrity_iff.mp h).size_le
    rcases hsize.lt_or_eq with hlt | heq
    · exact .inl (UInt64.toNat_ofNat_of_lt' hlt)
    · exact .inr heq
  found h height hlt sought hmiss :=
    (blockHash_eq_notFound_iff.mp hmiss).1 ((Tables.isHealthy_checkIntegrity_iff.mp h).numberKey_mem_iff.mpr hlt)
  missing h height hge :=
    blockHash_eq_notFound_iff.mpr
      ⟨fun hmem => Nat.not_lt.mpr hge ((Tables.isHealthy_checkIntegrity_iff.mp h).numberKey_mem_iff.mp hmem), rfl⟩
  entries := by simp [Tables.checkIntegrity, Database.all, Tables.table]

end Environment

/-- The check of every directory is exact, whatever its tables hold. After every run of a ledger from an empty
directory, reached through a memory map or not, it finds nothing wrong. -/
theorem checkIntegrity_exact :
    (∀ e : Environment, e.CheckedExactly) ∧
    (∀ checkpoints calls metadata readOnly,
      let l : Ledger Environment := { store := { tables := { metadata }, readOnly }, checkpoints }
      (l.run calls).ledger.store.tables.checkIntegrity.isHealthy) ∧
    ∀ checkpoints calls metadata readOnly pages mapSize,
      let l : Ledger MappedEnvironment :=
        { store := { environment := { tables := { metadata }, readOnly }, pages, mapSize }, checkpoints }
      (l.run calls).ledger.store.environment.tables.checkIntegrity.isHealthy := by
  refine ⟨Environment.checkedExactly, fun checkpoints calls metadata readOnly => ?_,
    fun checkpoints calls metadata readOnly pages mapSize => ?_⟩
  · intro l
    have hf := Ledger.faithful_run (l := l) (Tables.represents_empty metadata) calls
    exact Tables.isHealthy_checkIntegrity_iff.mpr hf.represents.countsHeights
  · intro l
    have hf := Ledger.faithful_run (l := l) (Tables.represents_empty metadata) calls
    exact Tables.isHealthy_checkIntegrity_iff.mpr hf.represents.countsHeights

end RingDepth
