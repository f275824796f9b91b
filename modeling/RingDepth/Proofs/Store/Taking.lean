import RingDepth.Proofs.Store.Memory
import RingDepth.Proofs.Store.Tables

/-!
# When a store takes a block

A lawful store adds what a block adds if it writes it. Whether it does is a question of room: counters of
64 bits have to hold the numbers of blocks and of outputs, and a memory map has to reach over the pages that
are needed. If both are given, and writing is not refused, then the block is written.
-/

namespace RingDepth

namespace Holdings

/-- Whether counters hold the numbers of blocks and of the outputs of each amount. -/
structure Countable (c : Holdings) : Prop where
  hashes : c.hashes.length < UInt64.size
  outputs : ∀ amount, (c.outputs amount).length < UInt64.size

/-- If an output is appended for which there is room, then so are outputs one after the other. -/
theorem exists_foldlM_putOutput {σ ε : Type} {R : σ → Holdings → Prop}
    {append : σ → UInt64 × OutputLocation → Except ε σ}
    (hroom : ∀ {s : σ} {c : Holdings} {entry : UInt64 × OutputLocation}, R s c →
      (c.outputs entry.1).length + 1 < UInt64.size → ∃ s', append s entry = .ok s')
    (hstep : ∀ {s s' : σ} {c : Holdings} {entry : UInt64 × OutputLocation}, R s c →
      append s entry = .ok s' → R s' { c with outputs := putOutput c.outputs entry })
    {entries : List (UInt64 × OutputLocation)} {s : σ} {c : Holdings} (h : R s c)
    (hcount : ∀ amount, (entries.foldl putOutput c.outputs amount).length < UInt64.size) :
    ∃ s', entries.foldlM append s = .ok s' := by
  induction entries generalizing s c with
  | nil => exact ⟨s, rfl⟩
  | cons entry rest ih =>
    have hfirst : (c.outputs entry.1).length + 1 < UInt64.size := by
      refine Nat.lt_of_le_of_lt ?_ (hcount entry.1)
      rw [foldl_putOutput, List.length_append, List.length_map]
      have hself : entry ∈ (entry :: rest).filter fun other => other.1 = entry.1 := by simp
      exact Nat.add_le_add_left (List.length_pos_of_mem hself) _
    obtain ⟨next, hnext⟩ := hroom h hfirst
    obtain ⟨last, hlast⟩ := ih (hstep h hnext) hcount
    exact ⟨last, bind_eq_ok_iff.mpr ⟨next, hnext, hlast⟩⟩

end Holdings

namespace Memory

variable {s : Memory} {c : Holdings}

/-- An output is appended for which there is room. -/
theorem Represents.exists_appendOutput (h : Represents s c) {amount : UInt64}
    (location : OutputLocation) (hroom : (c.outputs amount).length + 1 < UInt64.size) :
    ∃ s', s.appendOutput amount location = .ok s' := by
  rw [← h.outputCounts amount] at hroom
  obtain ⟨count, hcount⟩ := exists_addCounter (ε := StoreError) (b := 1) hroom
  exact ⟨_, bind_eq_ok_iff.mpr ⟨count, hcount, rfl⟩⟩

/-- A block is written for which there is room, unless writes are refused. -/
theorem Represents.exists_writeBlock (h : Represents s c) {w : BlockWrite}
    (hopen : s.failWrites = false) (hheight : w.height.toNat = c.hashes.length)
    (hcount : (c.write w).Countable) : ∃ s', s.writeBlock w = .ok s' := by
  obtain ⟨numbered, hnumbered⟩ := Holdings.exists_foldlM_putOutput
    (fun h hroom => h.exists_appendOutput _ hroom) appendOutput h hcount.outputs
  let filled : Memory := numbered.fill w.transactions
  have hfilled : filled.Represents _ := Holdings.represents_foldl_putTransaction
    (fun entry h => h.insertTransaction entry.1 entry.2) w.transactions
    (Holdings.represents_foldlM_putOutput appendOutput h hnumbered)
  -- With the block there are as many heights as blocks, which a counter holds.
  have hsize := hfilled.size_insertBlock hheight w.hash w.bytes
  have hroom := hcount.hashes
  rw [Holdings.write, List.length_append, List.length_singleton, ← hfilled.size, ← hsize] at hroom
  refine ⟨filled.insertBlock w.height w.hash w.bytes, ?_⟩
  rw [writeBlock_eq_number]
  refine bind_eq_ok_iff.mpr ⟨numbered, hnumbered, ?_⟩
  rw [hopen, if_neg Bool.false_ne_true]
  dsimp only
  rw [if_neg (Nat.not_le_of_lt hroom)]
  rfl

end Memory

namespace Tables

variable {t : Tables} {c : Holdings}

/-- An output is appended for which there is room. -/
theorem Represents.exists_appendOutput (h : Represents t c) {amount : UInt64}
    (location : OutputLocation) (hroom : (c.outputs amount).length + 1 < UInt64.size) :
    ∃ t', t.appendOutput amount location = .ok t' := by
  obtain ⟨n, hn, hnumber⟩ := h.outputCounts amount
  rw [← hnumber] at hroom
  obtain ⟨next, hnext⟩ := exists_addCounter (ε := TableError) (b := 1) hroom
  let stored : Tables := { t with
    outputs := t.outputs.insert (outputKey ⟨amount, n⟩) (Codec.encode location)
    outputCounts := t.outputCounts.insert (numberKey amount) (numberKey next) }
  have hstored : t.insertOutput ⟨amount, n⟩ location = .ok stored := by
    refine bind_eq_ok_iff.mpr ⟨n, monadLift_eq_ok_iff.mpr hn, ?_⟩
    dsimp only
    rw [if_neg (UInt64.lt_irrefl n)]
    exact bind_eq_ok_iff.mpr ⟨next, hnext, rfl⟩
  exact ⟨(n, stored), bind_eq_ok_iff.mpr
    ⟨n, monadLift_eq_ok_iff.mpr hn, bind_eq_ok_iff.mpr ⟨stored, hstored, rfl⟩⟩⟩

/-- A block is written for which there is room. -/
theorem Represents.exists_writeBlock (h : Represents t c) {w : BlockWrite}
    (hheight : w.height.toNat = c.hashes.length) (hcount : (c.write w).Countable) :
    ∃ t', t.writeBlock w = .ok t' := by
  have hfilled := Holdings.represents_foldl_putTransaction
    (fun entry h => h.insertTransaction entry.1 entry.2) w.transactions h
  obtain ⟨numbered, hnumbered⟩ := Holdings.exists_foldlM_putOutput
    (fun h hroom => by
      obtain ⟨⟨n, appended⟩, happended⟩ := h.exists_appendOutput _ hroom
      exact ⟨appended, map_eq_ok_iff.mpr ⟨_, happended, rfl⟩⟩)
    appendOutput_snd hfilled hcount.outputs
  have hkept : numbered.Represents _ :=
    Holdings.represents_foldlM_putOutput appendOutput_snd hfilled hnumbered
  have hsize := hkept.size_insertBlock hheight w.hash w.bytes
  have hroom := hcount.hashes
  rw [Holdings.write, List.length_append, List.length_singleton, ← hkept.size, ← hsize] at hroom
  refine ⟨numbered.insertBlock w.height w.hash w.bytes, bind_eq_ok_iff.mpr ⟨numbered, hnumbered, ?_⟩⟩
  dsimp only
  rw [if_neg (Nat.not_le_of_lt hroom)]
  rfl

end Tables

/-- A block is written for which there is room, where writing is allowed. -/
theorem Environment.exists_writeBlock {e : Environment} {c : Holdings} (h : e.tables.Represents c)
    {w : BlockWrite} (hopen : e.readOnly = false) (hheight : w.height.toNat = c.hashes.length)
    (hcount : (c.write w).Countable) :
    ∃ e', Store.writeBlock e w = .ok e' ∧ e'.readOnly = false := by
  obtain ⟨tables, htables⟩ := h.exists_writeBlock hheight hcount
  have hallowed : e.checkWritable = .ok () := by rw [checkWritable, hopen, if_neg Bool.false_ne_true]
  refine ⟨{ e with tables }, within_eq_ok_iff.mpr (bind_eq_ok_iff.mpr ⟨(), ?_, ?_⟩), hopen⟩
  · exact monadLift_eq_ok_iff.mpr hallowed
  · exact bind_eq_ok_iff.mpr ⟨tables, htables, rfl⟩

/-- Whether a memory map has room for blocks that are written one after the other. A block that the tables
do not take is no matter of room. -/
def MappedEnvironment.hasRoom : MappedEnvironment → List BlockWrite → Bool
  | _, [] => true
  | m, w :: rest =>
    match Store.writeBlock m.environment w with
    | .error _ => true
    | .ok e =>
      match m.store w.steps e with
      | .error _ => false
      | .ok written => written.hasRoom rest

namespace Store

/-- Stores that write the blocks for which there is room, one after the other, as far as counters hold their
numbers. -/
class Taking (σ : Type) [Store σ] [Lawful σ] where
  Open : σ → List BlockWrite → Prop
  exists_writeBlock : ∀ {s : σ} {c : Holdings} {w : BlockWrite} {rest : List BlockWrite},
    Open s (w :: rest) → Represents s c → w.height.toNat = c.hashes.length →
    (c.write w).Countable → ∃ s', Store.writeBlock s w = .ok s' ∧ Open s' rest

instance : Taking Memory where
  Open s _ := s.failWrites = false
  exists_writeBlock hopen h hheight hcount := by
    obtain ⟨s', hs'⟩ := Memory.Represents.exists_writeBlock h hopen hheight hcount
    have hsettings := congrArg Prod.snd (Memory.settings_writeBlock hs')
    exact ⟨s', hs', hsettings.trans hopen⟩

instance : Taking Environment where
  Open e _ := e.readOnly = false
  exists_writeBlock hopen h hheight hcount := Environment.exists_writeBlock h hopen hheight hcount

instance : Taking MappedEnvironment where
  Open m writes := m.environment.readOnly = false ∧ m.hasRoom writes = true
  exists_writeBlock := by
    intro m c w rest hopen h hheight hcount
    obtain ⟨hallowed, hroom⟩ := hopen
    obtain ⟨e, he, hallowed'⟩ := Environment.exists_writeBlock h hallowed hheight hcount
    rw [MappedEnvironment.hasRoom, he] at hroom
    dsimp only at hroom
    cases hstore : m.store w.steps e with
    | error cause => simp [hstore] at hroom
    | ok written =>
      rw [hstore] at hroom
      have hwrite : Store.writeBlock m w = .ok written :=
        bind_eq_ok_iff.mpr ⟨e, he, monadLift_eq_ok_iff.mpr hstore⟩
      have hsame := MappedEnvironment.environment_of_writeBlock hwrite
      obtain rfl : e = written.environment := Except.ok.inj (he.symm.trans hsame)
      exact ⟨written, hwrite, hallowed', hroom⟩

end Store

end RingDepth
