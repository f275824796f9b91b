import Mathlib.Data.List.Basic
import Mathlib.Logic.Function.Basic
import RingDepth.Proofs.Outcome
import RingDepth.Store.Basic

/-!
# What a store holds

A store that grows by whole blocks holds the hashes of its blocks from height zero on, encoded blocks and
transactions under their hashes, and the outputs of each amount in the order of their creation. The
number of an output is its position among the outputs of its amount and is kept nowhere else, whichever
way a store comes to it.

A store is lawful if its lookups answer from such holdings, and writing a block adds to them what the
block adds. All that is proved of ledgers rests on these laws and not on how a store keeps its holdings.
-/

namespace RingDepth

/-- What a store holds that grows by whole blocks: the hashes of the blocks from height zero on, the encoded
blocks and transactions, and the locations of the outputs of each amount, in the order of their creation. -/
structure Holdings where
  hashes : List BlockHash
  blocks : BlockHash → Option Bytes
  transactions : TxHash → Option Bytes
  outputs : UInt64 → List OutputLocation

namespace Holdings

/-- What a store without blocks holds. -/
def empty : Holdings where
  hashes := []
  blocks _ := none
  transactions _ := none
  outputs _ := []

/-- Puts an encoded transaction under its hash, in place of what was there. -/
def putTransaction (transactions : TxHash → Option Bytes) (entry : TxHash × Bytes) :
    TxHash → Option Bytes :=
  Function.update transactions entry.1 (some entry.2)

/-- Puts an output behind the outputs of its amount. -/
def putOutput (outputs : UInt64 → List OutputLocation) (entry : UInt64 × OutputLocation) :
    UInt64 → List OutputLocation :=
  Function.update outputs entry.1 (outputs entry.1 ++ [entry.2])

/-- Adds what a block adds that has the next height. -/
def write (c : Holdings) (w : BlockWrite) : Holdings where
  hashes := c.hashes ++ [w.hash]
  blocks := Function.update c.blocks w.hash (some w.bytes)
  transactions := w.transactions.foldl putTransaction c.transactions
  outputs := w.outputs.foldl putOutput c.outputs

/-- The output with a number is the one at this position among the outputs of its amount. -/
def output? (outputs : UInt64 → List OutputLocation) (id : OutputId) : Option OutputLocation :=
  (outputs id.amount)[id.index.toNat]?

/-- Outputs that are put one after the other come behind those of their amounts in this order. -/
theorem foldl_putOutput (outputs : UInt64 → List OutputLocation)
    (entries : List (UInt64 × OutputLocation)) (amount : UInt64) :
    entries.foldl putOutput outputs amount =
      outputs amount ++ (entries.filter fun entry => entry.1 = amount).map Prod.snd := by
  induction entries generalizing outputs with
  | nil => simp
  | cons entry rest ih =>
    rw [List.foldl_cons, ih, putOutput]
    by_cases h : entry.1 = amount
    · subst h
      simp
    · simp [h, Function.update_of_ne (Ne.symm h)]

/-- The element behind a list is found at its length, and the others where they were. -/
theorem getElem?_concat {α : Type} (xs : List α) (x : α) (i : ℕ) :
    (xs ++ [x])[i]? = if i = xs.length then some x else xs[i]? := by
  split_ifs with h
  · rw [h, List.getElem?_concat_length]
  · obtain hlt | hgt := Nat.lt_or_gt_of_ne h
    · rw [List.getElem?_append_left hlt]
    · have hbehind : (xs ++ [x]).length ≤ i := by simpa [Nat.succ_le_iff] using hgt
      rw [List.getElem?_eq_none hbehind, List.getElem?_eq_none (Nat.le_of_lt hgt)]

/-- An output that is put gets the number of the outputs of its amount, and changes no other. -/
theorem output?_putOutput {outputs : UInt64 → List OutputLocation} {amount index : UInt64}
    (hindex : index.toNat = (outputs amount).length) (location : OutputLocation) :
    output? (putOutput outputs (amount, location)) =
      Function.update (output? outputs) ⟨amount, index⟩ (some location) := by
  funext ⟨a, i⟩
  rw [Function.update_apply, output?, output?, putOutput]
  by_cases ha : a = amount
  · subst ha
    simp only [Function.update_self, getElem?_concat, OutputId.mk.injEq, true_and, ← hindex,
      UInt64.toNat_inj]
  · simp only [OutputId.mk.injEq, ha, false_and, if_false]
    rw [Function.update_of_ne ha]

/-- The block that is added gets the number of the blocks as height, and changes no other. -/
theorem hash?_concat {hashes : List BlockHash} {height : UInt64}
    (hheight : height.toNat = hashes.length) (hash : BlockHash) :
    (fun h : UInt64 => (hashes ++ [hash])[h.toNat]?) =
      Function.update (fun h : UInt64 => hashes[h.toNat]?) height (some hash) := by
  funext h
  rw [Function.update_apply, getElem?_concat]
  simp only [← hheight, UInt64.toNat_inj]

/-- One more output of an amount raises the number of these outputs by one. -/
theorem length_putOutput (outputs : UInt64 → List OutputLocation)
    (entry : UInt64 × OutputLocation) (amount : UInt64) :
    (putOutput outputs entry amount).length =
      if entry.1 = amount then (outputs entry.1).length + 1 else (outputs amount).length := by
  split_ifs with h
  · rw [← h, putOutput, Function.update_self, List.length_append, List.length_singleton]
  · rw [putOutput, Function.update_of_ne (Ne.symm h)]

/-- If appending one output puts it, then appending outputs one after the other puts them in order. -/
theorem represents_foldlM_putOutput {σ ε : Type} {R : σ → Holdings → Prop}
    {append : σ → UInt64 × OutputLocation → Except ε σ}
    (hstep : ∀ {s s' : σ} {c : Holdings} {entry : UInt64 × OutputLocation}, R s c →
      append s entry = .ok s' → R s' { c with outputs := putOutput c.outputs entry })
    {entries : List (UInt64 × OutputLocation)} {s s' : σ} {c : Holdings} (h : R s c)
    (happend : entries.foldlM append s = .ok s') :
    R s' { c with outputs := entries.foldl putOutput c.outputs } := by
  induction entries generalizing s c with
  | nil =>
    cases happend
    exact h
  | cons entry rest ih =>
    obtain ⟨next, hnext, hrest⟩ := bind_eq_ok_iff.mp happend
    exact ih (hstep h hnext) hrest

/-- If storing one transaction puts it, then storing transactions one after the other puts them in
order. -/
theorem represents_foldl_putTransaction {σ : Type} {R : σ → Holdings → Prop}
    {store : σ → TxHash × Bytes → σ}
    (hstep : ∀ {s : σ} {c : Holdings} (entry : TxHash × Bytes), R s c →
      R (store s entry) { c with transactions := putTransaction c.transactions entry })
    (entries : List (TxHash × Bytes)) {s : σ} {c : Holdings} (h : R s c) :
    R (entries.foldl store s)
      { c with transactions := entries.foldl putTransaction c.transactions } := by
  induction entries generalizing s c with
  | nil => exact h
  | cons entry rest ih => exact ih (hstep entry h)

end Holdings

namespace Store

/-- The answer of a lookup that found something, or names what it sought. -/
def answer {α : Type} (sought : Missing) : Option α → Except StoreError α
  | some a => .ok a
  | none => .error (.notFound sought)

/-- A lookup answers with what it found, and with nothing else. -/
theorem answer_eq_ok_iff {α : Type} {sought : Missing} {found : Option α} {a : α} :
    answer sought found = .ok a ↔ found = some a := by
  cases found <;> simp [answer]

/-- The lookups of a store answer from these holdings. -/
structure Answers {σ : Type} [Store σ] (s : σ) (c : Holdings) : Prop where
  block : ∀ hash, Store.block s hash = answer (.block hash) (c.blocks hash)
  blockHash : ∀ height, Store.blockHash s height = answer (.height height) c.hashes[height.toNat]?
  blockCount : ∃ n, Store.blockCount s = .ok n ∧ n.toNat = c.hashes.length
  transaction : ∀ hash,
    Store.transaction s hash = answer (.transaction hash) (c.transactions hash)
  hasTransaction : ∀ hash, Store.hasTransaction s hash = .ok (c.transactions hash).isSome
  output : ∀ id, Store.output s id = answer (.output id) (Holdings.output? c.outputs id)
  outputCount : ∀ amount, ∃ n,
    Store.outputCount s amount = .ok n ∧ n.toNat = (c.outputs amount).length

/-- Stores whose lookups and writes are about holdings, which each keeps in its own way. Writing a block of
the next height adds what the block adds and changes no bookkeeping value. -/
class Lawful (σ : Type) [Store σ] where
  Represents : σ → Holdings → Prop
  answers : ∀ {s : σ} {c : Holdings}, Represents s c → Answers s c
  represents_writeBlock : ∀ {s s' : σ} {c : Holdings} {w : BlockWrite}, Represents s c →
    w.height.toNat = c.hashes.length → Store.writeBlock s w = .ok s' → Represents s' (c.write w)
  metadata_writeBlock : ∀ {s s' : σ} {w : BlockWrite}, Store.writeBlock s w = .ok s' →
    Store.metadata s' = Store.metadata s

export Lawful (Represents answers represents_writeBlock metadata_writeBlock)

end Store

/-- A map holds the values of a function in a written form, under a written form of their arguments. -/
def MapHolds {κ ν α β : Type} [Ord κ] [Std.TransOrd κ] (m : Std.ExtTreeMap κ ν) (key : α → κ)
    (value : β → ν) (f : α → Option β) : Prop :=
  ∀ a, m[key a]? = (f a).map value

/-- Where arguments and values are their own written forms, the map is the function. -/
theorem MapHolds.getElem? {κ ν : Type} [Ord κ] [Std.TransOrd κ] {m : Std.ExtTreeMap κ ν}
    {f : κ → Option ν} (h : MapHolds m id id f) (k : κ) : m[k]? = f k := by
  simpa using h k

/-- An entry that is put changes the function at its argument. -/
theorem MapHolds.insert {κ ν α β : Type} [Ord κ] [Std.TransOrd κ] [Std.LawfulEqOrd κ]
    [DecidableEq α] {m : Std.ExtTreeMap κ ν} {key : α → κ} {value : β → ν} {f : α → Option β}
    (h : MapHolds m key value f) (hkey : Function.Injective key) (a : α) (b : β) :
    MapHolds (m.insert (key a) (value b)) key value (Function.update f a (some b)) := by
  intro other
  rw [Std.ExtTreeMap.getElem?_insert, Function.update_apply]
  by_cases hother : other = a
  · subst hother
    simp
  · have hne : key a ≠ key other := fun heq => hother (hkey heq).symm
    simpa [hother, hne] using h other

/-- An entry under a new key makes a map one larger. -/
theorem MapHolds.size_insert {κ ν α β : Type} [Ord κ] [Std.TransOrd κ] [Std.LawfulEqOrd κ]
    {m : Std.ExtTreeMap κ ν} {key : α → κ} {value : β → ν} {f : α → Option β}
    (h : MapHolds m key value f) {a : α} (hnone : f a = none) (v : ν) :
    (m.insert (key a) v).size = m.size + 1 := by
  have hnot : m.contains (key a) = false := by
    rw [Std.ExtTreeMap.contains_eq_isSome_getElem?, h a, hnone]
    rfl
  rw [Std.ExtTreeMap.size_insert, hnot, if_neg Bool.false_ne_true]

end RingDepth
