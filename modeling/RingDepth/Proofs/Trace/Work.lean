import Mathlib.Algebra.GroupWithZero.Nat
import Mathlib.Data.List.Forall2
import RingDepth.Proofs.Offsets
import RingDepth.Proofs.Outcome
import RingDepth.Proofs.Trace.Graph

/-!
# The work that expanding takes

A trace counts the transactions that it fetches, the outputs that it resolves and the blocks that it scans.
Expanding transactions resolves each member of the rings of their inputs once, up to the first input that mints,
and scans a block for each of them. It fetches the transactions themselves, and in each block the listed ones
that the search for the owner looks at.
-/

namespace RingDepth

namespace Traced

variable {α β : Type}

/-- A value takes no work. -/
theorem pure_eq_ok_iff {a b : α} {w : Work} : (Pure.pure a : Traced α) = .ok (b, w) ↔ a = b ∧ 0 = w := by
  change Except.ok (a, (0 : Work)) = Except.ok (b, w) ↔ _
  rw [Except.ok.injEq, Prod.mk.injEq]

/-- Two parts take the work that both of them take. -/
theorem bind_eq_ok_iff {x : Traced α} {f : α → Traced β} {b : β} {w : Work} :
    (x >>= f) = .ok (b, w) ↔ ∃ a v u, x = .ok (a, v) ∧ f a = .ok (b, u) ∧ v + u = w := by
  change bind x f = .ok (b, w) ↔ _
  rcases x with e | ⟨a, v⟩
  · refine iff_of_false nofun ?_
    rintro ⟨_, _, _, ⟨⟩, -⟩
  · cases hf : f a with
    | error e =>
      refine iff_of_false (by simp [bind, hf]) ?_
      rintro ⟨a', v', u, hx, hfa, -⟩
      cases hx
      cases hf.symm.trans hfa
    | ok found =>
      obtain ⟨b', u⟩ := found
      simp only [bind, hf]
      constructor
      · intro h
        cases h
        exact ⟨a, v, u, rfl, hf, rfl⟩
      · rintro ⟨a', v', u', hx, hfa, rfl⟩
        cases hx
        cases hf.symm.trans hfa
        rfl

/-- Counting work takes this work. -/
theorem spend_eq_ok_iff {v w : Work} {u : Unit} : spend v = .ok (u, w) ↔ v = w := by
  change Except.ok ((), v) = Except.ok (u, w) ↔ _
  rw [Except.ok.injEq, Prod.mk.injEq]
  exact and_iff_right rfl

end Traced

namespace Input

/-- The number of outputs that an input names. -/
def ringSize : Input → ℕ
  | terminal _ => 0
  | keyed _ keyOffsets _ => keyOffsets.length

/-- The outputs that an input names, in order; none if the offsets do not read. -/
def ringMembers : Input → List OutputId
  | terminal _ => []
  | keyed amount keyOffsets _ =>
    match Offsets.toAbsolute keyOffsets with
    | .ok ring => ring.map fun index => ⟨amount, index⟩
    | .error _ => []

end Input

namespace Transaction

/-- The number of outputs that the inputs of a transaction name, up to the first one that mints. -/
def ringSize (t : Transaction) : ℕ := (t.tracedInputs.map Input.ringSize).sum

/-- These outputs, in order. -/
def ringMembers (t : Transaction) : List OutputId := t.tracedInputs.flatMap Input.ringMembers

end Transaction

namespace Trace

section Definitions

variable (r : Reader)

/-- Whether the first of some listed transactions that has a key stands at a place, where they are counted from
one. -/
inductive FirstAt (key : PublicKey) : List TxHash → ℕ → Prop
  | here {hash : TxHash} {rest : List TxHash} {t : Transaction} (ht : r.transaction hash = .ok (some t))
    (howns : t.owns key = true) : FirstAt key (hash :: rest) 1
  | later {hash : TxHash} {rest : List TxHash} {t : Transaction} {place : ℕ}
    (ht : r.transaction hash = .ok (some t)) (howns : t.owns key = false) (hrest : FirstAt key rest place) :
    FirstAt key (hash :: rest) (place + 1)

/-- How many listed transactions the search for the owner of an output fetches. -/
inductive Scans (id : OutputId) : OwnerPolicy → ℕ → Prop
  /-- None, if the first owner is taken and the reward of the block has the key. -/
  | reward {location : OutputLocation} {b : Block} (hlocation : r.output id = .ok (some location))
    (hblock : r.block location.height = .ok (some b)) (howns : b.rewardTx.owns location.key = true) :
    Scans id .firstMatch 0
  /-- As many as it takes to come to the first owner, if the reward has not. -/
  | listed {location : OutputLocation} {b : Block} {place : ℕ} (hlocation : r.output id = .ok (some location))
    (hblock : r.block location.height = .ok (some b)) (howns : b.rewardTx.owns location.key = false)
    (hfirst : FirstAt r location.key b.txHashes place) : Scans id .firstMatch place
  /-- All of them, if two owners are rejected. -/
  | whole {location : OutputLocation} {b : Block} (hlocation : r.output id = .ok (some location))
    (hblock : r.block location.height = .ok (some b)) : Scans id .rejectAmbiguous b.txHashes.length

/-- Whether work is what it takes to find the owners of some outputs: to resolve each of them, to scan a block
for it, and to fetch the listed transactions there. -/
def Resolves (policy : OwnerPolicy) (ids : List OutputId) (w : Work) : Prop :=
  ∃ scans, List.Forall₂ (fun id scan => Scans r id policy scan) ids scans ∧
    w = { fetched := scans.sum, resolved := ids.length, scanned := ids.length }

end Definitions

variable {r : Reader} {policy : OwnerPolicy} {w : Work}

namespace Resolves

/-- It takes no work to find no owners. -/
theorem nil : Resolves r policy [] 0 := ⟨[], .nil, rfl⟩

/-- It takes the work for both to find the owners of some outputs and those of others. -/
theorem append {ids others : List OutputId} {v : Work} (h : Resolves r policy ids v)
    (hothers : Resolves r policy others w) : Resolves r policy (ids ++ others) (v + w) := by
  obtain ⟨scans, hscans, rfl⟩ := h
  obtain ⟨rest, hrest, rfl⟩ := hothers
  refine ⟨scans ++ rest, List.rel_append hscans hrest, ?_⟩
  rw [List.sum_append, List.length_append]
  rfl

end Resolves

/-- Fetching a transaction is counted. -/
theorem work_fetchTransaction {hash : TxHash} {t : Transaction} (h : fetchTransaction r hash = .ok (t, w)) :
    r.transaction hash = .ok (some t) ∧ w = { fetched := 1 } := by
  obtain ⟨_, v, u, hspend, hread, rfl⟩ := Traced.bind_eq_ok_iff.mp h
  obtain rfl := Traced.spend_eq_ok_iff.mp hspend
  split at hread
  all_goals cases hread
  exact ⟨‹_›, rfl⟩

/-- Fetching a block is counted as scanning it. -/
theorem work_fetchBlock {height : UInt64} {b : Block} (h : fetchBlock r height = .ok (b, w)) :
    r.block height = .ok (some b) ∧ w = { scanned := 1 } := by
  obtain ⟨_, v, u, hspend, hread, rfl⟩ := Traced.bind_eq_ok_iff.mp h
  obtain rfl := Traced.spend_eq_ok_iff.mp hspend
  split at hread
  all_goals cases hread
  exact ⟨‹_›, rfl⟩

/-- Looking up an output is counted as resolving it. -/
theorem work_locate {id : OutputId} {location : OutputLocation} (h : locate r id = .ok (location, w)) :
    r.output id = .ok (some location) ∧ w = { resolved := 1 } := by
  obtain ⟨_, v, u, hspend, hread, rfl⟩ := Traced.bind_eq_ok_iff.mp h
  obtain rfl := Traced.spend_eq_ok_iff.mp hspend
  split at hread
  all_goals cases hread
  exact ⟨‹_›, rfl⟩

/-- The search for the first owner fetches the listed transactions up to it. -/
theorem work_firstOwner {key : PublicKey} {hashes : List TxHash} {owner : TxHash}
    (h : firstOwner r key hashes = .ok (some owner, w)) :
    ∃ place, FirstAt r key hashes place ∧ w = { fetched := place } := by
  induction hashes generalizing w with
  | nil => cases h
  | cons hash rest ih =>
    obtain ⟨t, v, u, hfetch, hrest, rfl⟩ := Traced.bind_eq_ok_iff.mp h
    obtain ⟨ht, rfl⟩ := work_fetchTransaction hfetch
    cases howns : t.owns key with
    | true =>
      rw [if_pos howns] at hrest
      obtain ⟨-, rfl⟩ := Traced.pure_eq_ok_iff.mp hrest
      exact ⟨1, .here ht howns, rfl⟩
    | false =>
      rw [if_neg (by simp [howns])] at hrest
      obtain ⟨place, hplace, rfl⟩ := ih hrest
      refine ⟨place + 1, .later ht howns hplace, ?_⟩
      rw [Nat.add_comm]
      rfl

/-- The search for the only owner fetches all listed transactions. -/
theorem work_onlyOwner {id : OutputId} {location : OutputLocation} {known found : Option TxHash}
    {hashes : List TxHash} (h : onlyOwner r id location known hashes = .ok (found, w)) :
    w = { fetched := hashes.length } := by
  induction hashes generalizing known w with
  | nil =>
    obtain ⟨-, rfl⟩ := Traced.pure_eq_ok_iff.mp h
    rfl
  | cons hash rest ih =>
    obtain ⟨t, v, u, hfetch, hrest, rfl⟩ := Traced.bind_eq_ok_iff.mp h
    obtain ⟨-, rfl⟩ := work_fetchTransaction hfetch
    -- Whatever the transaction is to the one that is known, the others are looked at too.
    have hsame : u = { fetched := rest.length } := by
      split_ifs at hrest
      · split at hrest
        · split_ifs at hrest
          exact ih hrest
        · exact ih hrest
      · exact ih hrest
    rw [hsame, List.length_cons, Nat.add_comm]
    rfl

/-- The search for an owner resolves the output, scans its block, and fetches the listed transactions that it
looks at. -/
theorem work_findOwner {id : OutputId} {owner : TxHash} (h : findOwner r policy id = .ok (owner, w)) :
    ∃ scan, Scans r id policy scan ∧ w = { fetched := scan, resolved := 1, scanned := 1 } := by
  obtain ⟨location, wl, _, hlocate, hscan, rfl⟩ := Traced.bind_eq_ok_iff.mp h
  obtain ⟨b, wb, _, hfetch, hlook, rfl⟩ := Traced.bind_eq_ok_iff.mp hscan
  obtain ⟨found, wo, _, howner, hdone, rfl⟩ := Traced.bind_eq_ok_iff.mp hlook
  obtain ⟨hlocation, rfl⟩ := work_locate hlocate
  obtain ⟨hblock, rfl⟩ := work_fetchBlock hfetch
  cases found with
  | none => cases hdone
  | some hash =>
    obtain ⟨-, rfl⟩ := Traced.pure_eq_ok_iff.mp hdone
    cases policy with
    | rejectAmbiguous =>
      obtain rfl : wo = { fetched := b.txHashes.length } := work_onlyOwner howner
      exact ⟨_, .whole hlocation hblock, by ext <;> simp⟩
    | firstMatch =>
      unfold ownerIn at howner
      cases howns : b.rewardTx.owns location.key with
      | true =>
        rw [howns] at howner
        obtain ⟨-, rfl⟩ := Traced.pure_eq_ok_iff.mp howner
        exact ⟨0, .reward hlocation hblock howns, by ext <;> simp⟩
      | false =>
        rw [howns] at howner
        obtain ⟨place, hplace, rfl⟩ := work_firstOwner howner
        exact ⟨place, .listed hlocation hblock howns hplace, by ext <;> simp⟩

/-- The work for the owners of a ring is that for its members. -/
theorem work_ownersOf {amount : UInt64} {ring : List UInt64} {owners : List TxHash}
    (h : ownersOf r policy amount ring = .ok (owners, w)) :
    Resolves r policy (ring.map fun index => ⟨amount, index⟩) w := by
  induction ring generalizing owners w with
  | nil =>
    obtain ⟨-, rfl⟩ := Traced.pure_eq_ok_iff.mp h
    exact .nil
  | cons index rest ih =>
    obtain ⟨owner, v, _, howner, hrest, rfl⟩ := Traced.bind_eq_ok_iff.mp h
    obtain ⟨others, u, _, hothers, hdone, rfl⟩ := Traced.bind_eq_ok_iff.mp hrest
    obtain ⟨-, rfl⟩ := Traced.pure_eq_ok_iff.mp hdone
    obtain ⟨scan, hscan, rfl⟩ := work_findOwner howner
    have hfirst : Resolves r policy [⟨amount, index⟩] { fetched := scan, resolved := 1, scanned := 1 } :=
      ⟨[scan], .cons hscan .nil, by rw [List.sum_singleton, List.length_singleton]⟩
    rw [Work.add_zero]
    exact hfirst.append (ih hothers)

/-- Reading a ring takes no work. -/
theorem work_ringOf {hash : TxHash} {keyOffsets ring : List UInt64} (h : ringOf hash keyOffsets = .ok (ring, w)) :
    Offsets.toAbsolute keyOffsets = .ok ring ∧ w = 0 := by
  unfold ringOf at h
  split at h
  all_goals cases h
  exact ⟨‹_›, rfl⟩

/-- The work for inputs is that for the members of their rings, up to the first one that mints. There are as many
as the rings have offsets. -/
theorem work_expandInputs {hash : TxHash} {inputs : List Input} {x : Expansion}
    (h : expandInputs r policy hash inputs = .ok (x, w)) :
    let traced := inputs.takeWhile fun input => !input.isTerminal
    Resolves r policy (traced.flatMap Input.ringMembers) w ∧
      (traced.flatMap Input.ringMembers).length = (traced.map Input.ringSize).sum := by
  induction inputs generalizing x w with
  | nil =>
    obtain ⟨-, rfl⟩ := Traced.pure_eq_ok_iff.mp h
    exact ⟨.nil, rfl⟩
  | cons input rest ih =>
    cases input with
    | terminal height =>
      obtain ⟨-, rfl⟩ := Traced.pure_eq_ok_iff.mp h
      exact ⟨.nil, rfl⟩
    | keyed amount keyOffsets keyImage =>
      obtain ⟨ring, _, _, hring, hfollow, rfl⟩ := Traced.bind_eq_ok_iff.mp h
      obtain ⟨owners, v, _, howners, hrest, rfl⟩ := Traced.bind_eq_ok_iff.mp hfollow
      obtain ⟨others, u, _, hothers, hdone, rfl⟩ := Traced.bind_eq_ok_iff.mp hrest
      obtain ⟨-, rfl⟩ := Traced.pure_eq_ok_iff.mp hdone
      obtain ⟨habsolute, rfl⟩ := work_ringOf hring
      obtain ⟨hresolves, hlength⟩ := ih hothers
      have hmembers : (Input.keyed amount keyOffsets keyImage).ringMembers =
          ring.map fun index => ⟨amount, index⟩ := by
        rw [Input.ringMembers, habsolute]
      rw [List.takeWhile_cons_of_pos rfl]
      dsimp only
      rw [List.flatMap_cons, List.map_cons, List.sum_cons, List.length_append, hmembers, Work.zero_add,
        Work.add_zero]
      refine ⟨(work_ownersOf howners).append hresolves, ?_⟩
      rw [List.length_map, hlength, (Offsets.toAbsolute_eq_ok_iff.mp habsolute).length]
      rfl

/-- Whether work is what it takes to expand some transactions, all of whose rings read: to fetch each of them,
and to find the owners of the members of its rings. -/
structure Expands (r : Reader) (policy : OwnerPolicy) (hashes : List TxHash) (ts : List Transaction) (w : Work) :
    Prop where
  read : List.Forall₂ (fun hash t => r.transaction hash = .ok (some t)) hashes ts
  size : (ts.flatMap Transaction.ringMembers).length = (ts.map Transaction.ringSize).sum
  work : ∃ v, Resolves r policy (ts.flatMap Transaction.ringMembers) v ∧ w = { fetched := hashes.length } + v

namespace Expands

/-- It takes no work to expand nothing. -/
theorem nil : Expands r policy [] [] 0 := ⟨.nil, rfl, 0, .nil, rfl⟩

/-- It takes the work for both to expand some transactions and others. -/
theorem append {hashes others : List TxHash} {ts us : List Transaction} {v : Work}
    (h : Expands r policy hashes ts v) (hothers : Expands r policy others us w) :
    Expands r policy (hashes ++ others) (ts ++ us) (v + w) := by
  obtain ⟨hread, hsize, v', hv, rfl⟩ := h
  obtain ⟨hreads, hsizes, w', hw, rfl⟩ := hothers
  refine ⟨List.rel_append hread hreads, ?_, v' + w', ?_, ?_⟩
  · rw [List.flatMap_append, List.length_append, hsize, hsizes, List.map_append, List.sum_append]
  · rw [List.flatMap_append]
    exact hv.append hw
  · ext
    · simp only [Work.fetched_add, List.length_append]
      omega
    · simp
    · simp

end Expands

/-- The work for a transaction is to fetch it, and that for the members of its rings. -/
theorem work_expand {hash : TxHash} {x : Expansion} (h : expand r policy hash = .ok (x, w)) :
    ∃ t, Expands r policy [hash] [t] w := by
  obtain ⟨t, v, u, hfetch, hrest, rfl⟩ := Traced.bind_eq_ok_iff.mp h
  obtain ⟨ht, rfl⟩ := work_fetchTransaction hfetch
  obtain ⟨hresolves, hlength⟩ := work_expandInputs hrest
  refine ⟨t, .cons ht .nil, ?_, u, ?_, rfl⟩
  · rw [List.flatMap_singleton, List.map_singleton, List.sum_singleton]
    exact hlength
  · rw [List.flatMap_singleton]
    exact hresolves

/-- The work for a level is that for its transactions. -/
theorem work_expandAll {hashes : List TxHash} {x : Expansion} (h : expandAll r policy hashes = .ok (x, w)) :
    ∃ ts, Expands r policy hashes ts w := by
  induction hashes generalizing x w with
  | nil =>
    obtain ⟨-, rfl⟩ := Traced.pure_eq_ok_iff.mp h
    exact ⟨[], .nil⟩
  | cons hash rest ih =>
    obtain ⟨first, v, _, hfirst, hrest, rfl⟩ := Traced.bind_eq_ok_iff.mp h
    obtain ⟨others, u, _, hothers, hdone, rfl⟩ := Traced.bind_eq_ok_iff.mp hrest
    obtain ⟨-, rfl⟩ := Traced.pure_eq_ok_iff.mp hdone
    obtain ⟨t, ht⟩ := work_expand hfirst
    obtain ⟨ts, hts⟩ := ih hothers
    rw [Work.add_zero]
    exact ⟨t :: ts, ht.append hts⟩

end Trace

end RingDepth
