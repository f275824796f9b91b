import RingDepth.Proofs.Ledger.Chain
import RingDepth.Proofs.Store.Memory
import RingDepth.Proofs.Store.Tables

/-!
# Runs of a ledger

A run is any sequence of appends, accepted or refused, between which the store may be made to refuse
all writes or to take them again. What the run took so far is kept beside the ledger as a chain. Two
facts are invariant: the chain is valid, and the store holds what the chain adds to an empty one. All
that is proved of runs follows from these two.
-/

namespace RingDepth

/-- Stores that can be made to refuse all writes, and to take them again. -/
class Store.Refusing (σ : Type) where
  refuseWrites : Bool → σ → σ

/-- In memory, writing a block is made to fail. -/
instance : Store.Refusing Memory where
  refuseWrites refuse s := { s with failWrites := refuse }

/-- A directory is opened for reading only. -/
instance : Store.Refusing Environment where
  refuseWrites refuse e := { e with readOnly := refuse }

/-- A directory is opened for reading only. -/
instance : Store.Refusing MappedEnvironment where
  refuseWrites refuse m := { m with environment := { m.environment with readOnly := refuse } }

/-- A step of a run. -/
inductive LedgerCall where
  | append (e : Extension)
  | refuseWrites (refuse : Bool)

/-- A ledger and the chain of the blocks that it took. -/
structure History (σ : Type) where
  chain : List Extension
  ledger : Ledger σ

section

variable {σ : Type} [Store σ] [Store.Refusing σ]

/-- Takes a step. A block that is refused leaves the ledger as it was. -/
def History.step (h : History σ) : LedgerCall → History σ
  | .append e =>
    match h.ledger.append e.block e.transactions with
    | .ok (_, ledger) => { chain := h.chain ++ [e], ledger }
    | .error _ => h
  | .refuseWrites refuse =>
    { h with ledger := { h.ledger with store := Store.Refusing.refuseWrites refuse h.ledger.store } }

/-- Takes the steps of a run, one after the other. -/
def Ledger.run (l : Ledger σ) (calls : List LedgerCall) : History σ :=
  calls.foldl History.step { chain := [], ledger := l }

namespace History

variable {h : History σ}

/-- A step changes no checkpoint. -/
theorem checkpoints_step (h : History σ) (call : LedgerCall) :
    (h.step call).ledger.checkpoints = h.ledger.checkpoints := by
  cases call with
  | refuseWrites refuse => rfl
  | append e =>
    rw [step]
    split
    · rename_i hash l happend
      obtain ⟨-, -, s, -, rfl⟩ := Ledger.append_eq_ok_iff.mp happend
      rfl
    · rfl

/-- A step takes no block but the one that it appends. -/
theorem mem_chain_step {call : LedgerCall} {e : Extension} (he : e ∈ (h.step call).chain) :
    e ∈ h.chain ∨ call = .append e := by
  cases call with
  | refuseWrites refuse => exact .inl he
  | append appended =>
    rw [step] at he
    split at he
    · obtain hold | hnew := List.mem_append.mp he
      · exact .inl hold
      · exact .inr (by rw [List.mem_singleton.mp hnew])
    · exact .inl he

/-- A step only adds to the chain. -/
theorem chain_step (h : History σ) (call : LedgerCall) : ∃ later, (h.step call).chain = h.chain ++ later := by
  cases call with
  | refuseWrites refuse => exact ⟨[], (List.append_nil _).symm⟩
  | append e =>
    rw [step]
    split
    · exact ⟨[e], rfl⟩
    · exact ⟨[], (List.append_nil _).symm⟩

end History

namespace Ledger

/-- A longer run only adds to the chain. -/
theorem chain_run_append (l : Ledger σ) (calls more : List LedgerCall) :
    ∃ later, (l.run (calls ++ more)).chain = (l.run calls).chain ++ later := by
  induction more using List.reverseRecOn with
  | nil => exact ⟨[], by rw [List.append_nil, List.append_nil]⟩
  | append_singleton more call ih =>
    obtain ⟨later, hlater⟩ := ih
    obtain ⟨last, hlast⟩ := (l.run (calls ++ more)).chain_step call
    refine ⟨later ++ last, ?_⟩
    rw [← List.append_assoc, run, List.foldl_append, ← run]
    rw [← List.append_assoc, ← hlater]
    exact hlast

/-- A run changes no checkpoint. -/
theorem checkpoints_run (l : Ledger σ) (calls : List LedgerCall) :
    (l.run calls).ledger.checkpoints = l.checkpoints := by
  induction calls using List.reverseRecOn with
  | nil => rfl
  | append_singleton calls call ih =>
    rw [run, List.foldl_append]
    exact (History.checkpoints_step _ call).trans ih

/-- A run takes no block but those that it appends. -/
theorem mem_chain_run {l : Ledger σ} {calls : List LedgerCall} {e : Extension}
    (he : e ∈ (l.run calls).chain) : .append e ∈ calls := by
  induction calls using List.reverseRecOn with
  | nil => cases he
  | append_singleton calls call ih =>
    rw [run, List.foldl_append] at he
    obtain hold | rfl := History.mem_chain_step he
    · exact List.mem_append_left _ (ih hold)
    · exact List.mem_append_right _ (List.mem_singleton.mpr rfl)

end Ledger

end

section

variable {σ : Type} [Store σ] [Store.Lawful σ]

/-- A history is faithful if its chain is valid and the store holds what the chain adds to an empty
store. -/
structure History.Faithful (h : History σ) : Prop where
  valid : ValidChain h.ledger.checkpoints h.chain
  represents : Store.Represents h.ledger.store (.ofChain h.chain)

/-- What the lookups of a faithful history answer is read off its chain. -/
theorem History.Faithful.answers {h : History σ} (hf : h.Faithful) :
    Store.Answers h.ledger.store (.ofChain h.chain) :=
  Store.answers hf.represents

/-- To refuse writes or to take them changes nothing that a store holds. -/
class Store.LawfulRefusing (σ : Type) [Store σ] [Store.Lawful σ] [Store.Refusing σ] : Prop where
  represents_refuseWrites : ∀ {s : σ} {c : Holdings} (refuse : Bool),
    Store.Represents s c → Store.Represents (Store.Refusing.refuseWrites refuse s) c

instance : Store.LawfulRefusing Memory where
  represents_refuseWrites _ h := { h with }

instance : Store.LawfulRefusing Environment where
  represents_refuseWrites _ h := h

instance : Store.LawfulRefusing MappedEnvironment where
  represents_refuseWrites _ h := h

variable [Store.Refusing σ] [Store.LawfulRefusing σ]

/-- A step keeps a history faithful. -/
theorem History.Faithful.step {h : History σ} (hf : h.Faithful) (call : LedgerCall) :
    (h.step call).Faithful := by
  cases call with
  | refuseWrites refuse =>
    exact ⟨hf.valid, Store.LawfulRefusing.represents_refuseWrites refuse hf.represents⟩
  | append e =>
    rw [History.step]
    split
    · rename_i hash l happend
      obtain ⟨-, hextends, s, hwrite, rfl⟩ := Ledger.append_eq_ok_iff.mp happend
      have hfollows := (Ledger.extends_iff_follows hf.valid hf.answers e).mp hextends
      exact ⟨hf.valid.snoc hfollows, Store.represents_concat hf.represents hfollows hwrite⟩
    · exact hf

/-- Every run that begins with an empty store is faithful. -/
theorem Ledger.faithful_run {l : Ledger σ} (hempty : Store.Represents l.store .empty)
    (calls : List LedgerCall) : (l.run calls).Faithful := by
  induction calls using List.reverseRecOn with
  | nil => exact ⟨.nil, hempty⟩
  | append_singleton calls call ih =>
    rw [Ledger.run, List.foldl_append]
    exact ih.step call

end

/-- Whether all histories of the runs that begin with an empty store of some kind have a property: a
store in memory, or a ledger directory, reached through a memory map or not. -/
structure InEveryRun (checkpoints : Checkpoints) (calls : List LedgerCall)
    (P : ∀ {σ : Type} [Store σ], History σ → Prop) : Prop where
  memory : ∀ metadata failWrites,
    P (Ledger.run { store := ({ metadata, failWrites } : Memory), checkpoints } calls)
  environment : ∀ metadata readOnly,
    P (Ledger.run
      { store := ({ tables := { metadata }, readOnly } : Environment), checkpoints } calls)
  mapped : ∀ metadata readOnly pages mapSize,
    P (Ledger.run
      { store := ({ environment := { tables := { metadata }, readOnly }, pages, mapSize } :
          MappedEnvironment),
        checkpoints } calls)

/-- What faithful histories have whose blocks were appended, under checkpoints that are still the same,
holds in every run. -/
theorem inEveryRun_of_faithful {checkpoints : Checkpoints} {calls : List LedgerCall}
    {P : ∀ {σ : Type} [Store σ], History σ → Prop}
    (hfaithful : ∀ {σ : Type} [Store σ] [Store.Lawful σ] (h : History σ), h.Faithful →
      (∀ e ∈ h.chain, .append e ∈ calls) → h.ledger.checkpoints = checkpoints → P h) :
    InEveryRun checkpoints calls P where
  memory metadata failWrites :=
    hfaithful _ (Ledger.faithful_run (Memory.represents_empty metadata failWrites) calls)
      (fun _ => Ledger.mem_chain_run) (Ledger.checkpoints_run _ calls)
  environment metadata _ :=
    hfaithful _ (Ledger.faithful_run (Tables.represents_empty metadata) calls)
      (fun _ => Ledger.mem_chain_run) (Ledger.checkpoints_run _ calls)
  mapped metadata _ _ _ :=
    hfaithful _ (Ledger.faithful_run (Tables.represents_empty metadata) calls)
      (fun _ => Ledger.mem_chain_run) (Ledger.checkpoints_run _ calls)

/-- Whether all ledgers under some checkpoints whose store is empty have a property, whatever the kind of the
store: one in memory, or a ledger directory, reached through a memory map or not. -/
structure InEveryEmptyLedger (checkpoints : Checkpoints)
    (P : ∀ {σ : Type} [Store σ] [Store.Refusing σ], Ledger σ → Prop) : Prop where
  memory : ∀ metadata failWrites, P { store := ({ metadata, failWrites } : Memory), checkpoints }
  environment : ∀ metadata readOnly,
    P { store := ({ tables := { metadata }, readOnly } : Environment), checkpoints }
  mapped : ∀ metadata readOnly pages mapSize,
    P { store := ({ environment := { tables := { metadata }, readOnly }, pages, mapSize } :
          MappedEnvironment),
        checkpoints }

/-- What ledgers have whose store represents an empty one, all empty ledgers have. -/
theorem inEveryEmptyLedger_of_represents {checkpoints : Checkpoints}
    {P : ∀ {σ : Type} [Store σ] [Store.Refusing σ], Ledger σ → Prop}
    (hempty : ∀ {σ : Type} [Store σ] [Store.Lawful σ] [Store.Refusing σ] [Store.LawfulRefusing σ]
      (l : Ledger σ), Store.Represents l.store .empty → l.checkpoints = checkpoints → P l) :
    InEveryEmptyLedger checkpoints P where
  memory metadata failWrites := hempty _ (Memory.represents_empty metadata failWrites) rfl
  environment metadata _ := hempty (_ : Ledger Environment) (Tables.represents_empty metadata) rfl
  mapped metadata _ _ _ := hempty (_ : Ledger MappedEnvironment) (Tables.represents_empty metadata) rfl

end RingDepth
