import Mathlib.Data.List.Perm.Subperm
import RingDepth.Proofs.Ledger.Growth
import RingDepth.Proofs.Ledger.Numbering

/-!
# Callers that share a store

Several callers append to one store, each under its own registry. An append is two steps: its checks read
the store, and then it writes. Nothing keeps the others from writing in between, and the write looks at
nothing that was checked. The steps of all callers may come in any order.

Appends that are done in turn leave a chain. Steps in another order come to the same as appends in turn if
they are timely: every write finds the store that the checks of its append read, or leaves the store as it
is. An append then takes place when it writes.
-/

namespace RingDepth

/-- A step of one of several callers. -/
inductive SharedStep (ι : Type) where
  | check (caller : ι) (e : Extension)
  /-- Writes the block that passed the last checks of the caller. -/
  | write (caller : ι)

/-- The caller that takes a step. -/
def SharedStep.caller {ι : Type} : SharedStep ι → ι
  | check caller _ => caller
  | write caller => caller

/-- What a caller holds between the two steps of an append: the block that passed the checks, and the store
that these read. -/
structure Checked (σ : Type) where
  extension : Extension
  read : σ

/-- A store that callers share, what each caller is about to write, and the blocks that were written, in
order. -/
structure Sharing (ι σ : Type) where
  store : σ
  checked : ι → Option (Checked σ) := fun _ => none
  written : List Extension := []

/-- The appends that callers begin, in order. -/
def begun {ι : Type} (steps : List (SharedStep ι)) : List (ι × Extension) :=
  steps.filterMap fun
    | .check caller e => some (caller, e)
    | .write _ => none

/-- The first step begins its append before the others begin theirs. -/
theorem begun_cons {ι : Type} (step : SharedStep ι) (rest : List (SharedStep ι)) :
    begun (step :: rest) = begun [step] ++ begun rest := by
  cases step <;> rfl

section

variable {ι σ : Type} [Store σ]

/-- Does the checks of an append. -/
def Ledger.check (l : Ledger σ) (e : Extension) : Except LedgerError Unit := do
  l.checkPlace e.block
  l.checkTransactions e.block e.transactions

/-- Does appends in turn, each under the registry of its caller; the first that is refused ends this. -/
def appendInTurn (registries : ι → Checkpoints) (s : σ) (order : List (ι × Extension)) :
    Except (Halt LedgerError) σ :=
  order.foldlM (fun s a =>
    (Ledger.append { store := s, checkpoints := registries a.1 } a.2.block a.2.transactions).map
      fun grown => grown.2.store) s

/-- The ledger of a caller. -/
def Sharing.ledger (x : Sharing ι σ) (registries : ι → Checkpoints) (caller : ι) : Ledger σ :=
  { store := x.store, checkpoints := registries caller }

variable [DecidableEq ι]

namespace Sharing

/-- Takes a step. A block that does not pass its checks is forgotten, and so is one that was written or that
the store did not take. -/
def step (registries : ι → Checkpoints) (x : Sharing ι σ) : SharedStep ι → Sharing ι σ
  | .check caller e =>
    match (x.ledger registries caller).check e with
    | .ok () => { x with checked := Function.update x.checked caller (some ⟨e, x.store⟩) }
    | .error _ => { x with checked := Function.update x.checked caller none }
  | .write caller =>
    match x.checked caller with
    | none => x
    | some a =>
      let checked := Function.update x.checked caller none
      match Store.writeBlock x.store a.extension.toWrite with
      | .ok store => { store, checked, written := x.written ++ [a.extension] }
      | .error _ => { x with checked }

/-- Takes the steps of all callers in some order. -/
def run (registries : ι → Checkpoints) (x : Sharing ι σ) (steps : List (SharedStep ι)) : Sharing ι σ :=
  steps.foldl (step registries) x

/-- A write finds the store that the checks of its append read, or leaves the store as it is. -/
def FindsRead (x : Sharing ι σ) : SharedStep ι → Prop
  | .check _ _ => True
  | .write caller => ∀ a s, x.checked caller = some a →
    Store.writeBlock x.store a.extension.toWrite = .ok s → x.store = a.read ∨ s = x.store

/-- Every write finds the store that the checks of its append read, or leaves the store as it is. -/
def Timely (registries : ι → Checkpoints) : Sharing ι σ → List (SharedStep ι) → Prop
  | _, [] => True
  | x, step :: rest => x.FindsRead step ∧ (x.step registries step).Timely registries rest

end Sharing

/-- What the steps of callers leave of a ledger is what some of their appends leave that are done in turn, in
some order. All of them are accepted, no height is written twice, and the store has the blocks and numbers
their outputs in this order. -/
structure InTurn (registries : ι → Checkpoints) (h : History σ) (steps : List (SharedStep ι))
    (order : List (ι × Extension)) : Prop where
  subset : order.Subperm (begun steps)
  accepted : appendInTurn registries h.ledger.store order =
    .ok (Sharing.run registries { store := h.ledger.store } steps).store
  heights : ((h.chain ++ order.map Prod.snd).map fun e => e.block.height).Nodup
  held : ∀ height,
    Store.blockHash (Sharing.run registries { store := h.ledger.store } steps).store height =
      Store.answer (.height height)
        ((h.chain ++ order.map Prod.snd).map fun e => e.block.hash)[height.toNat]?
  numbered : History.Numbered
    { chain := h.chain ++ order.map Prod.snd
      ledger := { store := (Sharing.run registries { store := h.ledger.store } steps).store } }

end

/-- What is held after a caller lets go was held before by another one. -/
theorem eq_some_of_update_none {ι α : Type} [DecidableEq ι] {held : ι → Option α} {caller other : ι}
    {a : α} (h : Function.update held caller none other = some a) :
    other ≠ caller ∧ held other = some a := by
  rw [Function.update_apply] at h
  split at h
  · cases h
  · exact ⟨‹_›, h⟩

/-- What is held after a caller takes something is this, or was held before by another one. -/
theorem eq_some_of_update_some {ι α : Type} [DecidableEq ι] {held : ι → Option α} {caller other : ι}
    {a b : α} (h : Function.update held caller (some b) other = some a) :
    (other = caller ∧ a = b) ∨ (other ≠ caller ∧ held other = some a) := by
  rw [Function.update_apply] at h
  split at h
  · exact .inl ⟨‹_›, (Option.some.inj h).symm⟩
  · exact .inr ⟨‹_›, h⟩

/-- Every height stands once in a valid chain. -/
theorem ValidChain.nodup_heights {checkpoints : Checkpoints} {chain : List Extension}
    (h : ValidChain checkpoints chain) : (chain.map fun e => e.block.height).Nodup := by
  induction h with
  | nil => exact List.nodup_nil
  | @snoc chain last valid follows ih =>
    rw [List.map_append, List.nodup_append]
    refine ⟨ih, List.nodup_singleton _, ?_⟩
    intro height hheight other hother hsame
    obtain ⟨e, he, rfl⟩ := List.mem_map.mp hheight
    obtain ⟨i, hi⟩ := List.getElem?_of_mem he
    obtain ⟨hlt, -⟩ := List.getElem?_eq_some_iff.mp hi
    have hlast : e.block.height = last.block.height := by simpa [hsame] using hother
    have hposition := valid.toNat_height hi
    have hnext := follows.height
    rw [hlast] at hposition
    omega

section

variable {ι σ : Type} [Store σ]

namespace Ledger

/-- An append does its checks and then writes. -/
theorem append_eq_check (l : Ledger σ) (e : Extension) :
    l.append e.block e.transactions = (do
      l.check e
      let store ← Halt.within LedgerError.storage (Store.writeBlock l.store e.toWrite)
      return (e.block.hash, { l with store })) := by
  rw [append, monadLift_bind_assoc]
  rfl

end Ledger

/-- Appends in turn are accepted exactly when the first is accepted and the others are after it. -/
theorem appendInTurn_cons_eq_ok_iff {registries : ι → Checkpoints} {s s' : σ} {p : ι × Extension}
    {order : List (ι × Extension)} :
    appendInTurn registries s (p :: order) = .ok s' ↔
      Ledger.Extends { store := s, checkpoints := registries p.1 } p.2.block p.2.transactions ∧
        ∃ next, Store.writeBlock s p.2.toWrite = .ok next ∧
          appendInTurn registries next order = .ok s' := by
  rw [appendInTurn, List.foldlM_cons, bind_eq_ok_iff]
  constructor
  · intro h
    obtain ⟨next, hnext, hrest⟩ := h
    obtain ⟨⟨hash, l⟩, happend, rfl⟩ := map_eq_ok_iff.mp hnext
    obtain ⟨-, hextends, written, hwrite, rfl⟩ := Ledger.append_eq_ok_iff.mp happend
    exact ⟨hextends, written, hwrite, hrest⟩
  · intro h
    obtain ⟨hextends, next, hwrite, hrest⟩ := h
    have happend := Ledger.append_eq_ok_iff.mpr ⟨rfl, hextends, next, hwrite, rfl⟩
    exact ⟨next, map_eq_ok_iff.mpr ⟨_, happend, rfl⟩, hrest⟩

section

variable [Store.Lawful σ] {registries : ι → Checkpoints} {chain : List Extension} {s s' : σ}
  {order : List (ι × Extension)}

/-- Appends in turn make the chain of a ledger longer by their blocks. -/
theorem faithful_appendInTurn
    (hf : History.Faithful { chain, ledger := { store := s, checkpoints := .empty } })
    (haccepted : appendInTurn registries s order = .ok s') :
    History.Faithful
      { chain := chain ++ order.map Prod.snd
        ledger := { store := s', checkpoints := .empty } } := by
  induction order generalizing chain s with
  | nil =>
    obtain rfl : s = s' := Except.ok.inj haccepted
    simpa using hf
  | cons p order ih =>
    obtain ⟨hextends, next, hwrite, hrest⟩ := appendInTurn_cons_eq_ok_iff.mp haccepted
    have hfollows : p.2.Follows .empty chain := hf.follows_of_extends hextends
    have hnext : History.Faithful
        { chain := chain ++ [p.2], ledger := { store := next, checkpoints := .empty } } :=
      ⟨hf.valid.snoc hfollows, Store.represents_concat hf.represents hfollows hwrite⟩
    rw [List.map_cons, List.append_cons]
    exact ih hnext hrest

/-- A history that is faithful under some registry is so under the one that pins nothing. -/
theorem History.Faithful.unpinned {h : History σ} (hf : h.Faithful) :
    History.Faithful
      { chain := h.chain, ledger := { store := h.ledger.store, checkpoints := .empty } } :=
  ⟨hf.valid.unpinned, hf.represents⟩

end

variable [DecidableEq ι]

namespace Sharing

variable {registries : ι → Checkpoints} {x : Sharing ι σ}

/-- What a step may do. -/
inductive StepTo (registries : ι → Checkpoints) (x : Sharing ι σ) :
    SharedStep ι → Sharing ι σ → Prop
  | passed {caller : ι} {e : Extension}
    (h : (x.ledger registries caller).Extends e.block e.transactions) :
    StepTo registries x (.check caller e)
      { x with checked := Function.update x.checked caller (some ⟨e, x.store⟩) }
  /-- A block does not pass its checks, or the store does not take it. -/
  | dropped {step : SharedStep ι} :
    StepTo registries x step { x with checked := Function.update x.checked step.caller none }
  | idle {caller : ι} : StepTo registries x (.write caller) x
  | wrote {caller : ι} {a : Checked σ} {s : σ} (ha : x.checked caller = some a)
    (hwrite : Store.writeBlock x.store a.extension.toWrite = .ok s) :
    StepTo registries x (.write caller)
      { store := s
        checked := Function.update x.checked caller none
        written := x.written ++ [a.extension] }

/-- Every step does one of these. -/
theorem stepTo (registries : ι → Checkpoints) (x : Sharing ι σ) (step : SharedStep ι) :
    StepTo registries x step (x.step registries step) := by
  cases step with
  | check caller e =>
    rw [Sharing.step]
    split
    · rename_i hcheck
      exact .passed (Ledger.checks_eq_ok_iff.mp hcheck)
    · exact .dropped
  | write caller =>
    rw [Sharing.step]
    split
    · exact .idle
    · rename_i a ha
      dsimp only
      split
      · rename_i s hwrite
        exact .wrote ha hwrite
      · exact .dropped

/-- The two steps of an append that follow each other are the append. -/
theorem store_run_append (registries : ι → Checkpoints) (x : Sharing ι σ) (caller : ι)
    (e : Extension) :
    (x.run registries [.check caller e, .write caller]).store =
      match (x.ledger registries caller).append e.block e.transactions with
      | .ok (_, grown) => grown.store
      | .error _ => x.store := by
  have hstore : (x.ledger registries caller).store = x.store := rfl
  rw [Ledger.append_eq_check, hstore]
  simp only [run, List.foldl_cons, List.foldl_nil, step]
  cases hcheck : (x.ledger registries caller).check e with
  | error cause =>
    simp only [Function.update_self]
    rfl
  | ok u =>
    simp only [Function.update_self]
    cases Store.writeBlock x.store e.toWrite with
    | error cause => rfl
    | ok s => rfl

/-- A caller holds a block that it is about to write. -/
def Holds (x : Sharing ι σ) (p : ι × Extension) : Prop :=
  ∃ a, x.checked p.1 = some a ∧ a.extension = p.2

/-- What the callers hold passed the checks of their ledgers over the stores that these read. -/
def Passed (registries : ι → Checkpoints) (x : Sharing ι σ) : Prop :=
  ∀ caller a, x.checked caller = some a →
    Ledger.Extends { store := a.read, checkpoints := registries caller }
      a.extension.block a.extension.transactions

/-- Every step keeps that what is held passed its checks. -/
theorem Passed.step (h : x.Passed registries) (step : SharedStep ι) :
    (x.step registries step).Passed registries := by
  have hto := stepTo registries x step
  generalize x.step registries step = next at hto
  intro other a ha
  cases hto with
  | passed hextends =>
    obtain ⟨rfl, rfl⟩ | ⟨-, hheld⟩ := eq_some_of_update_some ha
    · exact hextends
    · exact h other a hheld
  | dropped => exact h other a (eq_some_of_update_none ha).2
  | idle => exact h other a ha
  | wrote _ _ => exact h other a (eq_some_of_update_none ha).2

/-- What is held after a step was held before, or it is a block that passed its checks in the step. -/
theorem holds_of_step {step : SharedStep ι} {p : ι × Extension}
    (h : (x.step registries step).Holds p) : x.Holds p ∨ p ∈ begun [step] := by
  have hto := stepTo registries x step
  generalize x.step registries step = next at hto h
  obtain ⟨a, ha, hp⟩ := h
  cases hto with
  | @passed caller e hextends =>
    obtain ⟨hcaller, rfl⟩ | ⟨-, hheld⟩ := eq_some_of_update_some ha
    · right
      apply List.mem_singleton.mpr
      exact Prod.ext hcaller hp.symm
    · exact .inl ⟨a, hheld, hp⟩
  | dropped => exact .inl ⟨a, (eq_some_of_update_none ha).2, hp⟩
  | idle => exact .inl ⟨a, ha, hp⟩
  | wrote _ _ => exact .inl ⟨a, (eq_some_of_update_none ha).2, hp⟩

/-- A write that the store takes is recorded. -/
theorem written_step_write {caller : ι} {a : Checked σ} {s : σ} (ha : x.checked caller = some a)
    (hwrite : Store.writeBlock x.store a.extension.toWrite = .ok s) :
    (x.step registries (.write caller)).written = x.written ++ [a.extension] := by
  simp [step, ha, hwrite]

/-- Steps only add to the blocks that were written. -/
theorem written_prefix_run (registries : ι → Checkpoints) (x : Sharing ι σ)
    (steps : List (SharedStep ι)) : x.written <+: (x.run registries steps).written := by
  induction steps generalizing x with
  | nil => exact List.prefix_rfl
  | cons step rest ih =>
    refine List.IsPrefix.trans ?_ (ih (x.step registries step))
    have hto := stepTo registries x step
    generalize x.step registries step = next at hto
    cases hto with
    | passed _ => exact List.prefix_rfl
    | dropped => exact List.prefix_rfl
    | idle => exact List.prefix_rfl
    | wrote _ _ => exact List.prefix_append _ _

/-- A step writes no block but one that is held. -/
theorem mem_written_step {step : SharedStep ι} {e : Extension}
    (he : e ∈ (x.step registries step).written) : e ∈ x.written ∨ ∃ caller, x.Holds (caller, e) := by
  have hto := stepTo registries x step
  generalize x.step registries step = next at hto he
  cases hto with
  | passed _ => exact .inl he
  | dropped => exact .inl he
  | idle => exact .inl he
  | @wrote caller a s ha _ =>
    obtain hbefore | hlast := List.mem_append.mp he
    · exact .inl hbefore
    · exact .inr ⟨caller, a, ha, (List.mem_singleton.mp hlast).symm⟩

/-- No block is written that was not held and not begun. -/
theorem mem_written_run {steps : List (SharedStep ι)} {e : Extension}
    (he : e ∈ (x.run registries steps).written) :
    e ∈ x.written ∨ ∃ caller, x.Holds (caller, e) ∨ (caller, e) ∈ begun steps := by
  induction steps generalizing x with
  | nil => exact .inl he
  | cons step rest ih =>
    rw [begun_cons]
    obtain hwritten | ⟨caller, hheld | hbegun⟩ := ih he
    · obtain hwritten | ⟨caller, hheld⟩ := mem_written_step hwritten
      · exact .inl hwritten
      · exact .inr ⟨caller, .inl hheld⟩
    · obtain hheld | hbegun := holds_of_step hheld
      · exact .inr ⟨caller, .inl hheld⟩
      · exact .inr ⟨caller, .inr (List.mem_append_left _ hbegun)⟩
    · exact .inr ⟨caller, .inr (List.mem_append_right _ hbegun)⟩

/-- Callers write no block but those that they begin to append. -/
theorem mem_written_start {steps : List (SharedStep ι)} {s : σ} {e : Extension}
    (he : e ∈ (run registries { store := s } steps).written) :
    e ∈ (begun steps).map Prod.snd := by
  obtain hnone | ⟨caller, ⟨a, hnone, -⟩ | hbegun⟩ := mem_written_run he
  · cases hnone
  · cases hnone
  · exact List.mem_map.mpr ⟨_, hbegun, rfl⟩

/-- A step that is timely leaves the store as it is, or it accepts a block that is held. -/
theorem FindsRead.store_step (hpassed : x.Passed registries) {step : SharedStep ι}
    (h : x.FindsRead step) :
    (x.step registries step).store = x.store ∨
      ∃ p, x.Holds p ∧
        Ledger.Extends { store := x.store, checkpoints := registries p.1 } p.2.block
          p.2.transactions ∧
        Store.writeBlock x.store p.2.toWrite = .ok (x.step registries step).store := by
  have hto := stepTo registries x step
  generalize x.step registries step = next at hto
  cases hto with
  | passed _ => exact .inl rfl
  | dropped => exact .inl rfl
  | idle => exact .inl rfl
  | @wrote caller a s ha hwrite =>
    obtain hread | hsame := h a s ha hwrite
    · have hextends := hpassed caller a ha
      rw [← hread] at hextends
      exact .inr ⟨(caller, a.extension), ⟨a, ha, rfl⟩, hextends, hwrite⟩
    · exact .inl hsame

/-- Timely steps leave what some of the appends leave, done in turn. -/
theorem Timely.exists_appendInTurn {steps : List (SharedStep ι)} (hpassed : x.Passed registries)
    (h : x.Timely registries steps) :
    ∃ order, (∀ p ∈ order, x.Holds p ∨ p ∈ begun steps) ∧
      appendInTurn registries x.store order = .ok (x.run registries steps).store := by
  induction steps generalizing x with
  | nil => exact ⟨[], by simp, rfl⟩
  | cons step rest ih =>
    obtain ⟨hstep, hrest⟩ := h
    obtain ⟨order, hmem, haccepted⟩ := ih (hpassed.step step) hrest
    have hlater (p : ι × Extension) (hp : p ∈ order) : x.Holds p ∨ p ∈ begun (step :: rest) := by
      rw [begun_cons, List.mem_append]
      obtain hheld | hbegun := hmem p hp
      · obtain hheld | hbegun := holds_of_step hheld
        · exact .inl hheld
        · exact .inr (.inl hbegun)
      · exact .inr (.inr hbegun)
    obtain hsame | ⟨p, hheld, hextends, hwrite⟩ := hstep.store_step hpassed
    · rw [hsame] at haccepted
      exact ⟨order, hlater, haccepted⟩
    · refine ⟨p :: order, ?_, appendInTurn_cons_eq_ok_iff.mpr ⟨hextends, _, hwrite, haccepted⟩⟩
      exact List.forall_mem_cons.mpr ⟨.inl hheld, hlater⟩

end Sharing

section

variable [Store.Lawful σ] {registries : ι → Checkpoints} {order : List (ι × Extension)}
  {h : History σ} {steps : List (SharedStep ι)}

/-- Appends that were begun, and that leave in turn what the steps leave, are what the steps come to. -/
theorem inTurn_of_accepted (hf : h.Faithful) (hmem : ∀ p ∈ order, p ∈ begun steps)
    (haccepted : appendInTurn registries h.ledger.store order =
      .ok (Sharing.run registries { store := h.ledger.store } steps).store) :
    InTurn registries h steps order := by
  have hgrown := faithful_appendInTurn hf.unpinned haccepted
  have hheights := hgrown.valid.nodup_heights
  refine ⟨?subset, haccepted, hheights, ?held, hgrown.numbered⟩
  case subset =>
    refine List.Nodup.subperm ?_ hmem
    rw [List.map_append, List.map_map] at hheights
    exact (List.nodup_append.mp hheights).2.1.of_map
  case held =>
    intro height
    have hhash := hgrown.answers.blockHash height
    rw [Holdings.hashes_ofChain] at hhash
    exact hhash

/-- Timely steps leave what some of the appends leave, done in turn in the order of their writes. -/
theorem Sharing.Timely.exists_inTurn (hf : h.Faithful)
    (htimely : Sharing.Timely registries { store := h.ledger.store } steps) :
    ∃ order, InTurn registries h steps order := by
  have hpassed : Sharing.Passed registries ({ store := h.ledger.store } : Sharing ι σ) :=
    fun _ _ hnone => nomatch hnone
  obtain ⟨order, hmem, haccepted⟩ := htimely.exists_appendInTurn hpassed
  refine ⟨order, inTurn_of_accepted hf (fun p hp => ?_) haccepted⟩
  obtain ⟨a, hnone, -⟩ | hbegun := hmem p hp
  · cases hnone
  · exact hbegun

end

end

section

variable {ι : Type} [DecidableEq ι]

/-- Whether every write comes before any other one that follows the last check of its caller. Some callers
did their checks after the last write. -/
def Undisturbed : (current : List ι) → List (SharedStep ι) → Bool
  | _, [] => true
  | current, .check caller _ :: rest => Undisturbed (caller :: current) rest
  | current, .write caller :: rest => current.contains caller && Undisturbed [] rest

/-- Steps are timely, whatever the store, if no write comes between the check and the write of another
caller. -/
theorem Sharing.timely_of_undisturbed {σ : Type} [Store σ] {registries : ι → Checkpoints}
    {steps : List (SharedStep ι)} (current : List ι) {x : Sharing ι σ}
    (hread : ∀ caller ∈ current, ∀ a, x.checked caller = some a → x.store = a.read)
    (h : Undisturbed current steps = true) : x.Timely registries steps := by
  induction steps generalizing current x with
  | nil => trivial
  | cons step rest ih =>
    cases step with
    | check caller e =>
      refine ⟨trivial, ih (caller :: current) ?_ h⟩
      have hto := stepTo registries x (.check caller e)
      generalize x.step registries (.check caller e) = next at hto
      intro other hother a ha
      have hcurrent (hne : other ≠ caller) : other ∈ current :=
        (List.mem_cons.mp hother).resolve_left hne
      cases hto with
      | passed _ =>
        obtain ⟨-, rfl⟩ | ⟨hne, hheld⟩ := eq_some_of_update_some ha
        · rfl
        · exact hread other (hcurrent hne) a hheld
      | dropped =>
        obtain ⟨hne, hheld⟩ := eq_some_of_update_none ha
        exact hread other (hcurrent hne) a hheld
    | write caller =>
      rw [Undisturbed, Bool.and_eq_true, List.contains_iff_mem] at h
      obtain ⟨hcurrent, hrest⟩ := h
      refine ⟨fun a s ha _ => .inl (hread caller hcurrent a ha), ?_⟩
      exact ih [] (fun _ hnone => absurd hnone List.not_mem_nil) hrest

end

end RingDepth
