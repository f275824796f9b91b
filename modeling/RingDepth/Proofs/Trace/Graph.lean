import Mathlib.Data.List.Basic
import RingDepth.Trace.Search

/-!
# The graph that a trace walks

A transaction leads to the owners of the outputs that its keyed inputs name, up to its first input
that mints. This file says so without mention of levels, counted work or the order of a search, and
shows that expanding transactions finds exactly the edges that leave them.

An edge leaves only a transaction that can be expanded as a whole. A walk therefore never passes a
transaction at which the search would have failed.
-/

namespace RingDepth

namespace Traced

variable {α β : Type}

/-- A value without work is its own result. -/
@[simp] theorem result_pure (a : α) : (Pure.pure a : Traced α).result = .ok a := rfl

/-- A failure is its own result. -/
@[simp] theorem result_throw (e : TraceError) : (throw e : Traced α).result = .error e := rfl

/-- Counting work has no result of interest. -/
@[simp] theorem result_spend (w : Work) : (spend w).result = .ok () := rfl

/-- Two parts of a trace give a result exactly when both do, the second from the result of the first. -/
theorem result_bind_eq_ok {x : Traced α} {f : α → Traced β} {b : β} :
    (x >>= f).result = .ok b ↔ ∃ a, x.result = .ok a ∧ (f a).result = .ok b := by
  change (bind x f).result = .ok b ↔ _
  rcases x with e | ⟨a, v⟩
  · simp [bind, result, Except.map]
  · rcases hf : f a with e | ⟨c, w⟩ <;> simp [bind, result, Except.map, hf]

end Traced

/-- The inputs that a trace looks at: those before the first that mints. -/
def Transaction.tracedInputs (t : Transaction) : List Input :=
  t.inputs.takeWhile fun input => !input.isTerminal

/-- Whether some input of a transaction mints. -/
def Transaction.mints (t : Transaction) : Bool := t.inputs.any Input.isTerminal

/-- Whether an input names an output: one of its amount, at one of the indices of its ring. -/
def Input.Names : Input → OutputId → Prop
  | .terminal _, _ => False
  | .keyed amount keyOffsets _, id =>
    id.amount = amount ∧ ∃ ring, Offsets.toAbsolute keyOffsets = .ok ring ∧ id.index ∈ ring

namespace Trace

variable (r : Reader) (policy : OwnerPolicy)

/-- Whether an input can be followed: its ring reads, and every output that it names has an owner. -/
def Followable (input : Input) : Prop :=
  (∃ ring, input.absoluteOffsets = .ok ring) ∧
    ∀ id, input.Names id → ∃ owner, (findOwner r policy id).result = .ok owner

/-- Whether a hash names a transaction that mints. -/
def Mints (hash : TxHash) : Prop := ∃ t, r.transaction hash = .ok (some t) ∧ t.mints = true

/-- Whether a hash names a transaction whose inputs before the first that mints can be followed. -/
def Expandable (hash : TxHash) : Prop :=
  ∃ t, r.transaction hash = .ok (some t) ∧ ∀ input ∈ t.tracedInputs, Followable r policy input

/-- An edge: from a transaction that can be expanded to the owner of an output that it names. -/
def LeadsTo (hash owner : TxHash) : Prop :=
  Expandable r policy hash ∧ ∃ t, r.transaction hash = .ok (some t) ∧
    ∃ input ∈ t.tracedInputs, ∃ id, input.Names id ∧ (findOwner r policy id).result = .ok owner

variable {r policy}

/-- Fetching gives the transaction that the reader holds. -/
theorem result_fetchTransaction_eq_ok {hash : TxHash} {t : Transaction} :
    (fetchTransaction r hash).result = .ok t ↔ r.transaction hash = .ok (some t) := by
  unfold fetchTransaction
  simp only [Traced.result_bind_eq_ok, Traced.result_spend]
  split <;> simp_all

/-- Fetching a transaction that the reader holds gives it. -/
theorem result_fetchTransaction {hash : TxHash} {t : Transaction}
    (h : r.transaction hash = .ok (some t)) : (fetchTransaction r hash).result = .ok t :=
  result_fetchTransaction_eq_ok.mpr h

/-- The first owner among transactions that the reader holds is the first that has the key. -/
theorem result_firstOwner {key : PublicKey} {ts : List Transaction}
    (h : ∀ t ∈ ts, r.transaction t.hash = .ok (some t)) :
    (firstOwner r key (ts.map Transaction.hash)).result =
      .ok ((ts.find? fun t => t.owns key).map Transaction.hash) := by
  induction ts with
  | nil => rfl
  | cons t rest ih =>
    obtain ⟨ht, hrest⟩ := List.forall_mem_cons.mp h
    rw [List.map_cons, firstOwner, Traced.result_bind_eq_ok]
    refine ⟨t, result_fetchTransaction ht, ?_⟩
    cases howns : t.owns key with
    | true =>
      rw [List.find?_cons, howns]
      rfl
    | false =>
      rw [List.find?_cons, howns]
      exact ih hrest

/-- The owners of a ring are found exactly when each of its outputs has an owner. -/
theorem exists_result_ownersOf_iff {amount : UInt64} {ring : List UInt64} :
    (∃ owners, (ownersOf r policy amount ring).result = .ok owners) ↔
      ∀ index ∈ ring, ∃ owner, (findOwner r policy ⟨amount, index⟩).result = .ok owner := by
  induction ring with
  | nil => simp [ownersOf]
  | cons index rest ih =>
    rw [List.forall_mem_cons, ← ih, ownersOf]
    simp only [Traced.result_bind_eq_ok, Traced.result_pure]
    refine ⟨fun hleft => ?_, fun hright => ?_⟩
    · obtain ⟨_, owner, howner, owners, howners, -⟩ := hleft
      exact ⟨⟨owner, howner⟩, owners, howners⟩
    · obtain ⟨⟨owner, howner⟩, owners, howners⟩ := hright
      exact ⟨_, owner, howner, owners, howners, rfl⟩

/-- The owners of a ring are those of its outputs. -/
theorem mem_ownersOf {amount : UInt64} {ring : List UInt64} {owners : List TxHash}
    (h : (ownersOf r policy amount ring).result = .ok owners) (owner : TxHash) :
    owner ∈ owners ↔ ∃ index ∈ ring, (findOwner r policy ⟨amount, index⟩).result = .ok owner := by
  induction ring generalizing owners with
  | nil =>
    rw [ownersOf, Traced.result_pure, Except.ok.injEq] at h
    subst h
    simp
  | cons index rest ih =>
    rw [ownersOf] at h
    simp only [Traced.result_bind_eq_ok, Traced.result_pure, Except.ok.injEq] at h
    obtain ⟨first, hfirst, others, hothers, rfl⟩ := h
    simp [ih hothers, hfirst, eq_comm]

/-- A keyed input can be followed exactly when its ring reads and the owners of the ring are found. -/
theorem followable_keyed_iff {amount : UInt64} {keyOffsets : List UInt64} {keyImage : KeyImage} :
    Followable r policy (.keyed amount keyOffsets keyImage) ↔
      ∃ ring, Offsets.toAbsolute keyOffsets = .ok ring ∧
        ∃ owners, (ownersOf r policy amount ring).result = .ok owners := by
  simp only [exists_result_ownersOf_iff]
  refine ⟨fun hleft => ?_, fun hright => ?_⟩
  · obtain ⟨⟨ring, hring⟩, howners⟩ := hleft
    exact ⟨ring, hring, fun index hindex => howners ⟨amount, index⟩ ⟨rfl, ring, hring, hindex⟩⟩
  · obtain ⟨ring, hring, howners⟩ := hright
    refine ⟨⟨ring, hring⟩, ?_⟩
    rintro ⟨_, index⟩ ⟨rfl, ring', hring', hindex⟩
    obtain rfl : ring = ring' := Except.ok.inj (hring.symm.trans hring')
    exact howners index hindex

/-- Reading a ring gives its indices. -/
theorem result_ringOf_eq_ok {hash : TxHash} {keyOffsets ring : List UInt64} :
    (ringOf hash keyOffsets).result = .ok ring ↔ Offsets.toAbsolute keyOffsets = .ok ring := by
  unfold ringOf
  split <;> simp_all

/-- Inputs are expanded exactly when those before the first that mints can be followed. -/
theorem exists_result_expandInputs_iff {hash : TxHash} {inputs : List Input} :
    (∃ x, (expandInputs r policy hash inputs).result = .ok x) ↔
      ∀ input ∈ inputs.takeWhile fun input => !input.isTerminal, Followable r policy input := by
  induction inputs with
  | nil => simp [expandInputs]
  | cons input rest ih =>
    cases input with
    | terminal height => simp [expandInputs, Input.isTerminal]
    | keyed amount keyOffsets keyImage =>
      rw [List.takeWhile_cons_of_pos rfl, List.forall_mem_cons, ← ih, followable_keyed_iff,
        expandInputs]
      simp only [Traced.result_bind_eq_ok, Traced.result_pure, result_ringOf_eq_ok]
      refine ⟨fun hleft => ?_, fun hright => ?_⟩
      · obtain ⟨_, ring, hring, owners, howners, others, hothers, -⟩ := hleft
        exact ⟨⟨ring, hring, owners, howners⟩, others, hothers⟩
      · obtain ⟨⟨ring, hring, owners, howners⟩, others, hothers⟩ := hright
        exact ⟨_, ring, hring, owners, howners, others, hothers, rfl⟩

/-- An expansion knows whether some input mints, also one after those that it followed. -/
theorem minted_expandInputs {hash : TxHash} {inputs : List Input} {x : Expansion}
    (h : (expandInputs r policy hash inputs).result = .ok x) :
    x.minted = inputs.any Input.isTerminal := by
  induction inputs generalizing x with
  | nil =>
    rw [expandInputs, Traced.result_pure, Except.ok.injEq] at h
    subst h
    rfl
  | cons input rest ih =>
    cases input with
    | terminal height =>
      rw [expandInputs, Traced.result_pure, Except.ok.injEq] at h
      subst h
      rfl
    | keyed amount keyOffsets keyImage =>
      rw [expandInputs] at h
      simp only [Traced.result_bind_eq_ok, Traced.result_pure, Except.ok.injEq] at h
      obtain ⟨_, -, owners, -, others, hothers, rfl⟩ := h
      simp [ih hothers, Input.isTerminal]

/-- An expansion holds the owners of the outputs that the inputs before the first that mints name. -/
theorem mem_owners_expandInputs {hash : TxHash} {inputs : List Input} {x : Expansion}
    (h : (expandInputs r policy hash inputs).result = .ok x) (owner : TxHash) :
    owner ∈ x.owners ↔ ∃ input ∈ inputs.takeWhile fun input => !input.isTerminal,
      ∃ id, input.Names id ∧ (findOwner r policy id).result = .ok owner := by
  induction inputs generalizing x with
  | nil =>
    rw [expandInputs, Traced.result_pure, Except.ok.injEq] at h
    subst h
    simp
  | cons input rest ih =>
    cases input with
    | terminal height =>
      rw [expandInputs, Traced.result_pure, Except.ok.injEq] at h
      subst h
      simp [Input.isTerminal]
    | keyed amount keyOffsets keyImage =>
      rw [expandInputs] at h
      simp only [Traced.result_bind_eq_ok, Traced.result_pure, Except.ok.injEq,
        result_ringOf_eq_ok] at h
      obtain ⟨ring, hring, owners, howners, others, hothers, rfl⟩ := h
      rw [List.takeWhile_cons_of_pos rfl, List.exists_mem_cons_iff, ← ih hothers,
        Expansion.owners_append, List.mem_append, mem_ownersOf howners]
      refine or_congr_left ⟨?_, ?_⟩
      · intro hspent
        obtain ⟨index, hindex, howner⟩ := hspent
        exact ⟨⟨amount, index⟩, ⟨rfl, ring, hring, hindex⟩, howner⟩
      · intro hspent
        obtain ⟨⟨_, index⟩, ⟨rfl, ring', hring', hindex⟩, howner⟩ := hspent
        obtain rfl : ring = ring' := Except.ok.inj (hring.symm.trans hring')
        exact ⟨index, hindex, howner⟩

/-- A transaction is expanded exactly when it can be. -/
theorem exists_result_expand_iff {hash : TxHash} :
    (∃ x, (expand r policy hash).result = .ok x) ↔ Expandable r policy hash := by
  rw [expand]
  simp only [Traced.result_bind_eq_ok, result_fetchTransaction_eq_ok]
  refine ⟨fun hleft => ?_, fun hright => ?_⟩
  · obtain ⟨x, t, ht, hx⟩ := hleft
    exact ⟨t, ht, exists_result_expandInputs_iff.mp ⟨x, hx⟩⟩
  · obtain ⟨t, ht, hfollow⟩ := hright
    obtain ⟨x, hx⟩ := exists_result_expandInputs_iff.mpr hfollow
    exact ⟨x, t, ht, hx⟩

/-- What expanding a transaction finds: whether it mints, and the edges that leave it. -/
theorem expand_spec {hash : TxHash} {x : Expansion} (h : (expand r policy hash).result = .ok x) :
    (x.minted = true ↔ Mints r hash) ∧ ∀ owner, owner ∈ x.owners ↔ LeadsTo r policy hash owner := by
  have hexp : Expandable r policy hash := exists_result_expand_iff.mp ⟨x, h⟩
  rw [expand] at h
  simp only [Traced.result_bind_eq_ok, result_fetchTransaction_eq_ok] at h
  obtain ⟨t, ht, hx⟩ := h
  have hunique {t' : Transaction} (ht' : r.transaction hash = .ok (some t')) : t' = t :=
    Option.some.inj (Except.ok.inj (ht'.symm.trans ht))
  refine ⟨?_, fun owner => ?_⟩
  · rw [minted_expandInputs hx]
    constructor
    · exact fun hmint => ⟨t, ht, hmint⟩
    · intro hmints
      obtain ⟨t', ht', hmint⟩ := hmints
      exact hunique ht' ▸ hmint
  · rw [mem_owners_expandInputs hx]
    constructor
    · exact fun hedge => ⟨hexp, t, ht, hedge⟩
    · intro hleads
      obtain ⟨-, t', ht', hedge⟩ := hleads
      exact hunique ht' ▸ hedge

/-- A level is expanded exactly when each of its transactions can be. -/
theorem exists_result_expandAll_iff {hashes : List TxHash} :
    (∃ x, (expandAll r policy hashes).result = .ok x) ↔
      ∀ hash ∈ hashes, Expandable r policy hash := by
  induction hashes with
  | nil => simp [expandAll]
  | cons hash rest ih =>
    rw [List.forall_mem_cons, ← ih, ← exists_result_expand_iff, expandAll]
    simp only [Traced.result_bind_eq_ok, Traced.result_pure]
    refine ⟨fun hleft => ?_, fun hright => ?_⟩
    · obtain ⟨_, x, hx, others, hothers, -⟩ := hleft
      exact ⟨⟨x, hx⟩, others, hothers⟩
    · obtain ⟨⟨x, hx⟩, others, hothers⟩ := hright
      exact ⟨_, x, hx, others, hothers, rfl⟩

/-- What expanding a level finds: whether one of its transactions mints, and the edges that leave it. -/
theorem expandAll_spec {hashes : List TxHash} {x : Expansion}
    (h : (expandAll r policy hashes).result = .ok x) :
    (x.minted = true ↔ ∃ hash ∈ hashes, Mints r hash) ∧
      ∀ owner, owner ∈ x.owners ↔ ∃ hash ∈ hashes, LeadsTo r policy hash owner := by
  induction hashes generalizing x with
  | nil =>
    rw [expandAll, Traced.result_pure, Except.ok.injEq] at h
    subst h
    simp
  | cons hash rest ih =>
    rw [expandAll] at h
    simp only [Traced.result_bind_eq_ok, Traced.result_pure, Except.ok.injEq] at h
    obtain ⟨first, hfirst, others, hothers, rfl⟩ := h
    obtain ⟨hmint, hedges⟩ := expand_spec hfirst
    obtain ⟨hmints, hedgesRest⟩ := ih hothers
    constructor
    · rw [List.exists_mem_cons_iff, ← hmint, ← hmints, Expansion.minted_append, Bool.or_eq_true]
    · intro owner
      rw [List.exists_mem_cons_iff, ← hedges, ← hedgesRest, Expansion.owners_append, List.mem_append]

end Trace

end RingDepth
