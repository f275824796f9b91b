import RingDepth.Proofs.Ledger.Run

/-!
# The numbers of outputs

Ring offsets refer to outputs by their numbers. After every run the number of an output is its position
among the outputs of its amount that the chain created, in the order of creation: block after block, in
a block the reward before the listed transactions, and in a transaction by position. Blocks that were
refused and writes that failed leave no trace in it, and neither does the way in which a store counts.
-/

namespace RingDepth

/-- The outputs of an amount that a transaction creates in a block. -/
def Transaction.created (t : Transaction) (height amount : UInt64) : List OutputLocation :=
  (t.outputs.filter fun output => output.amount = amount).map fun output =>
    { height, key := output.key }

/-- The outputs of an amount that a chain created, in the order of creation. -/
def createdBy (chain : List Extension) (amount : UInt64) : List OutputLocation :=
  chain.flatMap fun e => e.confirmed.flatMap fun t => t.created e.block.height amount

/-- The outputs of an amount that a block writes are those that its transactions create. -/
theorem Extension.filter_outputs_toWrite (e : Extension) (amount : UInt64) :
    (e.toWrite.outputs.filter fun entry => entry.1 = amount).map Prod.snd =
      e.confirmed.flatMap fun t => t.created e.block.height amount := by
  have houtputs : e.toWrite.outputs = e.confirmed.flatMap fun t => t.outputs.map fun output =>
      (output.amount, OutputLocation.mk e.block.height output.key) := rfl
  rw [houtputs, List.filter_flatMap, List.map_flatMap]
  congr 1
  funext t
  rw [List.filter_map, List.map_map]
  rfl

/-- What a store holds of an amount is what the chain created of it. -/
theorem Holdings.outputs_ofChain (chain : List Extension) (amount : UInt64) :
    (ofChain chain).outputs amount = createdBy chain amount := by
  induction chain using List.reverseRecOn with
  | nil => rfl
  | append_singleton chain e ih =>
    rw [ofChain_concat, createdBy, List.flatMap_append, List.flatMap_singleton,
      ← e.filter_outputs_toWrite, ← createdBy, ← ih]
    exact foldl_putOutput _ _ _

/-- Outputs are numbered in the order in which the chain created them, from zero on and below the count of
their amount. There is no output with another number. -/
structure History.Numbered {σ : Type} [Store σ] (h : History σ) : Prop where
  count : ∀ amount, ∃ n, Store.outputCount h.ledger.store amount = .ok n ∧
    n.toNat = (createdBy h.chain amount).length
  found : ∀ amount index location, (createdBy h.chain amount)[index.toNat]? = some location →
    Store.output h.ledger.store ⟨amount, index⟩ = .ok location
  missing : ∀ amount index, (createdBy h.chain amount).length ≤ index.toNat →
    Store.output h.ledger.store ⟨amount, index⟩ = .error (.notFound (.output ⟨amount, index⟩))

/-- A faithful history numbers its outputs in the order of creation. -/
theorem History.Faithful.numbered {σ : Type} [Store σ] [Store.Lawful σ] {h : History σ}
    (hf : h.Faithful) : h.Numbered := by
  have houtput (amount index : UInt64) : Store.output h.ledger.store ⟨amount, index⟩ =
      Store.answer (.output ⟨amount, index⟩) (createdBy h.chain amount)[index.toNat]? := by
    rw [hf.answers.output, Holdings.output?, Holdings.outputs_ofChain]
  constructor
  case count =>
    intro amount
    rw [← Holdings.outputs_ofChain]
    exact hf.answers.outputCount amount
  case found =>
    intro amount index location hlocation
    rw [houtput, hlocation]
    rfl
  case missing =>
    intro amount index hindex
    rw [houtput, List.getElem?_eq_none hindex]
    rfl

/-- After every run from an empty store, whichever blocks it took or refused and whichever writes failed,
outputs are numbered in the order of creation. -/
theorem numbered_run (checkpoints : Checkpoints) (calls : List LedgerCall) :
    InEveryRun checkpoints calls History.Numbered :=
  inEveryRun_of_faithful fun _ hf _ _ => hf.numbered

end RingDepth
