import RingDepth.Proofs.Ledger.Confirmation

/-!
# Why an append is refused

An append checks a block in a fixed order and is refused with the error of the first check that fails. The
checks are listed here with the errors of each, as a function of the chain that a ledger took; an append
is shown to search this list. If it finds no failure, all that remains is the write.
-/

namespace RingDepth

/-- A check of an append. Those of the supplied transactions have positions. -/
inductive AppendCheck where
  | height
  | parent
  | checkpoint
  | count
  | reward
  | listed (position : ℕ)
  | inputs (position : ℕ)
  | mints (position : ℕ)
  /-- It is new and is not the reward. -/
  | fresh (position : ℕ)
  /-- It is none of those before it. -/
  | repeated (position : ℕ)
deriving DecidableEq

namespace AppendCheck

/-- The checks that a transaction passes before the next one is looked at. -/
def ofPosition (position : ℕ) : List AppendCheck :=
  [listed position, inputs position, mints position, fresh position]

/-- The checks of the place of a block. -/
def ofPlace : List AppendCheck := [height, parent, checkpoint]

/-- The checks of some number of supplied transactions. -/
def ofTransactions (supplied : ℕ) : List AppendCheck :=
  [count, reward] ++ (List.range supplied).flatMap ofPosition ++ (List.range supplied).map repeated

/-- All checks of an append with some number of supplied transactions. -/
def inOrder (supplied : ℕ) : List AppendCheck := ofPlace ++ ofTransactions supplied

end AppendCheck

/-- Whether one of some transactions has a hash. -/
def hasHash (ts : List Transaction) (hash : TxHash) : Bool := ts.any fun t => t.hash = hash

/-- One of them has it exactly when it is in the list of their hashes. -/
theorem hasHash_iff {ts : List Transaction} {hash : TxHash} :
    hasHash ts hash = true ↔ hash ∈ ts.map Transaction.hash := by
  simp [hasHash]

namespace Extension

/-- How a check of an append to a chain fails, if it does. -/
def failure? (checkpoints : Checkpoints) (chain : List Extension) (e : Extension) :
    AppendCheck → Option LedgerError
  | .height =>
    let blocks := UInt64.ofNat chain.length
    if e.block.height ≠ blocks then some (.heightMismatch blocks e.block.height) else none
  | .parent =>
    let parent := lastHash chain
    if e.block.prevHash ≠ parent then some (.parentMismatch e.block.height parent e.block.prevHash)
    else none
  | .checkpoint => do
    let pinned ← checkpoints.get? e.block.height
    if pinned ≠ e.block.hash then
      some (.checkpoint (.mismatch e.block.height pinned e.block.hash))
    else none
  | .count =>
    let listed := e.block.txHashes.length
    let supplied := e.transactions.length
    if supplied ≠ listed then some (.transactionMismatch e.block.height (.length listed supplied))
    else none
  | .reward =>
    let hash := e.block.rewardTx.hash
    if hasHash (confirmedBy chain) hash then some (.duplicateTransaction hash) else none
  | .listed position => do
    let t ← e.transactions[position]?
    let listed ← e.block.txHashes[position]?
    if t.hash ≠ listed then some (.transactionMismatch e.block.height (.entry position listed t.hash))
    else none
  | .inputs position => do
    let t ← e.transactions[position]?
    if t.inputs.isEmpty then some (.invalidTransaction t.hash .noInputs) else none
  | .mints position => do
    let t ← e.transactions[position]?
    if t.inputs.any Input.isTerminal then some (.invalidTransaction t.hash .mints) else none
  | .fresh position => do
    let t ← e.transactions[position]?
    if hasHash (confirmedBy chain) t.hash ∨ t.hash = e.block.rewardTx.hash then
      some (.duplicateTransaction t.hash)
    else none
  | .repeated position => do
    let t ← e.transactions[position]?
    if hasHash (e.transactions.take position) t.hash then
      some (.duplicateTransaction t.hash)
    else none

/-- The failure of the first check of an append to a chain that fails, if one does. -/
def refusal? (checkpoints : Checkpoints) (chain : List Extension) (e : Extension) : Option LedgerError :=
  (AppendCheck.inOrder e.transactions.length).findSome? (e.failure? checkpoints chain)

end Extension

/-- What checks come to that found this failure or none. -/
def verdict {ε : Type} : Option ε → Except ε Unit
  | none => .ok ()
  | some e => .error e

section

variable {ε β : Type}

/-- Checks pass exactly when they found no failure. -/
theorem verdict_eq_ok_iff {x : Option ε} : verdict x = .ok () ↔ x = none := by
  cases x <;> simp [verdict]

/-- Checks that are done one after the other find the first failure. -/
theorem verdict_or (x y : Option ε) : verdict (x.or y) = verdict x >>= fun _ => verdict y := by
  cases x <;> rfl

/-- Two computations that do not count are run among those that do as one. -/
theorem monadLift_bind_assoc {α γ : Type} {x : Except ε α} {f : α → Except ε β}
    {k : β → Except (Halt ε) γ} :
    (liftM x >>= fun a => liftM (f a) >>= k : Except (Halt ε) γ) = liftM (x >>= f) >>= k := by
  cases x <;> rfl

/-- The first value in a list is that of its head, or else the first one behind it. -/
theorem findSome?_cons_eq_or {α : Type} (f : α → Option β) (x : α) (xs : List α) :
    (x :: xs).findSome? f = (f x).or (xs.findSome? f) := by
  rw [List.findSome?_cons]
  cases f x <;> rfl

/-- A check that throws comes to the failure that it throws. -/
theorem throwIf_eq_verdict {α : Type} {p : Prop} [Decidable p] {e : ε} {f : α → Except ε β}
    {x : Except ε β} : (if p then throw e >>= f else x) =
      verdict (if p then some e else none) >>= fun _ => x := by
  by_cases hp : p
  · simp only [if_pos hp]
    rfl
  · simp only [if_neg hp]
    rfl

/-- So does a check at the end. -/
theorem throwLastIf_eq_verdict {p : Prop} [Decidable p] {e : ε} :
    (if p then throw e else pure () : Except ε Unit) = verdict (if p then some e else none) := by
  by_cases hp : p
  · simp only [if_pos hp]
    rfl
  · simp only [if_neg hp]
    rfl

end

/-- What the checks of an append read of a ledger is what its chain tells: the number of blocks, the hash of
the last one, and whether a transaction is confirmed. -/
structure Ledger.Shows {σ : Type} [Store σ] (l : Ledger σ) (chain : List Extension) : Prop where
  height : l.height = .ok (UInt64.ofNat chain.length)
  parent : ∃ top, l.topHash = .ok top ∧ top.getD .zero = lastHash chain
  contains : ∀ hash, l.contains hash = .ok (hasHash (confirmedBy chain) hash)

namespace Ledger.Shows

variable {σ : Type} [Store σ] {l : Ledger σ} {chain : List Extension}

/-- The checks of the place of a block come to the first failure among them. -/
theorem checkPlace_eq (h : l.Shows chain) (e : Extension) :
    l.checkPlace e.block =
      verdict (AppendCheck.ofPlace.findSome? (e.failure? l.checkpoints chain)) := by
  obtain ⟨top, htop, hparent⟩ := h.parent
  have hcheckpoint : ((l.checkpoints.check e.block.height e.block.hash).mapError
      LedgerError.checkpoint >>= fun _ => pure ()) =
        verdict (e.failure? l.checkpoints chain .checkpoint) := by
    rw [Checkpoints.check, Extension.failure?]
    cases l.checkpoints.get? e.block.height with
    | none => rfl
    | some pinned => by_cases hsame : pinned = e.block.hash <;> simp [hsame] <;> rfl
  rw [AppendCheck.ofPlace, findSome?_cons_eq_or, findSome?_cons_eq_or, List.findSome?_singleton,
    verdict_or, verdict_or, ← hcheckpoint]
  unfold checkPlace
  rw [h.height]
  refine throwIf_eq_verdict.trans ?_
  congr 1
  funext _
  rw [htop]
  refine throwIf_eq_verdict.trans ?_
  rw [hparent]
  rfl

/-- The checks of a transaction come to the first failure among those of its position. -/
theorem checkListed_eq (h : l.Shows chain) {e : Extension} {position : ℕ} {t : Transaction}
    {listed : TxHash} (ht : e.transactions[position]? = some t)
    (hlisted : e.block.txHashes[position]? = some listed) :
    l.checkListed e.block position t listed =
      verdict ((AppendCheck.ofPosition position).findSome? (e.failure? l.checkpoints chain)) := by
  have hfresh : (l.contains t.hash >>= fun found =>
      if found || t.hash = e.block.rewardTx.hash then throw (.duplicateTransaction t.hash)
      else pure ()) = verdict (e.failure? l.checkpoints chain (.fresh position)) := by
    rw [h.contains]
    refine throwLastIf_eq_verdict.trans ?_
    simp [Extension.failure?, ht]
  rw [AppendCheck.ofPosition, findSome?_cons_eq_or, findSome?_cons_eq_or, findSome?_cons_eq_or,
    List.findSome?_singleton, verdict_or, verdict_or, verdict_or, ← hfresh]
  simp only [Extension.failure?, ht, hlisted]
  unfold checkListed
  refine throwIf_eq_verdict.trans ?_
  congr 1
  funext _
  refine throwIf_eq_verdict.trans ?_
  congr 1
  funext _
  exact throwIf_eq_verdict

/-- The checks of all transactions from a position on come to the first failure among those of their
positions. -/
theorem checkAllListed_eq (h : l.Shows chain) {e : Extension} {position : ℕ} {ts : List Transaction}
    {listed : List TxHash} (hts : ∀ i, ts[i]? = e.transactions[position + i]?)
    (hlisted : ∀ i, listed[i]? = e.block.txHashes[position + i]?)
    (hlength : ts.length = listed.length) :
    l.checkAllListed e.block position ts listed =
      verdict (((List.range' position ts.length).flatMap AppendCheck.ofPosition).findSome?
        (e.failure? l.checkpoints chain)) := by
  induction ts generalizing listed position with
  | nil => rfl
  | cons t ts ih =>
    cases listed with
    | nil => simp at hlength
    | cons first rest =>
      have ht : e.transactions[position]? = some t := (hts 0).symm
      have hfirst : e.block.txHashes[position]? = some first := (hlisted 0).symm
      have hts' (i : ℕ) : ts[i]? = e.transactions[position + 1 + i]? := by
        rw [Nat.add_right_comm]
        exact hts (i + 1)
      have hrest (i : ℕ) : rest[i]? = e.block.txHashes[position + 1 + i]? := by
        rw [Nat.add_right_comm]
        exact hlisted (i + 1)
      rw [checkAllListed, List.length_cons, List.range'_succ, List.flatMap_cons,
        List.findSome?_append, verdict_or, h.checkListed_eq ht hfirst,
        ih hts' hrest (by simpa using hlength)]

end Ledger.Shows

/-- The first hash that is repeated stands at the first position whose hash stands before it. -/
theorem Ledger.firstRepeated?_eq {hashes rest seen : List TxHash} {position : ℕ}
    (hrest : ∀ i, rest[i]? = hashes[position + i]?)
    (hseen : ∀ hash, hash ∈ seen ↔ hash ∈ hashes.take position) :
    firstRepeated? seen rest = (List.range' position rest.length).findSome? fun i =>
      hashes[i]?.filter fun hash => hash ∈ hashes.take i := by
  induction rest generalizing seen position with
  | nil => rfl
  | cons first rest ih =>
    have hfirst : hashes[position]? = some first := (hrest 0).symm
    rw [List.length_cons, List.range'_succ, List.findSome?_cons, hfirst, firstRepeated?,
      Option.filter_some]
    by_cases hmem : first ∈ seen
    · rw [if_pos hmem, decide_eq_true ((hseen first).mp hmem)]
      rfl
    · rw [if_neg hmem, decide_eq_false fun htaken => hmem ((hseen first).mpr htaken)]
      refine ih (fun i => ?_) fun hash => ?_
      · rw [Nat.add_right_comm]
        exact hrest (i + 1)
      · rw [List.take_add_one, hfirst, List.mem_append, ← hseen, List.mem_cons, or_comm]
        simp

/-- The search for a repeated transaction comes to the first failure among the positions. -/
theorem Ledger.firstRepeated?_eq_verdict (checkpoints : Checkpoints) (chain : List Extension)
    (e : Extension) :
    (match firstRepeated? [] (e.transactions.map Transaction.hash) with
      | some hash => throw (.duplicateTransaction hash)
      | none => return : Except LedgerError Unit) =
      verdict (((List.range e.transactions.length).map AppendCheck.repeated).findSome?
        (e.failure? checkpoints chain)) := by
  have hfailure : e.failure? checkpoints chain ∘ AppendCheck.repeated =
      Option.map LedgerError.duplicateTransaction ∘ fun i =>
        (e.transactions.map Transaction.hash)[i]?.filter fun hash =>
          hash ∈ (e.transactions.map Transaction.hash).take i := by
    funext i
    rw [Function.comp_apply, Function.comp_apply, ← List.map_take, List.getElem?_map,
      Extension.failure?]
    cases e.transactions[i]? with
    | none => rfl
    | some t =>
      by_cases hmem : t.hash ∈ (e.transactions.take i).map Transaction.hash
      · rw [Option.map_some, Option.filter_some, if_pos (decide_eq_true hmem)]
        exact if_pos (hasHash_iff.mpr hmem)
      · rw [Option.map_some, Option.filter_some, if_neg (mt of_decide_eq_true hmem)]
        exact if_neg (mt hasHash_iff.mp hmem)
  rw [List.findSome?_map, hfailure, ← List.map_findSome?, List.range_eq_range',
    ← List.length_map Transaction.hash, ← firstRepeated?_eq (fun i => by rw [Nat.zero_add])
      fun hash => by rw [List.take_zero]]
  cases firstRepeated? [] (e.transactions.map Transaction.hash) <;> rfl

namespace Ledger.Shows

variable {σ : Type} [Store σ] {l : Ledger σ} {chain : List Extension}

/-- The checks of the transactions of a block come to the first failure among them. -/
theorem checkTransactions_eq (h : l.Shows chain) (e : Extension) :
    l.checkTransactions e.block e.transactions =
      verdict ((AppendCheck.ofTransactions e.transactions.length).findSome?
        (e.failure? l.checkpoints chain)) := by
  rw [AppendCheck.ofTransactions, List.findSome?_append, List.findSome?_append,
    findSome?_cons_eq_or, List.findSome?_singleton, verdict_or, verdict_or, verdict_or,
    ← firstRepeated?_eq_verdict, bind_assoc, bind_assoc]
  unfold checkTransactions
  refine throwIf_eq_verdict.trans ?_
  by_cases hcount : e.transactions.length = e.block.txHashes.length
  · have hlisted := h.checkAllListed_eq (fun i => by rw [Nat.zero_add])
      (fun i => by rw [Nat.zero_add]) hcount
    rw [List.range_eq_range', ← hlisted, h.contains]
    congr 1
    funext _
    refine throwIf_eq_verdict.trans ?_
    rfl
  · rw [Extension.failure?, if_pos hcount]
    rfl

/-- The checks of an append come to the first failure among all of them. -/
theorem checks_eq (h : l.Shows chain) (e : Extension) :
    (l.checkPlace e.block >>= fun _ => l.checkTransactions e.block e.transactions) =
      verdict (e.refusal? l.checkpoints chain) := by
  rw [Extension.refusal?, AppendCheck.inOrder, List.findSome?_append, verdict_or, h.checkPlace_eq,
    h.checkTransactions_eq]

/-- No check of an append fails exactly when the block extends the ledger. -/
theorem refusal?_eq_none_iff (h : l.Shows chain) {e : Extension} :
    e.refusal? l.checkpoints chain = none ↔ l.Extends e.block e.transactions := by
  rw [← verdict_eq_ok_iff, ← h.checks_eq, checks_eq_ok_iff]

/-- An append gives the first failure of its checks. If there is none, it does the write. -/
theorem append_eq (h : l.Shows chain) (e : Extension) :
    l.append e.block e.transactions =
      match e.refusal? l.checkpoints chain with
      | some error => .error (.failure error)
      | none => (Halt.within LedgerError.storage (Store.writeBlock l.store e.toWrite)).map fun s =>
          (e.block.hash, { l with store := s }) := by
  unfold append
  rw [monadLift_bind_assoc, h.checks_eq]
  cases e.refusal? l.checkpoints chain with
  | some error => rfl
  | none =>
    change (Halt.within LedgerError.storage (Store.writeBlock l.store e.toWrite) >>= fun s =>
      pure (e.block.hash, { l with store := s })) = _
    cases Halt.within LedgerError.storage (Store.writeBlock l.store e.toWrite) <;> rfl

/-- An append is refused with the first failure of its checks, or with that of the write if no check
fails. -/
theorem append_eq_error_iff (h : l.Shows chain) {e : Extension} {halt : Halt LedgerError} :
    l.append e.block e.transactions = .error halt ↔
      (∃ error, e.refusal? l.checkpoints chain = some error ∧ halt = .failure error) ∨
        (e.refusal? l.checkpoints chain = none ∧
          ∃ cause, Store.writeBlock l.store e.toWrite = .error cause ∧
            halt = cause.map LedgerError.storage) := by
  rw [h.append_eq]
  cases e.refusal? l.checkpoints chain with
  | some error => simp [eq_comm]
  | none =>
    cases hwrite : Store.writeBlock l.store e.toWrite with
    | error cause => simp [Halt.within, mapError_error, Except.map, eq_comm]
    | ok s => simp [Halt.within, mapError_ok, Except.map]

end Ledger.Shows

end RingDepth
