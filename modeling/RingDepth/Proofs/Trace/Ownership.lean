import Mathlib.Data.List.Forall2
import RingDepth.Proofs.Trace.Failures

/-!
# The only owner of an output

The owner of an output is looked for in the block at the height at which the output is. Where two owners are
rejected, the search looks at all transactions of the block: its reward, and those that it lists. It finds an
owner exactly if all of them can be fetched, and those that have an output with the key are one and the same
transaction.
-/

namespace RingDepth.Trace

variable {r : Reader} {id : OutputId} {location : OutputLocation} {b : Block}

/-- What is found in the block of an output is its owner, if there is one. -/
theorem result_findOwner_of_located {policy : OwnerPolicy} (hlocation : r.output id = .ok (some location))
    (hblock : r.block location.height = .ok (some b)) :
    (findOwner r policy id).result =
      (ownerIn r policy id location b).result >>= fun found =>
        match found with
        | some hash => .ok hash
        | none => .error (.ownerNotFound id location.height) := by
  have hlocate : (locate r id).result = .ok location := by
    rw [locate, hlocation]
    rfl
  have hfetch : (fetchBlock r location.height).result = .ok b := by
    rw [fetchBlock, hblock]
    rfl
  rw [findOwner, Traced.result_bind, hlocate]
  change (fetchBlock r location.height >>= _).result = _
  rw [Traced.result_bind, hfetch]
  change (ownerIn r policy id location b >>= _).result = _
  rw [Traced.result_bind]
  congr 1
  funext found
  cases found <;> rfl

/-- The only owner among the listed transactions, and one that may be known before them, is found exactly if
all of them can be fetched, and there is no other. -/
theorem result_onlyOwner_eq_ok_iff {known found : Option TxHash} {hashes : List TxHash} :
    (onlyOwner r id location known hashes).result = .ok found ↔
      ∃ ts, List.Forall₂ (fun hash t => r.transaction hash = .ok (some t)) hashes ts ∧
        ∀ hash, (known = some hash ∨ ∃ t ∈ ts, t.owns location.key = true ∧ t.hash = hash) ↔
          found = some hash := by
  induction hashes generalizing known with
  | nil =>
    simp only [onlyOwner, Traced.result_pure, Except.ok.injEq, List.forall₂_nil_left_iff, exists_eq_left,
      List.not_mem_nil, false_and, exists_false, or_false]
    exact ⟨fun h hash => h ▸ Iff.rfl, fun h => Option.ext h⟩
  | cons hash rest ih =>
    simp only [onlyOwner, Traced.result_bind_eq_ok, result_fetchTransaction_eq_ok,
      List.forall₂_cons_left_iff]
    -- Both sides fetch the same transaction, and are then compared for the rest of the list.
    have hsplit (P : List Transaction → Prop) :
        (∃ ts, (∃ t ts', r.transaction hash = .ok (some t) ∧
          List.Forall₂ (fun hash t => r.transaction hash = .ok (some t)) rest ts' ∧ ts = t :: ts') ∧ P ts) ↔
        ∃ t, r.transaction hash = .ok (some t) ∧
          ∃ ts', List.Forall₂ (fun hash t => r.transaction hash = .ok (some t)) rest ts' ∧ P (t :: ts') := by
      constructor
      · rintro ⟨_, ⟨t, ts', ht, hts, rfl⟩, hP⟩
        exact ⟨t, ht, ts', hts, hP⟩
      · rintro ⟨t, ht, ts', hts, hP⟩
        exact ⟨_, ⟨t, ts', ht, hts, rfl⟩, hP⟩
    rw [hsplit]
    refine exists_congr fun t => and_congr_right fun _ => ?_
    cases howns : t.owns location.key with
    | false => simp [howns, ih]
    | true =>
      rw [if_pos rfl]
      cases known with
      | none =>
        rw [ih]
        simp [howns]
      | some first =>
        dsimp only
        split_ifs with hsame
        · rw [ih]
          simp [howns, ← hsame]
        · refine iff_of_false (by simp) ?_
          rintro ⟨ts', -, honly⟩
          have hfirst := (honly first).mp (.inl rfl)
          have hsecond := (honly t.hash).mp (.inr ⟨t, List.mem_cons_self, howns, rfl⟩)
          exact hsame (Option.some.inj (hfirst.symm.trans hsecond))

/-- Where two owners are rejected, the owner in a block is found exactly if all transactions that the block
lists can be fetched, and it is the only one among them and the reward. -/
theorem result_ownerIn_eq_ok_iff {found : Option TxHash} :
    (ownerIn r .rejectAmbiguous id location b).result = .ok found ↔
      ∃ ts, List.Forall₂ (fun hash t => r.transaction hash = .ok (some t)) b.txHashes ts ∧
        ∀ hash, (∃ t ∈ b.rewardTx :: ts, t.owns location.key = true ∧ t.hash = hash) ↔
          found = some hash := by
  change (onlyOwner r id location _ b.txHashes).result = .ok found ↔ _
  rw [result_onlyOwner_eq_ok_iff]
  cases howns : b.rewardTx.owns location.key with
  | true => simp [howns]
  | false => simp [howns]

end RingDepth.Trace
