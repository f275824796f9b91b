import RingDepth.Proofs.Trace.Failures
import RingDepth.Proofs.Trace.Distance
import RingDepth.Proofs.Trace.Ownership

/-!
# Rejecting two owners

A search for the owner of an output that takes the first one ends there. One that rejects two owners goes on
through the whole block, so it fetches more and fails more often. But it never comes to another owner: what it
has found before it looks at the rest of the block is the first one. So a trace that rejects two owners and
gives a depth gives the same depth where the first owner is taken.

If all transactions of the block can be fetched, then what both searches find is told by the list of the
owners. The one takes its head, and the other one fails exactly if the list holds something else.
-/

namespace RingDepth

namespace Traced

variable {α β : Type}

/-- Whether a part of a trace gives no result but the one that another part gives. It may fail where the other
one does not. -/
def Refines (x y : Traced α) : Prop := ∀ a, x.result = .ok a → y.result = .ok a

namespace Refines

/-- Each part gives its own result. -/
theorem refl (x : Traced α) : Refines x x := fun _ h => h

/-- Two parts give no result but that of two others if each gives none but that of its other. -/
theorem bind {x y : Traced α} {f g : α → Traced β} (hx : Refines x y) (hf : ∀ a, Refines (f a) (g a)) :
    Refines (x >>= f) (y >>= g) := by
  intro b h
  obtain ⟨a, ha, hb⟩ := result_bind_eq_ok.mp h
  exact result_bind_eq_ok.mpr ⟨a, hx a ha, hf a b hb⟩

/-- So do choices, if what they are between does. -/
theorem ite {p : Prop} [Decidable p] {x y x' y' : Traced α} (hx : Refines x y) (hx' : Refines x' y') :
    Refines (if p then x else x') (if p then y else y') := by
  split
  · exact hx
  · exact hx'

end Refines

end Traced

namespace Trace

open Traced (Refines)

/-- The owners of a key among some transactions, in their order. -/
def ownersAmong (key : PublicKey) (ts : List Transaction) : List TxHash :=
  (ts.filter fun t => t.owns key).map Transaction.hash

/-- Whether some hashes begin with one of them, and with no other before the second one. -/
def FirstTwo (hashes : List TxHash) (first second : TxHash) : Prop :=
  ∃ n rest, hashes = List.replicate (n + 1) first ++ second :: rest ∧ first ≠ second

/-- What some owners of an output come to where two different ones are rejected. -/
def onlyOf (id : OutputId) (height : UInt64) : List TxHash → Except TraceError (Option TxHash)
  | [] => .ok none
  | first :: rest =>
    match rest.find? fun hash => hash ≠ first with
    | none => .ok (some first)
    | some second => .error (.ambiguousOwner id height first second)

variable {r : Reader} {id : OutputId} {location : OutputLocation} {key : PublicKey} {b : Block}
  {hashes : List TxHash} {ts : List Transaction} {first second : TxHash}

/-- A transaction in front of others is the first owner if it is one. -/
theorem ownersAmong_cons (t : Transaction) :
    ownersAmong key (t :: ts) =
      if t.owns key = true then t.hash :: ownersAmong key ts else ownersAmong key ts := by
  rw [ownersAmong, ownersAmong, List.filter_cons]
  split <;> rfl

/-- The first owner and the first one behind it that differs are the first two. -/
theorem firstTwo_cons_iff {hash : TxHash} {rest : List TxHash} :
    FirstTwo (hash :: rest) first second ↔
      hash = first ∧ rest.find? (fun hash => hash ≠ first) = some second := by
  rw [List.find?_eq_some_iff_append]
  constructor
  · rintro ⟨n, behind, heq, hne⟩
    rw [List.replicate_succ, List.cons_append] at heq
    obtain ⟨rfl, rfl⟩ := List.cons.inj heq
    exact ⟨rfl, by simpa using hne.symm, _, behind, rfl, by simp⟩
  · rintro ⟨rfl, hne, front, behind, rfl, hfront⟩
    have hsame : front = List.replicate front.length hash :=
      List.eq_replicate_of_mem fun other hother => by simpa using hfront other hother
    refine ⟨front.length, behind, ?_, fun heq => by simp [heq] at hne⟩
    rw [List.replicate_succ, ← hsame]
    rfl

/-- There are a first and a second one exactly if two of the hashes differ. -/
theorem exists_firstTwo_iff :
    (∃ first second, FirstTwo hashes first second) ↔ ∃ x ∈ hashes, ∃ y ∈ hashes, x ≠ y := by
  constructor
  · rintro ⟨first, second, n, rest, rfl, hne⟩
    exact ⟨first, by simp, second, by simp, hne⟩
  · rintro ⟨x, hx, y, hy, hne⟩
    cases hashes with
    | nil => cases hx
    | cons hash rest =>
      cases hfind : rest.find? fun other => other ≠ hash with
      | some second => exact ⟨hash, second, firstTwo_cons_iff.mpr ⟨rfl, hfind⟩⟩
      | none =>
        have hsame : ∀ other ∈ hash :: rest, other = hash := by simpa using hfind
        exact absurd ((hsame x hx).trans (hsame y hy).symm) hne

/-- Owners are rejected for the first two that differ. -/
theorem onlyOf_eq_error_iff {height : UInt64} {e : TraceError} :
    onlyOf id height hashes = .error e ↔
      ∃ first second, FirstTwo hashes first second ∧ e = .ambiguousOwner id height first second := by
  cases hashes with
  | nil => simp [onlyOf, FirstTwo]
  | cons hash rest =>
    rw [onlyOf]
    constructor
    · intro h
      split at h
      · cases h
      · rename_i second hfind
        exact ⟨hash, second, firstTwo_cons_iff.mpr ⟨rfl, hfind⟩, (Except.error.inj h).symm⟩
    · rintro ⟨first, second, htwo, rfl⟩
      obtain ⟨rfl, hfind⟩ := firstTwo_cons_iff.mp htwo
      rw [hfind]

/-- If they are not rejected, then the first one is found. -/
theorem eq_head?_of_onlyOf {height : UInt64} {found : Option TxHash}
    (h : onlyOf id height hashes = .ok found) : found = hashes.head? := by
  unfold onlyOf at h
  split at h
  · exact (Except.ok.inj h).symm
  · split at h
    · exact (Except.ok.inj h).symm
    · cases h

/-- Where the first owner is taken, the first of the owners among the listed transactions is found, if all of
them can be fetched. -/
theorem result_firstOwner_of_fetched
    (hfetched : List.Forall₂ (fun hash t => r.transaction hash = .ok (some t)) hashes ts) :
    (firstOwner r key hashes).result = .ok (ownersAmong key ts).head? := by
  induction hfetched with
  | nil => rfl
  | @cons hash t _ _ ht _ ih =>
    rw [firstOwner, Traced.result_bind_eq_ok]
    refine ⟨t, result_fetchTransaction ht, ?_⟩
    rw [ownersAmong_cons]
    split
    · rfl
    · exact ih

/-- Where two owners are rejected, the owner that is known before and those among the listed transactions come
to what is found, if all of them can be fetched. -/
theorem result_onlyOwner {known : Option TxHash}
    (hfetched : List.Forall₂ (fun hash t => r.transaction hash = .ok (some t)) hashes ts) :
    (onlyOwner r id location known hashes).result =
      onlyOf id location.height (known.toList ++ ownersAmong location.key ts) := by
  induction hfetched generalizing known with
  | nil => cases known <;> rfl
  | @cons hash t _ _ ht _ ih =>
    rw [onlyOwner, Traced.result_bind, result_fetchTransaction ht, ownersAmong_cons]
    change (if t.owns location.key = true then _ else _ : Traced (Option TxHash)).result = _
    split
    · cases known with
      | none => exact ih
      | some first =>
        dsimp only
        split_ifs with hsame
        · rw [ih]
          simp [onlyOf, hsame]
        · simp [onlyOf, Ne.symm hsame]
    · exact ih

/-- The first of all owners in a block is found where the first one is taken. -/
theorem result_ownerIn_firstMatch
    (hfetched : List.Forall₂ (fun hash t => r.transaction hash = .ok (some t)) b.txHashes ts) :
    (ownerIn r .firstMatch id location b).result =
      .ok (ownersAmong location.key (b.rewardTx :: ts)).head? := by
  unfold ownerIn
  rw [ownersAmong_cons]
  cases b.rewardTx.owns location.key with
  | true => rfl
  | false => exact result_firstOwner_of_fetched hfetched

/-- All owners in a block come to what is found where two of them are rejected. -/
theorem result_ownerIn_rejectAmbiguous
    (hfetched : List.Forall₂ (fun hash t => r.transaction hash = .ok (some t)) b.txHashes ts) :
    (ownerIn r .rejectAmbiguous id location b).result =
      onlyOf id location.height (ownersAmong location.key (b.rewardTx :: ts)) := by
  change (onlyOwner r id location _ b.txHashes).result = _
  rw [result_onlyOwner hfetched, ownersAmong_cons]
  split_ifs <;> rfl

/-- Two owners are rejected exactly if two transactions of the block own the output, for the first two of
them. -/
theorem result_findOwner_eq_ambiguous_iff (hlocation : r.output id = .ok (some location))
    (hblock : r.block location.height = .ok (some b))
    (hfetched : List.Forall₂ (fun hash t => r.transaction hash = .ok (some t)) b.txHashes ts)
    {named : OutputId} {height : UInt64} :
    (findOwner r .rejectAmbiguous id).result = .error (.ambiguousOwner named height first second) ↔
      named = id ∧ height = location.height ∧
        FirstTwo (ownersAmong location.key (b.rewardTx :: ts)) first second := by
  rw [result_findOwner_of_located hlocation hblock, result_ownerIn_rejectAmbiguous hfetched]
  generalize ownersAmong location.key (b.rewardTx :: ts) = owners
  cases hfound : onlyOf id location.height owners with
  | error e =>
    obtain ⟨first', second', htwo, rfl⟩ := onlyOf_eq_error_iff.mp hfound
    change Except.error _ = Except.error _ ↔ _
    constructor
    · intro h
      cases h
      exact ⟨rfl, rfl, htwo⟩
    · rintro ⟨rfl, rfl, htwo'⟩
      have hsame := hfound.symm.trans (onlyOf_eq_error_iff.mpr ⟨first, second, htwo', rfl⟩)
      exact congrArg Except.error (Except.error.inj hsame)
  | ok found =>
    refine iff_of_false ?_ ?_
    · cases found <;> nofun
    · rintro ⟨-, -, htwo⟩
      cases hfound.symm.trans (onlyOf_eq_error_iff.mpr ⟨first, second, htwo, rfl⟩)

/-- In a block the only owner is the first one. -/
theorem refines_ownerIn :
    Refines (ownerIn r .rejectAmbiguous id location b) (ownerIn r .firstMatch id location b) := by
  intro found h
  obtain ⟨ts, hfetched, -⟩ := result_ownerIn_eq_ok_iff.mp h
  rw [result_ownerIn_rejectAmbiguous hfetched] at h
  rw [result_ownerIn_firstMatch hfetched, eq_head?_of_onlyOf h]

/-- The only owner of an output is its first one. -/
theorem refines_findOwner (id : OutputId) :
    Refines (findOwner r .rejectAmbiguous id) (findOwner r .firstMatch id) :=
  .bind (.refl _) fun _ => .bind (.refl _) fun _ => .bind refines_ownerIn fun _ => .refl _

/-- So are the owners of a ring. -/
theorem refines_ownersOf (amount : UInt64) (ring : List UInt64) :
    Refines (ownersOf r .rejectAmbiguous amount ring) (ownersOf r .firstMatch amount ring) := by
  induction ring with
  | nil => exact .refl _
  | cons index rest ih => exact .bind (refines_findOwner _) fun _ => .bind ih fun _ => .refl _

/-- Inputs lead to no others. -/
theorem refines_expandInputs (hash : TxHash) (inputs : List Input) :
    Refines (expandInputs r .rejectAmbiguous hash inputs) (expandInputs r .firstMatch hash inputs) := by
  induction inputs with
  | nil => exact .refl _
  | cons input rest ih =>
    cases input with
    | terminal height => exact .refl _
    | keyed amount keyOffsets keyImage =>
      exact .bind (.refl _) fun ring => .bind (refines_ownersOf amount ring) fun _ =>
        .bind ih fun _ => .refl _

/-- Neither does a level. -/
theorem refines_expandAll (hashes : List TxHash) :
    Refines (expandAll r .rejectAmbiguous hashes) (expandAll r .firstMatch hashes) := by
  induction hashes with
  | nil => exact .refl _
  | cons hash rest ih =>
    refine .bind ?_ fun _ => .bind ih fun _ => .refl _
    exact .bind (.refl _) fun t => refines_expandInputs hash t.inputs

/-- A search goes through the same levels. -/
theorem refines_search (c : TraceConfig) (start : TxHash) (fuel : ℕ) (frontier met : Std.ExtTreeSet TxHash)
    (depth : ℕ) :
    Refines (search r { c with ownerPolicy := .rejectAmbiguous } start fuel frontier met depth)
      (search r { c with ownerPolicy := .firstMatch } start fuel frontier met depth) := by
  induction fuel generalizing frontier met depth with
  | zero => exact .refl _
  | succ fuel ih =>
    rw [search, search]
    refine .bind (refines_expandAll _) fun level => .ite (.refl _) ?_
    refine .ite (.bind (.refl _) fun _ => ?_) ?_
    all_goals
      have hlimit (policy : OwnerPolicy) :
          exceeds { c with ownerPolicy := policy } (depth + 1) = exceeds c (depth + 1) := rfl
      rw [hlimit .rejectAmbiguous, hlimit .firstMatch]
      cases exceeds c (depth + 1) with
      | some limit => exact .refl _
      | none => exact ih _ _ _

/-- Rejecting two owners refines taking the first one. An owner that is found where two are rejected is found
where the first one is taken. If the block of an output and all transactions that it lists can be fetched, then
two owners are rejected exactly if two transactions of the block with different hashes have an output with the
key, and the failure names the first two. So a trace that rejects two owners and gives a depth gives the same
depth where the first owner is taken, whatever the limit is. -/
theorem strict_refines_first (r : Reader) :
    (∀ id owner, (findOwner r .rejectAmbiguous id).result = .ok owner →
      (findOwner r .firstMatch id).result = .ok owner) ∧
    (∀ id location b ts, r.output id = .ok (some location) → r.block location.height = .ok (some b) →
      List.Forall₂ (fun hash t => r.transaction hash = .ok (some t)) b.txHashes ts →
        ((∃ named height first second, (findOwner r .rejectAmbiguous id).result =
            .error (.ambiguousOwner named height first second)) ↔
          ∃ x ∈ ownersAmong location.key (b.rewardTx :: ts),
            ∃ y ∈ ownersAmong location.key (b.rewardTx :: ts), x ≠ y) ∧
        ∀ named height first second, (findOwner r .rejectAmbiguous id).result =
            .error (.ambiguousOwner named height first second) ↔
          named = id ∧ height = location.height ∧
            FirstTwo (ownersAmong location.key (b.rewardTx :: ts)) first second) ∧
    ∀ (c : TraceConfig) start depth,
      (∃ work, trace r { c with ownerPolicy := .rejectAmbiguous } start = .ok { start, depth, work }) →
        ∃ work, trace r { c with ownerPolicy := .firstMatch } start = .ok { start, depth, work } := by
  refine ⟨fun id => refines_findOwner id, ?ambiguous, ?depth⟩
  case ambiguous =>
    intro id location b ts hlocation hblock hfetched
    have hnames (named : OutputId) (height : UInt64) (first second : TxHash) :
        (findOwner r .rejectAmbiguous id).result = .error (.ambiguousOwner named height first second) ↔
          named = id ∧ height = location.height ∧
            FirstTwo (ownersAmong location.key (b.rewardTx :: ts)) first second :=
      result_findOwner_eq_ambiguous_iff hlocation hblock hfetched
    refine ⟨?_, hnames⟩
    rw [← exists_firstTwo_iff]
    simp [hnames]
  case depth =>
    intro c start depth h
    rw [exists_trace_eq_ok_iff] at h ⊢
    exact refines_search c start _ _ _ 0 depth h

end Trace

end RingDepth
