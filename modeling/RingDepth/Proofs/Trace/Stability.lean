import RingDepth.Proofs.Trace.Failures

/-!
# Traces over lookups that find more

Other lookups may find more than these do, and find again all that these find. A trace then comes to the
same end over both, with the same work, unless it fails over these where transactions are expanded: there
something was not found, or was not what it should be. That the search runs out or goes too deep is decided
by what was found.
-/

namespace RingDepth

/-- Other lookups find again what these find. -/
structure Reader.KeptBy (r r' : Reader) : Prop where
  transaction : ∀ {hash t}, r.transaction hash = .ok (some t) → r'.transaction hash = .ok (some t)
  block : ∀ {height b}, r.block height = .ok (some b) → r'.block height = .ok (some b)
  output : ∀ {id location}, r.output id = .ok (some location) → r'.output id = .ok (some location)

/-- Whether a trace found a depth, or was ended by the search. -/
inductive Trace.Settled : Except TraceError TraceOutcome → Prop
  | found (outcome : TraceOutcome) : Settled (.ok outcome)
  | exhausted (start : TxHash) (depth : ℕ) : Settled (.error (.exhausted start depth))
  | depthLimit (start : TxHash) (limit : UInt64) : Settled (.error (.depthLimit start limit))

namespace Traced

variable {α β : Type}

/-- Whether a part of a trace comes to the same end as another one, unless it fails where transactions are
expanded. -/
def KeptBy (x y : Traced α) : Prop := (∃ e, x = .error e ∧ e.OfExpansion) ∨ y = x

namespace KeptBy

/-- What does not look anything up is kept. -/
theorem refl (x : Traced α) : KeptBy x x := .inr rfl

/-- Nothing need be kept of a failure. -/
theorem failed {e : TraceError} {y : Traced α} (he : e.OfExpansion) : KeptBy (throw e) y :=
  .inl ⟨e, rfl, he⟩

/-- Two parts are kept if both are. -/
theorem bind {x y : Traced α} {f g : α → Traced β} (hx : KeptBy x y) (hf : ∀ a, KeptBy (f a) (g a)) :
    KeptBy (x >>= f) (y >>= g) := by
  change KeptBy (Traced.bind x f) (Traced.bind y g)
  obtain ⟨e, hfail, he⟩ | hsame := hx
  · exact .inl ⟨e, by rw [hfail]; rfl, he⟩
  rw [hsame]
  rcases x with e | ⟨a, v⟩
  · exact .inr rfl
  obtain ⟨e, hfail, he⟩ | hsame := hf a
  · exact .inl ⟨e, by rw [Traced.bind, hfail], he⟩
  · exact .inr (by simp [Traced.bind, hsame])

/-- A choice is kept if what it is between is. -/
theorem ite {p : Prop} [Decidable p] {x y x' y' : Traced α} (hx : KeptBy x y) (hx' : KeptBy x' y') :
    KeptBy (if p then x else x') (if p then y else y') := by
  split
  · exact hx
  · exact hx'

end KeptBy

end Traced

namespace Reader.KeptBy

open Trace

variable {r r' : Reader} {policy : OwnerPolicy}

/-- A transaction that is fetched is fetched again. -/
theorem fetchTransaction (h : KeptBy r r') (hash : TxHash) :
    Traced.KeptBy (Trace.fetchTransaction r hash) (Trace.fetchTransaction r' hash) := by
  refine .bind (.refl _) fun _ => ?_
  split
  · rename_i t ht
    rw [h.transaction ht]
    exact .refl _
  all_goals exact .failed trivial

/-- A block that is fetched is fetched again. -/
theorem fetchBlock (h : KeptBy r r') (height : UInt64) :
    Traced.KeptBy (Trace.fetchBlock r height) (Trace.fetchBlock r' height) := by
  refine .bind (.refl _) fun _ => ?_
  split
  · rename_i b hb
    rw [h.block hb]
    exact .refl _
  all_goals exact .failed trivial

/-- An output that is located is located again. -/
theorem locate (h : KeptBy r r') (id : OutputId) :
    Traced.KeptBy (Trace.locate r id) (Trace.locate r' id) := by
  refine .bind (.refl _) fun _ => ?_
  split
  · rename_i location hlocation
    rw [h.output hlocation]
    exact .refl _
  all_goals exact .failed trivial

/-- The first owner is found again. -/
theorem firstOwner (h : KeptBy r r') (key : PublicKey) (hashes : List TxHash) :
    Traced.KeptBy (Trace.firstOwner r key hashes) (Trace.firstOwner r' key hashes) := by
  induction hashes with
  | nil => exact .refl _
  | cons hash rest ih =>
    refine .bind (h.fetchTransaction hash) fun t => ?_
    split
    · exact .refl _
    · exact ih

/-- The only owner is found again. -/
theorem onlyOwner (h : KeptBy r r') (id : OutputId) (location : OutputLocation) (known : Option TxHash)
    (hashes : List TxHash) :
    Traced.KeptBy (Trace.onlyOwner r id location known hashes)
      (Trace.onlyOwner r' id location known hashes) := by
  induction hashes generalizing known with
  | nil => exact .refl _
  | cons hash rest ih =>
    refine .bind (h.fetchTransaction hash) fun t => ?_
    split
    · split
      · split
        · exact ih _
        · exact .failed trivial
      · exact ih _
    · exact ih _

/-- The owner of an output is found again. -/
theorem findOwner (h : KeptBy r r') (id : OutputId) :
    Traced.KeptBy (Trace.findOwner r policy id) (Trace.findOwner r' policy id) := by
  refine .bind (h.locate id) fun location => .bind (h.fetchBlock _) fun b => .bind ?_ fun _ => .refl _
  unfold ownerIn
  dsimp only
  split
  · exact .refl _
  · exact h.firstOwner _ _
  · exact h.onlyOwner _ _ _ _

/-- So are those of a ring. -/
theorem ownersOf (h : KeptBy r r') (amount : UInt64) (ring : List UInt64) :
    Traced.KeptBy (Trace.ownersOf r policy amount ring) (Trace.ownersOf r' policy amount ring) := by
  induction ring with
  | nil => exact .refl _
  | cons index rest ih => exact .bind (h.findOwner _) fun _ => .bind ih fun _ => .refl _

/-- Inputs that are expanded lead to the same owners again. -/
theorem expandInputs (h : KeptBy r r') (hash : TxHash) (inputs : List Input) :
    Traced.KeptBy (Trace.expandInputs r policy hash inputs) (Trace.expandInputs r' policy hash inputs) := by
  induction inputs with
  | nil => exact .refl _
  | cons input rest ih =>
    cases input with
    | terminal height => exact .refl _
    | keyed amount keyOffsets keyImage =>
      exact .bind (.refl _) fun ring => .bind (h.ownersOf amount ring) fun _ => .bind ih fun _ => .refl _

/-- A level that is expanded leads to the same owners again. -/
theorem expandAll (h : KeptBy r r') (hashes : List TxHash) :
    Traced.KeptBy (Trace.expandAll r policy hashes) (Trace.expandAll r' policy hashes) := by
  induction hashes with
  | nil => exact .refl _
  | cons hash rest ih =>
    refine .bind ?_ fun _ => .bind ih fun _ => .refl _
    exact .bind (h.fetchTransaction hash) fun t => h.expandInputs hash t.inputs

/-- A search goes through the same levels again. -/
theorem search (h : KeptBy r r') (c : TraceConfig) (start : TxHash) (fuel : ℕ)
    (frontier met : Std.ExtTreeSet TxHash) (depth : ℕ) :
    Traced.KeptBy (Trace.search r c start fuel frontier met depth)
      (Trace.search r' c start fuel frontier met depth) := by
  induction fuel generalizing frontier met depth with
  | zero => exact .refl _
  | succ fuel ih =>
    rw [Trace.search, Trace.search]
    refine .bind (h.expandAll frontier.toList) fun level => .ite (.refl _) ?_
    refine .ite (.bind (.refl _) fun _ => ?_) ?_
    -- The next level is searched in the same way whether this one was counted or not.
    all_goals
      cases exceeds c (depth + 1) with
      | some limit => exact .refl _
      | none => exact ih _ _ _

/-- A trace that is settled comes to the same end over lookups that find more. -/
theorem trace (h : KeptBy r r') {c : TraceConfig} {start : TxHash}
    (hsettled : Settled (RingDepth.trace r c start)) :
    RingDepth.trace r' c start = RingDepth.trace r c start := by
  have hkept := h.search c start hashCount (.ofList [start]) (.ofList [start]) 0
  unfold RingDepth.trace at hsettled ⊢
  dsimp only at hsettled ⊢
  generalize Trace.search r c start hashCount (.ofList [start]) (.ofList [start]) 0 = x at hsettled hkept ⊢
  obtain ⟨e, rfl, he⟩ | hsame := hkept
  · change Settled (.error e) at hsettled
    cases hsettled <;> exact he.elim
  · rw [hsame]

end Reader.KeptBy

end RingDepth
