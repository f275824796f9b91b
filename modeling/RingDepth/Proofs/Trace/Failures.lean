import RingDepth.Proofs.Trace.Graph

/-!
# How parts of a trace fail

A part of a trace that is put together from others fails only as they do. What expands transactions fails
for a transaction, a block or an output that it looks up; that a search is lost or goes too deep is for
the search to say.
-/

namespace RingDepth

namespace Traced

variable {α β : Type} {P : TraceError → Prop}

/-- The result of two parts is that of the second, from the result of the first. -/
theorem result_bind (x : Traced α) (f : α → Traced β) :
    (x >>= f).result = x.result >>= fun a => (f a).result := by
  change (bind x f).result = _
  rcases x with e | ⟨a, v⟩
  · rfl
  · rcases hf : f a with e | ⟨b, w⟩ <;>
      simp [bind, result, Except.map, Bind.bind, Except.bind, hf]

/-- Whether a part of a trace has no failures but some. -/
def FailsOnly (P : TraceError → Prop) (x : Traced α) : Prop := ∀ e, x.result = .error e → P e

namespace FailsOnly

/-- A value has no failures. -/
theorem pure (a : α) : FailsOnly P (Pure.pure a : Traced α) := fun _ h => nomatch h

/-- Counting work has none. -/
theorem spend (w : Work) : FailsOnly P (Traced.spend w) := fun _ h => nomatch h

/-- What is raised is the failure. -/
theorem throw {e : TraceError} (he : P e) : FailsOnly P (MonadExcept.throw e : Traced α) := by
  intro e' h
  obtain rfl : e = e' := Except.error.inj h
  exact he

/-- Two parts fail as the first does, or as the second does on what the first one gives. -/
theorem bind_of_result {x : Traced α} {f : α → Traced β} (hx : FailsOnly P x)
    (hf : ∀ a, x.result = .ok a → FailsOnly P (f a)) : FailsOnly P (x >>= f) := by
  intro e h
  rw [result_bind] at h
  cases hresult : x.result with
  | error e' =>
    rw [hresult] at h
    obtain rfl : e' = e := Except.error.inj h
    exact hx e' hresult
  | ok a =>
    rw [hresult] at h
    exact hf a hresult e h

/-- Two parts fail as either of them does. -/
theorem bind {x : Traced α} {f : α → Traced β} (hx : FailsOnly P x)
    (hf : ∀ a, FailsOnly P (f a)) : FailsOnly P (x >>= f) :=
  hx.bind_of_result fun a _ => hf a

end FailsOnly

end Traced

/-- Whether a failure arises where transactions are expanded, and not in the search that expands them. -/
def TraceError.OfExpansion : TraceError → Prop
  | .exhausted _ _ => False
  | .depthLimit _ _ => False
  | _ => True

namespace Trace

open Traced (FailsOnly)

variable {r : Reader} {policy : OwnerPolicy}

/-- Fetching a transaction fails for this transaction. -/
theorem failsOnly_fetchTransaction (hash : TxHash) :
    FailsOnly TraceError.OfExpansion (fetchTransaction r hash) := by
  refine .bind (.spend _) fun _ => ?_
  split
  · exact .pure _
  all_goals exact .throw trivial

/-- Fetching a block fails for this block. -/
theorem failsOnly_fetchBlock (height : UInt64) :
    FailsOnly TraceError.OfExpansion (fetchBlock r height) := by
  refine .bind (.spend _) fun _ => ?_
  split
  · exact .pure _
  all_goals exact .throw trivial

/-- Looking up an output fails for this output. -/
theorem failsOnly_locate (id : OutputId) : FailsOnly TraceError.OfExpansion (locate r id) := by
  refine .bind (.spend _) fun _ => ?_
  split
  · exact .pure _
  all_goals exact .throw trivial

/-- Looking for the first owner fails where fetching fails. -/
theorem failsOnly_firstOwner (key : PublicKey) (hashes : List TxHash) :
    FailsOnly TraceError.OfExpansion (firstOwner r key hashes) := by
  induction hashes with
  | nil => exact .pure _
  | cons hash rest ih =>
    refine .bind (failsOnly_fetchTransaction hash) fun t => ?_
    split
    · exact .pure _
    · exact ih

/-- Looking for the only owner fails where fetching fails, and where two owners differ. -/
theorem failsOnly_onlyOwner (id : OutputId) (location : OutputLocation) (known : Option TxHash)
    (hashes : List TxHash) :
    FailsOnly TraceError.OfExpansion (onlyOwner r id location known hashes) := by
  induction hashes generalizing known with
  | nil => exact .pure _
  | cons hash rest ih =>
    refine .bind (failsOnly_fetchTransaction hash) fun t => ?_
    split
    · split
      · split
        · exact ih _
        · exact .throw trivial
      · exact ih _
    · exact ih _

/-- Finding an owner fails for what is looked up, and where there is no owner or are two. -/
theorem failsOnly_findOwner (id : OutputId) :
    FailsOnly TraceError.OfExpansion (findOwner r policy id) := by
  refine .bind (failsOnly_locate id) fun location => ?_
  refine .bind (failsOnly_fetchBlock _) fun b => .bind ?_ fun found => ?_
  · unfold ownerIn
    dsimp only
    split
    · exact .pure _
    · exact failsOnly_firstOwner _ _
    · exact failsOnly_onlyOwner _ _ _ _
  · split
    · exact .pure _
    · exact .throw trivial

/-- Finding the owners of a ring fails where finding one of them fails. -/
theorem failsOnly_ownersOf (amount : UInt64) (ring : List UInt64) :
    FailsOnly TraceError.OfExpansion (ownersOf r policy amount ring) := by
  induction ring with
  | nil => exact .pure _
  | cons index rest ih =>
    exact .bind (failsOnly_findOwner _) fun _ => .bind ih fun _ => .pure _

/-- Expanding inputs fails where a ring does not read, or where an owner is not found. -/
theorem failsOnly_expandInputs (hash : TxHash) (inputs : List Input) :
    FailsOnly TraceError.OfExpansion (expandInputs r policy hash inputs) := by
  induction inputs with
  | nil => exact .pure _
  | cons input rest ih =>
    cases input with
    | terminal height => exact .pure _
    | keyed amount keyOffsets keyImage =>
      refine .bind ?_ fun ring => ?_
      · unfold ringOf
        split
        · exact .pure _
        · exact .throw trivial
      · exact .bind (failsOnly_ownersOf amount ring) fun _ => .bind ih fun _ => .pure _

/-- Expanding a level raises none of the failures of the search. -/
theorem failsOnly_expandAll (hashes : List TxHash) :
    FailsOnly TraceError.OfExpansion (expandAll r policy hashes) := by
  induction hashes with
  | nil => exact .pure _
  | cons hash rest ih =>
    refine .bind ?_ fun _ => .bind ih fun _ => .pure _
    exact .bind (failsOnly_fetchTransaction hash) fun t => failsOnly_expandInputs hash t.inputs

end Trace

end RingDepth
