/-!
# Counters of 64 bits

Heights, indices and totals are counted in 64 bits. A computation that counts either finishes, or
fails with an error of its own, or halts because a counter would pass `2 ^ 64 - 1`.
-/

namespace RingDepth

/-- Why a computation that counts came to no result: a counter would pass its greatest value, or it failed
with an error of its own. -/
inductive Halt (ε : Type) where
  | overflow
  | failure (e : ε)
deriving DecidableEq, Repr

namespace Halt

variable {ε δ : Type}

/-- Turns the error of a halt into another one. -/
def map (f : ε → δ) : Halt ε → Halt δ
  | overflow => overflow
  | failure e => failure (f e)

/-- A computation that does not count is run among those that do. -/
instance : MonadLift (Except ε) (Except (Halt ε)) := ⟨Except.mapError failure⟩

/-- The result of a computation whose error is part of a wider one. -/
def within {α : Type} (f : ε → δ) (x : Except (Halt ε) α) : Except (Halt δ) α := x.mapError (map f)

/-- The text of a halt, given that of its error. -/
def message (text : ε → String) : Halt ε → String
  | overflow => "attempt to add with overflow"
  | failure e => text e

end Halt

/-- The sum of two counters, unless it passes the greatest value. -/
def addChecked? (a b : UInt64) : Option UInt64 :=
  if a.toNat + b.toNat < UInt64.size then some (a + b) else none

/-- The sum of two counters in a computation that counts. -/
def addCounter {ε : Type} (a b : UInt64) : Except (Halt ε) UInt64 :=
  match addChecked? a b with
  | some c => .ok c
  | none => .error .overflow

/-- A sum is the checked sum exactly if it is that of the numbers. -/
theorem addChecked?_eq_some_iff {a b c : UInt64} :
    addChecked? a b = some c ↔ c.toNat = a.toNat + b.toNat := by
  have hc := c.toNat_lt
  have hsize : UInt64.size = 18446744073709551616 := rfl
  constructor
  · intro h
    rw [addChecked?] at h
    split at h
    · cases h
      rw [UInt64.toNat_add]
      omega
    · cases h
  · intro h
    rw [addChecked?, if_pos (by omega)]
    congr 1
    apply UInt64.toNat_inj.1
    rw [UInt64.toNat_add]
    omega

/-- There is no checked sum exactly if the numbers add up to more than a counter holds. -/
theorem addChecked?_eq_none_iff {a b : UInt64} :
    addChecked? a b = none ↔ UInt64.size ≤ a.toNat + b.toNat := by
  rw [addChecked?]
  split <;> simp_all

end RingDepth
