import RingDepth.Spent.Listing
import RingDepth.Store.Basic

/-!
# What is known to be spent

Once all outputs of an amount are known to be spent, a ring can no longer hide among them, and their
records may be pruned. Zero and round amounts, a single digit followed by zeros, are never looked at.
-/

namespace RingDepth

/-- The number without the zeros at its end, of which at most `fuel` are removed. -/
def withoutZeros : (fuel : Nat) → Nat → Nat
  | 0, n => n
  | fuel + 1, n => if n % 10 = 0 then withoutZeros fuel (n / 10) else n

/-- Whether an amount is a single digit followed by zeros; a counter has at most 20 digits. -/
def isRound (amount : UInt64) : Bool :=
  amount != 0 && decide (withoutZeros 20 amount.toNat < 10)

/-- What is known of the outputs of an amount. -/
inductive AmountStatus where
  /-- The amount is zero or round. -/
  | ignored
  | live
  | prunable
  /-- More outputs are known to be spent than there are. -/
  | inconsistent
deriving DecidableEq, Repr

namespace AmountStatus

/-- The status of an amount, from the number of its outputs and of those known to be spent. -/
def of (amount outputs spent : UInt64) : AmountStatus :=
  if amount = 0 ∨ isRound amount then ignored
  else if spent < outputs then live
  else if outputs < spent then inconsistent
  else prunable

/-- What a line of a report says of the status. -/
def remark : AmountStatus → String
  | ignored => " (ignored)"
  | live => ""
  | prunable => " (prunable)"
  | inconsistent => " (more spent than indexed)"

end AmountStatus

/-- What is known of an amount: the number of its outputs, the number of those known to be spent, and what
this means. -/
structure AmountUsage where
  amount : UInt64
  outputs : UInt64
  spent : UInt64
  status : AmountStatus
deriving DecidableEq, Repr

/-- The line of an amount. -/
def AmountUsage.toText (u : AmountUsage) : String :=
  s!"{u.amount}: {u.spent}/{u.outputs}{u.status.remark}"

/-- What is known of all amounts, in ascending order, and the totals: the outputs and those known to be spent,
of all amounts and of those that are looked at, and the outputs that may be pruned. -/
structure SpentReport where
  amounts : List AmountUsage := []
  outputs : UInt64 := 0
  spent : UInt64 := 0
  eligibleOutputs : UInt64 := 0
  eligibleSpent : UInt64 := 0
  prunable : UInt64 := 0
deriving DecidableEq, Repr

namespace SpentReport

/-- Adds an amount to a report. Totals are counted in the order in which they are named. -/
def add {ε : Type} (r : SpentReport) (u : AmountUsage) : Except (Halt ε) SpentReport := do
  let outputs ← addCounter r.outputs u.outputs
  let spent ← addCounter r.spent u.spent
  let counted := { r with amounts := r.amounts ++ [u], outputs, spent }
  if u.status = .ignored then
    return counted
  let eligibleOutputs ← addCounter r.eligibleOutputs u.outputs
  let eligibleSpent ← addCounter r.eligibleSpent u.spent
  let eligible := { counted with eligibleOutputs, eligibleSpent }
  if u.status ≠ .prunable then
    return eligible
  let prunable ← addCounter r.prunable u.spent
  return { eligible with prunable }

/-- Adds an amount to a report, with the number of outputs that a store has of it. -/
def addAmount {σ : Type} [Store σ] (s : σ) (r : SpentReport) (amount spent : UInt64) :
    Except (Halt StoreError) SpentReport := do
  let outputs ← Store.outputCount s amount
  r.add { amount, outputs, spent, status := .of amount outputs spent }

/-- Compares known spends with the outputs of a store, amount by amount in ascending order. -/
def analyze {σ : Type} [Store σ] (s : σ) (counts : SpentCounts) :
    Except (Halt StoreError) SpentReport :=
  counts.toList.foldlM (fun r (amount, spent) => r.addAmount s amount spent) {}

/-- The lines of a report. -/
def lines (r : SpentReport) : List String :=
  [s!"Total outputs: {r.outputs}", s!"Known spent outputs: {r.spent}",
    s!"Eligible outputs: {r.eligibleOutputs}",
    s!"Eligible known spent outputs: {r.eligibleSpent}", s!"Prunable outputs: {r.prunable}"]

/-- The text of a report. -/
def toText (r : SpentReport) : String := "\n".intercalate r.lines

end SpentReport

end RingDepth
