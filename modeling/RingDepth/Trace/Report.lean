import RingDepth.Number.Decimal
import RingDepth.Trace.Search

/-!
# Reports on depths

The depth of each transaction, and the mean and the median of all depths. Depths are added up in 128 bits; a
result is rounded to 53 binary digits, as are the numbers that enter a division.
-/

namespace RingDepth

/-- The number, mean and median of some depths. -/
structure DepthSummary where
  count : Nat
  mean : Binary64
  median : Binary64
deriving DecidableEq, Repr

namespace DepthSummary

/-- The sum of depths, in an accumulator of 128 bits. -/
def sumOf (depths : List Nat) : BitVec 128 :=
  depths.foldl (fun sum depth => sum + BitVec.ofNat 128 depth) 0

/-- The mean of depths. -/
def meanOf (depths : List Nat) : Binary64 :=
  Binary64.ofNat (sumOf depths).toNat / Binary64.ofNat depths.length

/-- The middle one of depths in order, or the mean of the middle two if their number is even. -/
def medianOf (depths : List Nat) : Binary64 :=
  let sorted := depths.mergeSort
  let middle := sorted.length / 2
  let upper := Binary64.ofNat (sorted.getD middle 0)
  if sorted.length % 2 = 1 then upper
  else (Binary64.ofNat (sorted.getD (middle - 1) 0) + upper) / 2

/-- The summary of depths, unless there are none. -/
def ofDepths? (depths : List Nat) : Option DepthSummary :=
  if depths.isEmpty then none
  else some { count := depths.length, mean := meanOf depths, median := medianOf depths }

end DepthSummary

/-- The depths of transactions with their summary. -/
structure DepthReport where
  depths : List (TxHash × Nat)
  summary : DepthSummary

namespace DepthReport

/-- The report on depths, unless there are none. -/
def ofDepths? (depths : List (TxHash × Nat)) : Option DepthReport :=
  (DepthSummary.ofDepths? (depths.map Prod.snd)).map fun summary => { depths, summary }

/-- The report on the outcomes of traces, unless there are none. -/
def ofOutcomes? (outcomes : List TraceOutcome) : Option DepthReport :=
  ofDepths? (outcomes.map fun outcome => (outcome.start, outcome.depth))

/-- The line of one transaction. -/
def line (hash : TxHash) (depth : Nat) : String := s!"Min depth for txid {hash}: {depth}"

/-- The lines of a report. -/
def lines (r : DepthReport) : List String :=
  r.depths.map (fun (hash, depth) => line hash depth) ++
    [s!"Average min depth for {r.summary.count} transaction(s): {r.summary.mean}",
      s!"Median min depth for {r.summary.count} transaction(s): {r.summary.median}"]

/-- The text of a report. -/
def toText (r : DepthReport) : String := "\n".intercalate r.lines

end DepthReport

end RingDepth
