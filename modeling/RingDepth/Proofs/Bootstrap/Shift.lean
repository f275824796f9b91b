import Mathlib.Data.List.PeriodicityLemma
import RingDepth.Proofs.Bootstrap.Framing

/-!
# A package at two places

Bytes that are left over behind the last chunk of a file move all that is written behind them by one to three
bytes. If the file were still read as if they were not there, a framed package would stand at two places that
are one to three bytes apart, so its bytes would repeat after as many. A package has four zeros in a row, so
all bytes in front of them would be zero, and with them its length.
-/

namespace RingDepth

section Period

variable {α : Type} {word text : List α}

/-- What stands at two places of a text repeats after their distance. -/
theorem hasPeriod_of_prefix_drop {place period : ℕ} (hfirst : word <+: text.drop place)
    (hsecond : word <+: text.drop (place + period)) : word.HasPeriod period := by
  rw [List.prefix_iff_getElem?] at hfirst hsecond
  rw [List.hasPeriod_iff_getElem?]
  intro i hi
  have hback := hfirst (i + period) (by omega)
  have hhere := hsecond i (by omega)
  rw [List.getElem?_drop] at hback hhere
  rw [List.getElem?_eq_getElem (by omega), List.getElem?_eq_getElem (by omega), ← hback, ← hhere,
    Nat.add_assoc, Nat.add_comm period]

/-- What repeats after at most as many letters as are equal in a row has this letter everywhere before. -/
theorem getElem?_of_period {x : α} {period run place : ℕ} (hperiod : word.HasPeriod period)
    (hpos : 0 < period) (hle : period ≤ run) (hrun : List.replicate run x <+: word.drop place)
    {i : ℕ} (hi : i < place + run) : word[i]? = some x := by
  have hbound : place + run ≤ word.length := by
    have hlength := hrun.length_le
    rw [List.length_replicate, List.length_drop] at hlength
    omega
  rw [List.prefix_iff_getElem?] at hrun
  -- The run is reached in steps of one period, so there are fewer of them than places before it.
  induction hsteps : place - i using Nat.strong_induction_on generalizing i with
  | _ steps ih =>
    by_cases hinside : place ≤ i
    · have hletter := hrun (i - place) (by rw [List.length_replicate]; omega)
      rwa [List.getElem_replicate, List.getElem?_drop, Nat.add_sub_cancel' hinside] at hletter
    · rw [List.hasPeriod_iff_getElem?.mp hperiod i (by omega)]
      exact ih (place - (i + period)) (by omega) (by omega) rfl

end Period

/-- The lower bytes of a number are written before the upper ones. -/
theorem Bytes.littleEndian_add (low high n : ℕ) :
    littleEndian (low + high) n = littleEndian low n ++ littleEndian high (n / 256 ^ low) := by
  induction low generalizing n with
  | zero => rw [Nat.zero_add, Nat.pow_zero, Nat.div_one, littleEndian, List.nil_append]
  | succ low ih =>
    rw [Nat.add_right_comm, littleEndian, ih, littleEndian, List.cons_append, Nat.div_div_eq_div_mul,
      Nat.pow_succ']

/-- A package has four zeros in a row if its length is one for a frame: the number of its transactions is
written in eight bytes, and four would do. -/
theorem exists_zeros_encode {p : BlockPackage} (h : (Codec.encode p).length < 256 ^ 4) :
    ∃ place, List.replicate 4 0 <+: (Codec.encode p).drop place := by
  have hencode : Codec.encode p = Codec.encode p.block ++
      (Bytes.littleEndian 8 p.transactions.length ++ p.transactions.flatMap Codec.encode) := rfl
  have hcount : p.transactions.length ≤ (p.transactions.flatMap Codec.encode).length := by
    rw [List.length_flatMap]
    refine Nat.le_trans (Nat.le_of_eq (List.length_map _).symm) (List.length_le_sum_of_one_le _ ?_)
    simp only [List.forall_mem_map]
    exact fun r _ => Nat.succ_le_of_lt (by simp [Codec.encode])
  have hlt : p.transactions.length < 256 ^ 4 := by
    rw [hencode, List.length_append, List.length_append] at h
    omega
  have hnumber : Bytes.littleEndian 8 p.transactions.length =
      Bytes.littleEndian 4 p.transactions.length ++ List.replicate 4 0 := by
    rw [show 8 = 4 + 4 from rfl, Bytes.littleEndian_add, Nat.div_eq_of_lt hlt]
    rfl
  refine ⟨(Codec.encode p.block ++ Bytes.littleEndian 4 p.transactions.length).length, ?_⟩
  rw [hencode, hnumber, List.append_assoc, ← List.append_assoc, List.drop_left]
  exact List.prefix_append _ _

/-- A framed package does not repeat after one to four bytes. -/
theorem not_hasPeriod_frame {p : BlockPackage} (hp : (Codec.encode p).length < 256 ^ 4) {period : ℕ}
    (hpos : 0 < period) (hle : period ≤ 4) : ¬(frame (Codec.encode p)).HasPeriod period := by
  intro hperiod
  obtain ⟨place, hzeros⟩ := exists_zeros_encode hp
  have hrun : List.replicate 4 0 <+: (frame (Codec.encode p)).drop (4 + place) := by
    have hdrop := drop_frame (Codec.encode p) []
    rw [List.append_nil, List.append_nil] at hdrop
    rwa [← List.drop_drop, hdrop]
  have hprefix : (frame (Codec.encode p)).take 4 = List.replicate 4 0 := by
    apply List.ext_getElem?
    intro i
    rw [List.getElem?_take, List.getElem?_replicate]
    exact ite_congr rfl (fun hi => getElem?_of_period hperiod hpos hle hrun (by omega)) fun _ => rfl
  have hlength := ofLittleEndian_take_frame hp []
  rw [List.append_nil, hprefix] at hlength
  have hne : (Codec.encode p).length ≠ 0 := by
    simp [Codec.encode]
  exact hne hlength.symm

/-- A chunk behind one to three bytes is not read as if they were not there, even if empty chunks come before
it. -/
theorem shifted_ne {p : BlockPackage} (hp : (Codec.encode p).length < 256 ^ 4) {leftover : Bytes}
    (hsome : leftover ≠ []) (hshort : leftover.length < 4) {size : ℕ} (hsize : size ≠ 0)
    (hlt : size < 256 ^ 4) (size' empty : ℕ) (rest rest' : Bytes) :
    leftover ++ (Bytes.littleEndian 4 size ++ (frame (Codec.encode p) ++ rest)) ≠
      List.replicate (4 * empty) 0 ++ (Bytes.littleEndian 4 size' ++ (frame (Codec.encode p) ++ rest')) := by
  intro heq
  have hpos := List.length_pos_iff.mpr hsome
  generalize htext : leftover ++ (Bytes.littleEndian 4 size ++ (frame (Codec.encode p) ++ rest)) = text
    at heq
  have hwritten : frame (Codec.encode p) <+: text.drop (leftover.length + 4) := by
    rw [← htext, ← List.drop_drop, List.drop_left, List.drop_left' (Bytes.length_littleEndian _ _)]
    exact List.prefix_append _ _
  have hread : frame (Codec.encode p) <+: text.drop (4 * empty + 4) := by
    rw [heq, ← List.drop_drop, List.drop_left' List.length_replicate,
      List.drop_left' (Bytes.length_littleEndian _ _)]
    exact List.prefix_append _ _
  match empty with
  | 0 =>
    exact not_hasPeriod_frame hp hpos (Nat.le_of_lt hshort)
      (hasPeriod_of_prefix_drop hread (by rwa [Nat.mul_zero, Nat.zero_add, Nat.add_comm]))
  | 1 =>
    refine not_hasPeriod_frame hp (Nat.sub_pos_of_lt hshort) (Nat.sub_le _ _)
      (hasPeriod_of_prefix_drop hwritten ?_)
    rwa [Nat.add_right_comm, Nat.add_sub_cancel' (Nat.le_of_lt hshort)]
  | empty + 2 =>
    -- The size of the chunk stands among the zeros that are read as empty chunks.
    have hzeros : 4 * (empty + 2) = leftover.length + (4 + (4 * empty + 4 - leftover.length)) := by omega
    rw [← htext, hzeros, List.replicate_add, List.append_assoc] at heq
    have hbehind := (List.append_inj heq List.length_replicate.symm).2
    rw [List.replicate_add, List.append_assoc] at hbehind
    have hnone := congrArg Bytes.ofLittleEndian (List.append_inj_left hbehind (Bytes.length_littleEndian _ _))
    rw [Bytes.ofLittleEndian_littleEndian, Nat.mod_eq_of_lt hlt] at hnone
    exact hsize hnone

end RingDepth
