import Mathlib.Data.List.Induction
import RingDepth.Hex
import RingDepth.Proofs.Outcome
import RingDepth.Text.Basic

/-!
# What hexadecimal texts read as

A text of hexadecimal digits has an even number of bytes, all of which are digits. Every other text is refused for its
length, or else for its first byte that is no digit. What was read is written with the same digits in lowercase.

Texts are read as bytes. A byte is a digit exactly when it is the number of a character that is one, and no byte of a
character outside ASCII is.
-/

namespace RingDepth.Hex

/-- Whether a character is a hexadecimal digit, of either case. -/
def IsDigit (c : Char) : Prop := '0' ≤ c ∧ c ≤ '9' ∨ 'a' ≤ c ∧ c ≤ 'f' ∨ 'A' ≤ c ∧ c ≤ 'F'

instance : DecidablePred IsDigit := fun c =>
  inferInstanceAs (Decidable ('0' ≤ c ∧ c ≤ '9' ∨ 'a' ≤ c ∧ c ≤ 'f' ∨ 'A' ≤ c ∧ c ≤ 'F'))

/-- The character whose number a byte is. -/
def charOf (b : UInt8) : Char := Char.ofNat b.toNat

/-- A byte has a value exactly when it is a digit. -/
theorem isSome_digitValue? (b : UInt8) : (digitValue? b).isSome = decide (IsDigit (charOf b)) := by
  have h : ∀ i : Fin 256, (digitValue? (UInt8.ofFin i)).isSome = decide (IsDigit (charOf (UInt8.ofFin i))) := by
    decide +kernel
  exact h b.toFin

/-- The digit of the value of a byte is the byte in lowercase. -/
theorem charOf_digit {b v : UInt8} (h : digitValue? b = some v) :
    v < 16 ∧ charOf (digit v) = (charOf b).toLower := by
  have hall : ∀ i : Fin 256, ∀ v ∈ digitValue? (UInt8.ofFin i),
      v < 16 ∧ charOf (digit v) = (charOf (UInt8.ofFin i)).toLower := by
    decide +kernel
  exact hall b.toFin v h

/-- The two halves of a byte that is put together from two values are these. -/
theorem digit_halves {high low : UInt8} (hhigh : high < 16) (hlow : low < 16) :
    digit ((16 * high + low) / 16) = digit high ∧ digit (16 * high + low) = digit low := by
  have hh : high.toNat < 16 := UInt8.lt_iff_toNat_lt.mp hhigh
  have hl : low.toNat < 16 := UInt8.lt_iff_toNat_lt.mp hlow
  have hsum : (16 * high + low).toNat = 16 * high.toNat + low.toNat := by
    rw [UInt8.toNat_add, UInt8.toNat_mul]
    change (16 * high.toNat % 256 + low.toNat) % 256 = _
    omega
  have hdiv : (16 * high + low) / 16 = high := by
    rw [← UInt8.toNat_inj, UInt8.toNat_div, hsum]
    change (16 * high.toNat + low.toNat) / 16 = _
    omega
  have hmod : (16 * high + low) % 16 = low % 16 := by
    rw [← UInt8.toNat_inj, UInt8.toNat_mod, UInt8.toNat_mod, hsum]
    change (16 * high.toNat + low.toNat) % 16 = low.toNat % 16
    omega
  exact ⟨by rw [hdiv], by rw [digit, digit, hmod]⟩

/-- A byte is read as a digit exactly when it has a value. -/
theorem readDigit_eq_ok_iff {b v : UInt8} {position : ℕ} : readDigit b position = .ok v ↔ digitValue? b = some v := by
  rw [readDigit]
  cases digitValue? b <;> simp

/-- A byte that is no digit is refused. -/
theorem readDigit_eq_error_iff {b : UInt8} {position : ℕ} {e : HexError} :
    readDigit b position = .error e ↔ ¬IsDigit (charOf b) ∧ e = .invalidDigit b position := by
  have hsome := isSome_digitValue? b
  rw [readDigit]
  cases hvalue : digitValue? b with
  | none =>
    rw [hvalue] at hsome
    simp_all [eq_comm]
  | some v =>
    rw [hvalue] at hsome
    simp_all

/-- A byte is read exactly when it is a digit. -/
theorem exists_readDigit_iff {b : UInt8} {position : ℕ} :
    (∃ v, readDigit b position = .ok v) ↔ IsDigit (charOf b) := by
  simp only [readDigit_eq_ok_iff, ← Option.isSome_iff_exists, isSome_digitValue?, decide_eq_true_eq]

/-- Whether a failure names the first byte that is no digit. Positions are counted from that of the first byte. -/
def FirstInvalid (position : ℕ) (digits : Bytes) (e : HexError) : Prop :=
  ∃ front b back, digits = front ++ b :: back ∧ (∀ c ∈ front, IsDigit (charOf c)) ∧ ¬IsDigit (charOf b) ∧
    e = .invalidDigit b (position + front.length)

/-- The first byte that is no digit is the first one, or else the first among the others. -/
theorem firstInvalid_cons_iff {position : ℕ} {b : UInt8} {rest : Bytes} {e : HexError} :
    FirstInvalid position (b :: rest) e ↔
      (¬IsDigit (charOf b) ∧ e = .invalidDigit b position) ∨
        IsDigit (charOf b) ∧ FirstInvalid (position + 1) rest e := by
  constructor
  · intro h
    obtain ⟨front, c, back, hsplit, hfront, hc, rfl⟩ := h
    cases front with
    | nil =>
      cases hsplit
      exact .inl ⟨hc, rfl⟩
    | cons first front =>
      cases hsplit
      obtain ⟨hb, hfront⟩ := List.forall_mem_cons.mp hfront
      refine .inr ⟨hb, front, c, back, rfl, hfront, hc, ?_⟩
      rw [List.length_cons, Nat.add_right_comm, Nat.add_assoc]
  · intro h
    obtain ⟨hb, rfl⟩ | ⟨hb, front, c, back, rfl, hfront, hc, rfl⟩ := h
    · exact ⟨[], b, rest, rfl, List.forall_mem_nil _, hb, rfl⟩
    · refine ⟨b :: front, c, back, rfl, List.forall_mem_cons.mpr ⟨hb, hfront⟩, hc, ?_⟩
      rw [List.length_cons, Nat.add_right_comm, Nat.add_assoc]

/-- Without bytes there is none that is no digit. -/
theorem not_firstInvalid_nil {position : ℕ} {e : HexError} : ¬FirstInvalid position [] e := by
  intro h
  obtain ⟨front, b, back, hsplit, -⟩ := h
  cases front <;> cases hsplit

/-- What begins with reading a digit fails if the byte is none, or as what comes after it does. -/
theorem readDigit_bind_eq_error_iff {α : Type} {b : UInt8} {position : ℕ} {f : UInt8 → Except HexError α}
    {e : HexError} {P : Prop} (hf : ∀ v, f v = .error e ↔ P) :
    readDigit b position >>= f = .error e ↔
      (¬IsDigit (charOf b) ∧ e = .invalidDigit b position) ∨ IsDigit (charOf b) ∧ P := by
  rw [bind_eq_error_iff, readDigit_eq_error_iff]
  simp only [hf, exists_and_right, exists_readDigit_iff]

/-- Pairs of bytes are refused for the first byte that is no digit. -/
theorem decodeFrom_eq_error_iff {position : ℕ} {digits : Bytes} {e : HexError} (heven : digits.length % 2 = 0) :
    decodeFrom position digits = .error e ↔ FirstInvalid position digits e := by
  induction digits using List.twoStepInduction generalizing position with
  | nil => exact iff_of_false nofun not_firstInvalid_nil
  | singleton b => simp at heven
  | cons_cons high low rest ih _ =>
    have hrest : rest.length % 2 = 0 := by
      simp only [List.length_cons] at heven
      omega
    rw [firstInvalid_cons_iff, firstInvalid_cons_iff, ← ih hrest, decodeFrom]
    refine readDigit_bind_eq_error_iff fun h => readDigit_bind_eq_error_iff fun l => ?_
    rw [bind_eq_error_iff]
    refine or_iff_left fun hreturn => ?_
    obtain ⟨bs, -, hpure⟩ := hreturn
    cases hpure

/-- Pairs of bytes that read are digits, and what was read is written with these digits in lowercase. -/
theorem of_decodeFrom_eq_ok {position : ℕ} {digits bs : Bytes} (heven : digits.length % 2 = 0)
    (h : decodeFrom position digits = .ok bs) :
    (∀ b ∈ digits, IsDigit (charOf b)) ∧ (encode bs).map charOf = digits.map fun b => (charOf b).toLower := by
  induction digits using List.twoStepInduction generalizing position bs with
  | nil =>
    cases h
    exact ⟨List.forall_mem_nil _, rfl⟩
  | singleton b => simp at heven
  | cons_cons high low rest ih _ =>
    have hrest : rest.length % 2 = 0 := by
      simp only [List.length_cons] at heven
      omega
    obtain ⟨first, hfirst, hbody⟩ := bind_eq_ok_iff.mp h
    obtain ⟨second, hsecond, hbody⟩ := bind_eq_ok_iff.mp hbody
    obtain ⟨others, hothers, heq⟩ := bind_eq_ok_iff.mp hbody
    cases heq
    obtain ⟨hdigits, hwritten⟩ := ih hrest hothers
    refine ⟨List.forall_mem_cons.mpr ⟨exists_readDigit_iff.mp ⟨first, hfirst⟩,
      List.forall_mem_cons.mpr ⟨exists_readDigit_iff.mp ⟨second, hsecond⟩, hdigits⟩⟩, ?_⟩
    obtain ⟨hfirst16, hhigh⟩ := charOf_digit (readDigit_eq_ok_iff.mp hfirst)
    obtain ⟨hsecond16, hlow⟩ := charOf_digit (readDigit_eq_ok_iff.mp hsecond)
    obtain ⟨hhalf, hother⟩ := digit_halves hfirst16 hsecond16
    simp only [encode, List.map_cons, hhalf, hother, hhigh, hlow, hwritten]

/-- A byte string is refused if its length is odd, and otherwise for its first byte that is no digit. -/
theorem decode_eq_error_iff {digits : Bytes} {e : HexError} :
    decode digits = .error e ↔
      (digits.length % 2 = 1 ∧ e = .oddLength) ∨ digits.length % 2 = 0 ∧ FirstInvalid 0 digits e := by
  rw [decode]
  split
  · rename_i hodd
    simp [hodd, eq_comm]
  · rename_i hnot
    have heven : digits.length % 2 = 0 := by omega
    simp [heven, decodeFrom_eq_error_iff heven]

/-- What was read from a byte string is half as long, and is written with the same digits in lowercase; all bytes of the
string are digits. -/
theorem of_decode_eq_ok {digits bs : Bytes} (h : decode digits = .ok bs) :
    digits.length = 2 * bs.length ∧ (∀ b ∈ digits, IsDigit (charOf b)) ∧
      (toText bs).toList = digits.map fun b => (charOf b).toLower := by
  rw [decode] at h
  split_ifs at h with hodd
  obtain ⟨hdigits, hwritten⟩ := of_decodeFrom_eq_ok (by omega) h
  have hlength := congrArg List.length hwritten
  rw [List.length_map, List.length_map, length_encode] at hlength
  refine ⟨hlength.symm, hdigits, ?_⟩
  rw [toText, String.toList_ofList]
  exact hwritten

/-- The byte strings that read are those of an even number of digits. -/
theorem exists_decode_iff {digits : Bytes} :
    (∃ bs, decode digits = .ok bs) ↔ digits.length % 2 = 0 ∧ ∀ b ∈ digits, IsDigit (charOf b) := by
  refine ⟨fun h => ?_, fun h => ?_⟩
  · obtain ⟨bs, hbs⟩ := h
    obtain ⟨hlength, hdigits, -⟩ := of_decode_eq_ok hbs
    exact ⟨by omega, hdigits⟩
  · obtain ⟨heven, hdigits⟩ := h
    cases hdecode : decode digits with
    | ok bs => exact ⟨bs, rfl⟩
    | error e =>
      obtain ⟨hodd, -⟩ | ⟨-, front, b, back, rfl, -, hb, -⟩ := decode_eq_error_iff.mp hdecode
      · omega
      · exact absurd (hdigits b (by simp)) hb

/-! ### The bytes of a text -/

variable {c : Char}

/-- The number of the character of a byte is this byte. -/
theorem toNat_charOf (b : UInt8) : (charOf b).toNat = b.toNat := by
  have h : ∀ i : Fin 256, (charOf (UInt8.ofFin i)).toNat = (UInt8.ofFin i).toNat := by
    decide +kernel
  exact h b.toFin

/-- Different bytes are different characters. -/
theorem charOf_injective : Function.Injective charOf := by
  intro b b' h
  rw [← UInt8.toNat_inj, ← toNat_charOf b, ← toNat_charOf b', h]

/-- The character of the number of an ASCII character is this character. -/
theorem charOf_ofNat (hc : c.toNat ≤ 127) : charOf (UInt8.ofNat c.toNat) = c := by
  have hbyte : (UInt8.ofNat c.toNat).toNat = c.toNat := by
    rw [UInt8.toNat_ofNat']
    omega
  rw [charOf, hbyte, Char.ofNat_toNat]

/-- Digits are ASCII characters. -/
theorem IsDigit.toNat_le (h : IsDigit c) : c.toNat ≤ 127 := by
  obtain ⟨-, h⟩ | ⟨-, h⟩ | ⟨-, h⟩ := h
  all_goals exact Nat.le_trans h (by decide)

/-- Digits are no blanks. -/
theorem IsDigit.isBlank_eq (h : IsDigit c) : Text.isBlank c = false := by
  have hall : ∀ i : Fin 256, IsDigit (charOf (UInt8.ofFin i)) → Text.isBlank (charOf (UInt8.ofFin i)) = false := by
    decide +kernel
  have hdigit := hall (UInt8.ofNat c.toNat).toFin
  rw [UInt8.ofFin_toFin, charOf_ofNat h.toNat_le] at hdigit
  exact hdigit h

/-- An ASCII character is written as the byte that is its number. -/
theorem utf8EncodeChar_eq (hc : c.toNat ≤ 127) : String.utf8EncodeChar c = [UInt8.ofNat c.toNat] :=
  if_pos hc

/-- All other characters are written as bytes that are no numbers of ASCII characters. -/
theorem lt_of_mem_utf8EncodeChar (hc : 127 < c.toNat) {b : UInt8} (hb : b ∈ String.utf8EncodeChar c) :
    127 < b.toNat := by
  have hlow (v : ℕ) {k m : ℕ} (hm : 128 ≤ m) (hk : k + m ≤ 256) (hpos : 0 < k) :
      127 < (UInt8.ofNat (v % k + m)).toNat := by
    have := Nat.mod_lt v hpos
    rw [UInt8.toNat_ofNat']
    omega
  rw [String.utf8EncodeChar, if_neg (by exact Nat.not_le.mpr hc)] at hb
  split_ifs at hb <;> simp only [List.mem_cons, List.not_mem_nil, or_false] at hb
  · obtain rfl | rfl := hb <;> exact hlow _ (by decide) (by decide) (by decide)
  · obtain rfl | rfl | rfl := hb <;> exact hlow _ (by decide) (by decide) (by decide)
  · obtain rfl | rfl | rfl | rfl := hb <;> exact hlow _ (by decide) (by decide) (by decide)

/-- A character is a digit exactly when all bytes that it is written as are digits. -/
theorem forall_mem_utf8EncodeChar_iff : (∀ b ∈ String.utf8EncodeChar c, IsDigit (charOf b)) ↔ IsDigit c := by
  rcases Nat.lt_or_ge 127 c.toNat with hc | hc
  · refine iff_of_false (fun h => ?_) fun h => Nat.not_le.mpr hc h.toNat_le
    obtain ⟨b, hb⟩ := List.exists_mem_of_length_pos (l := String.utf8EncodeChar c) (by simp [Char.utf8Size_pos])
    have hbyte := (h b hb).toNat_le
    rw [toNat_charOf] at hbyte
    exact Nat.not_le.mpr (lt_of_mem_utf8EncodeChar hc hb) hbyte
  · rw [utf8EncodeChar_eq hc, List.forall_mem_singleton, charOf_ofNat hc]

/-- The characters of a text are digits exactly when its bytes are. -/
theorem forall_mem_ofText_iff {s : String} :
    (∀ b ∈ Bytes.ofText s, IsDigit (charOf b)) ↔ ∀ c ∈ s.toList, IsDigit c := by
  simp only [Bytes.ofText, List.forall_mem_flatMap, forall_mem_utf8EncodeChar_iff]

/-- A text of digits has one byte for each of its characters. -/
theorem map_charOf_ofText {s : String} (h : ∀ c ∈ s.toList, IsDigit c) : (Bytes.ofText s).map charOf = s.toList := by
  rw [Bytes.ofText, List.map_flatMap]
  refine (List.flatMap_congr fun c hc => ?_).trans (List.flatMap_singleton' _)
  rw [utf8EncodeChar_eq (h c hc).toNat_le, List.map_singleton, charOf_ofNat (h c hc).toNat_le]

/-- What is written consists of digits. -/
theorem isDigit_of_mem_toText {bs : Bytes} : ∀ c ∈ (toText bs).toList, IsDigit c := by
  obtain ⟨-, hdigits⟩ := exists_decode_iff.mp ⟨bs, decode_encode bs⟩
  rw [toText, String.toList_ofList]
  exact List.forall_mem_map.mpr hdigits

/-- The bytes of the written form of a byte string are its digits. -/
theorem ofText_toText (bs : Bytes) : Bytes.ofText (toText bs) = encode bs := by
  apply List.map_injective_iff.mpr charOf_injective
  rw [map_charOf_ofText isDigit_of_mem_toText, toText, String.toList_ofList]
  rfl

end RingDepth.Hex
