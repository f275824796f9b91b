import RingDepth.Identifier
import RingDepth.Proofs.Hex
import RingDepth.Proofs.Text.Blank

/-!
# What identifiers are read from

An identifier is read from 64 hexadecimal digits with blanks around them, and from nothing else. It is shown as these
digits in lowercase, without the blanks, and what it is shown as reads as this identifier.

A text that is no identifier is refused for one of three reasons. That its bytes do not come in pairs is looked at
first, then whether they are digits, and their number last. The blanks at its ends do not count as bytes of it.
-/

namespace RingDepth

/-- What the reason that a text is no identifier says about its bytes. -/
def IdentifierError.Explains (bytes : Bytes) : IdentifierError → Prop
  | .hex .oddLength => bytes.length % 2 = 1
  | .hex (.invalidDigit b i) => bytes.length % 2 = 0 ∧ Hex.FirstInvalid 0 bytes (.invalidDigit b i)
  | .wrongLength n => (∀ b ∈ bytes, Hex.IsDigit (Hex.charOf b)) ∧ bytes.length = 2 * n ∧ n ≠ 32

namespace Identifier

variable {kind : Kind} {s : String}

/-- An identifier is read from its bytes. -/
theorem parse_eq_ok_iff {x : Identifier kind} :
    parse s = .ok x ↔ Hex.decode (Bytes.ofText (Text.trim s)) = .ok x.bytes := by
  rw [parse]
  cases Hex.decode (Bytes.ofText (Text.trim s)) with
  | error e => exact iff_of_false nofun nofun
  | ok bs =>
    dsimp only
    refine ⟨fun h => ?_, fun h => ?_⟩
    · cases hbytes : (ofBytes? bs : Option (Identifier kind)) with
      | none => simp [hbytes] at h
      | some y =>
        obtain rfl : y = x := by simpa [hbytes] using h
        rw [bytes_of_ofBytes?_eq_some hbytes]
    · cases h
      rw [ofBytes?_bytes]

/-- A text is refused because its digits do not read, or because they are those of another number of bytes. -/
theorem parse_eq_error_iff {e : IdentifierError} :
    (parse s : Except IdentifierError (Identifier kind)) = .error e ↔
      (∃ e', Hex.decode (Bytes.ofText (Text.trim s)) = .error e' ∧ e = .hex e') ∨
        ∃ bs, Hex.decode (Bytes.ofText (Text.trim s)) = .ok bs ∧ bs.length ≠ 32 ∧ e = .wrongLength bs.length := by
  rw [parse]
  cases Hex.decode (Bytes.ofText (Text.trim s)) with
  | error e' => simp [eq_comm]
  | ok bs =>
    by_cases h32 : bs.length = 32 <;> simp [ofBytes?, h32, eq_comm]

/-- The reason for which a text is refused is what is wrong with its bytes. -/
theorem parse_eq_error_iff_explains {e : IdentifierError} :
    (parse s : Except IdentifierError (Identifier kind)) = .error e ↔ e.Explains (Bytes.ofText (Text.trim s)) := by
  rw [parse_eq_error_iff]
  generalize Bytes.ofText (Text.trim s) = digits
  cases e with
  | hex e =>
    have hfirst : (∃ e', Hex.decode digits = .error e' ∧ IdentifierError.hex e = .hex e') ↔
        Hex.decode digits = .error e := by
      simp
    rw [hfirst, or_iff_left (by simp), Hex.decode_eq_error_iff]
    cases e with
    | oddLength => simp [IdentifierError.Explains, Hex.FirstInvalid]
    | invalidDigit b i => simp [IdentifierError.Explains]
  | wrongLength n =>
    rw [or_iff_right (by simp)]
    refine ⟨fun h => ?_, fun h => ?_⟩
    · obtain ⟨bs, hdecode, h32, heq⟩ := h
      cases heq
      obtain ⟨hlength, hdigits, -⟩ := Hex.of_decode_eq_ok hdecode
      exact ⟨hdigits, hlength, h32⟩
    · obtain ⟨hdigits, hlength, h32⟩ := h
      obtain ⟨bs, hdecode⟩ := Hex.exists_decode_iff.mpr ⟨by omega, hdigits⟩
      have hread := (Hex.of_decode_eq_ok hdecode).1
      obtain rfl : n = bs.length := by omega
      exact ⟨bs, hdecode, h32, rfl⟩

/-- The texts that read are 64 digits with blanks around them. -/
theorem exists_parse_iff :
    (∃ x : Identifier kind, parse s = .ok x) ↔
      (Text.trim s).toList.length = 64 ∧ ∀ c ∈ (Text.trim s).toList, Hex.IsDigit c := by
  simp only [parse_eq_ok_iff]
  refine ⟨fun h => ?_, fun h => ?_⟩
  · obtain ⟨x, hx⟩ := h
    obtain ⟨hlength, hdigits, -⟩ := Hex.of_decode_eq_ok hx
    have hchars := Hex.forall_mem_ofText_iff.mp hdigits
    refine ⟨?_, hchars⟩
    rw [← Hex.map_charOf_ofText hchars, List.length_map, hlength, x.length_bytes]
  · obtain ⟨h64, hchars⟩ := h
    rw [← Hex.map_charOf_ofText hchars, List.length_map] at h64
    obtain ⟨bs, hbs⟩ := Hex.exists_decode_iff.mpr ⟨by omega, Hex.forall_mem_ofText_iff.mpr hchars⟩
    have hlength := (Hex.of_decode_eq_ok hbs).1
    exact ⟨⟨bs, by omega⟩, hbs⟩

/-- What was read is shown as the text in lowercase, without the blanks around it. -/
theorem toString_of_parse {x : Identifier kind} (h : parse s = .ok x) : toString x = (Text.trim s).toLower := by
  obtain ⟨-, hdigits, hwritten⟩ := Hex.of_decode_eq_ok (parse_eq_ok_iff.mp h)
  have hchars := Hex.map_charOf_ofText (Hex.forall_mem_ofText_iff.mp hdigits)
  change Hex.toText x.bytes = (Text.trim s).map Char.toLower
  rw [← String.toList_inj, String.toList_map, ← hchars, List.map_map]
  exact hwritten

/-- What an identifier is shown as reads as this identifier. -/
theorem parse_toString (x : Identifier kind) : parse (toString x) = .ok x := by
  have htrim : Text.trim (Hex.toText x.bytes) = Hex.toText x.bytes := by
    rw [Text.trim, Text.trimBlanks_eq_self fun c hc => (Hex.isDigit_of_mem_toText c hc).isBlank_eq,
      String.ofList_toList]
  rw [parse_eq_ok_iff]
  change Hex.decode (Bytes.ofText (Text.trim (Hex.toText x.bytes))) = .ok x.bytes
  rw [htrim, Hex.ofText_toText, Hex.decode_encode]

variable (kind s) in
/-- Whether a text is read as exactly what it is: the text between the blanks at its ends reads if it consists
of 64 digits, and what was read is shown as it in lowercase. Otherwise the reason is the first one that its
bytes give. -/
structure ReadExactly : Prop where
  between : Text.Padded (Text.trim s).toList s.toList
  succeeds_iff : (∃ x : Identifier kind, parse s = .ok x) ↔
    (Text.trim s).toList.length = 64 ∧ ∀ c ∈ (Text.trim s).toList, Hex.IsDigit c
  shown : ∀ x : Identifier kind, parse s = .ok x → toString x = (Text.trim s).toLower
  fails_iff : ∀ e : IdentifierError, (parse s : Except IdentifierError (Identifier kind)) = .error e ↔
    e.Explains (Bytes.ofText (Text.trim s))

/-- Every text is read as exactly what it is, and what an identifier is shown as is read as this identifier. -/
theorem parse_exact (kind : Kind) :
    (∀ s, ReadExactly kind s) ∧ ∀ x : Identifier kind, parse (toString x) = .ok x := by
  refine ⟨fun s => ⟨?_, exists_parse_iff, fun x => toString_of_parse, fun e => parse_eq_error_iff_explains⟩,
    parse_toString⟩
  rw [Text.trim, String.toList_ofList]
  exact Text.padded_trimBlanks s.toList

end Identifier

end RingDepth
