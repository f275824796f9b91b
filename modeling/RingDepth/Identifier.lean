import Std.Data.ExtTreeMap
import RingDepth.Hex
import RingDepth.Digest
import RingDepth.Text.Basic

/-!
# Identifiers

Transactions, blocks, output keys and key images are all named by 32 bytes. The kind is part of the
type, so that one cannot stand for another.
-/

namespace RingDepth

/-- What an identifier names. -/
inductive Identifier.Kind where
  | transaction
  | block
  /-- The one-time public key of an output. -/
  | publicKey
  /-- The mark left by spending an output. -/
  | keyImage
deriving DecidableEq, Repr

/-- A name of 32 bytes. -/
structure Identifier (kind : Identifier.Kind) where
  bytes : Bytes
  length_bytes : bytes.length = 32
deriving DecidableEq

/-- The digest of an encoded transaction. -/
abbrev TxHash := Identifier .transaction

/-- The digest of an encoded block. -/
abbrev BlockHash := Identifier .block

/-- A one-time key attached to an output. -/
abbrev PublicKey := Identifier .publicKey

/-- A mark that tells which output a keyed input spends. -/
abbrev KeyImage := Identifier .keyImage

/-- Why a text names nothing. -/
inductive IdentifierError where
  | hex (e : HexError)
  | wrongLength (found : Nat)
deriving DecidableEq, Repr

namespace IdentifierError

/-- What is wrong with the text. -/
def reason : IdentifierError → String
  | .hex .oddLength => "Odd number of digits"
  | .hex (.invalidDigit b i) => s!"Invalid character {Text.quoteByte b} at position {i}"
  | .wrongLength n => s!"expected 32 bytes, got {n}"

/-- The text of the error. -/
def message (e : IdentifierError) : String := s!"invalid hex identifier: {e.reason}"

end IdentifierError

namespace Identifier

variable {kind : Kind}

/-- Identifiers with the same bytes are the same. -/
@[ext] theorem ext {x y : Identifier kind} (h : x.bytes = y.bytes) : x = y := by
  cases x
  cases y
  cases h
  rfl

/-- Identifiers are ordered as byte strings. -/
instance : Ord (Identifier kind) := ⟨compareOn bytes⟩

instance : Std.TransOrd (Identifier kind) := inferInstanceAs (Std.TransCmp (compareOn bytes))

instance : Std.LawfulEqOrd (Identifier kind) where
  eq_of_compare {x y} h := by
    have h' : compare x.bytes y.bytes = .eq := h
    exact ext (Std.LawfulEqCmp.eq_of_compare h')

/-- The identifier all of whose bytes are zero. -/
def zero : Identifier kind := ⟨List.replicate 32 0, by simp⟩

/-- The identifier with the given bytes, if there are 32 of them. -/
def ofBytes? (bs : Bytes) : Option (Identifier kind) :=
  if h : bs.length = 32 then some ⟨bs, h⟩ else none

/-- The name of a record with this encoding. -/
def ofContent (encoding : Bytes) : Identifier kind :=
  ⟨Blake2b.digest encoding, Blake2b.length_digest encoding⟩

/-- The digits of the identifier, in lowercase. -/
def toText (x : Identifier kind) : String := Hex.toText x.bytes

instance : ToString (Identifier kind) := ⟨toText⟩

/-- A short form that shows the first four bytes. -/
def brief (x : Identifier kind) : String :=
  let head := Hex.toText (x.bytes.take 4)
  match kind with
  | .transaction => s!"TxHash({head}..)"
  | .block => s!"BlockHash({head}..)"
  | .publicKey => s!"PublicKey({head})"
  | .keyImage => s!"KeyImage({head})"

/-- Reads an identifier from its digits, of either case and with blanks around them. -/
def parse (s : String) : Except IdentifierError (Identifier kind) :=
  match Hex.decode (Bytes.ofText (Text.trim s)) with
  | .error e => .error (.hex e)
  | .ok bs =>
    match ofBytes? bs with
    | some x => .ok x
    | none => .error (.wrongLength bs.length)

/-- Different identifiers have different bytes. -/
theorem bytes_injective : Function.Injective (bytes : Identifier kind → Bytes) :=
  fun _ _ h => ext h

/-- The bytes of an identifier make it. -/
@[simp] theorem ofBytes?_bytes (x : Identifier kind) : ofBytes? x.bytes = some x := by
  simp [ofBytes?, x.length_bytes]

/-- An identifier that is made of bytes has these bytes. -/
theorem bytes_of_ofBytes?_eq_some {bs : Bytes} {x : Identifier kind} (h : ofBytes? bs = some x) :
    x.bytes = bs := by
  rw [ofBytes?] at h
  split at h
  · cases h
    rfl
  · cases h

end Identifier

end RingDepth
