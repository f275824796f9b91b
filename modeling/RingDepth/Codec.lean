import RingDepth.Identifier

/-!
# Binary codec

The stored form of a value: integers have a fixed width and their least significant byte first, a
list is preceded by its length in eight bytes, a record is the sequence of its fields, and a choice
is the number of its variant in four bytes before the fields of that variant. Reading takes a value
off the front of a byte string and leaves the rest, so trailing bytes do no harm.
-/

namespace RingDepth

/-- Why a byte string holds no value. -/
inductive DecodeError where
  | unexpectedEnd
  /-- The number of a variant is not below the number of variants. -/
  | unknownVariant (found : UInt32) (variants : Nat)
deriving DecidableEq, Repr

/-- The text of the error. -/
def DecodeError.message : DecodeError → String
  | .unexpectedEnd => "io error: unexpected end of file"
  | .unknownVariant found variants =>
    s!"invalid value: integer `{found}`, expected variant index 0 <= i < {variants}"

/-- Types with a stored form. -/
class Codec (α : Type) where
  encode : α → Bytes
  decode : Bytes → Except DecodeError (α × Bytes)

namespace Codec

variable {α β : Type}

/-- Takes `n` bytes off the front. -/
def takeBytes : (n : Nat) → Bytes → Except DecodeError (Bytes × Bytes)
  | 0, bs => .ok ([], bs)
  | _ + 1, [] => .error .unexpectedEnd
  | n + 1, b :: bs => (takeBytes n bs).map fun (taken, rest) => (b :: taken, rest)

/-- Takes an integer of `width` bytes off the front. -/
def takeNat (width : Nat) (bs : Bytes) : Except DecodeError (Nat × Bytes) :=
  (takeBytes width bs).map fun (taken, rest) => (Bytes.ofLittleEndian taken, rest)

/-- Takes `n` values off the front, one after the other. -/
def decodeMany (α : Type) [Codec α] : (n : Nat) → Bytes → Except DecodeError (List α × Bytes)
  | 0, bs => .ok ([], bs)
  | n + 1, bs => do
    let (x, bs) ← decode bs
    let (xs, bs) ← decodeMany α n bs
    return (x :: xs, bs)

/-- The value at the front of the bytes; what follows it is not looked at. -/
def read [Codec α] (bs : Bytes) : Except DecodeError α := (decode bs).map Prod.fst

/-- The codec of a record, from that of the sequence of its fields. -/
@[reducible] def ofFields [Codec β] (toFields : α → β) (ofFields : β → α) : Codec α where
  encode x := encode (toFields x)
  decode bs := (decode bs).map fun (fields, rest) => (ofFields fields, rest)

instance : Codec UInt8 where
  encode b := [b]
  decode
    | [] => .error .unexpectedEnd
    | b :: bs => .ok (b, bs)

instance : Codec UInt32 where
  encode n := Bytes.littleEndian 4 n.toNat
  decode bs := (takeNat 4 bs).map fun (n, rest) => (UInt32.ofNat n, rest)

instance : Codec UInt64 where
  encode n := Bytes.littleEndian 8 n.toNat
  decode bs := (takeNat 8 bs).map fun (n, rest) => (UInt64.ofNat n, rest)

instance {kind : Identifier.Kind} : Codec (Identifier kind) where
  encode x := x.bytes
  decode bs :=
    match takeBytes 32 bs with
    | .error e => .error e
    | .ok (taken, rest) =>
      match Identifier.ofBytes? taken with
      | some x => .ok (x, rest)
      | none => .error .unexpectedEnd

instance [Codec α] [Codec β] : Codec (α × β) where
  encode p := encode p.1 ++ encode p.2
  decode bs := do
    let (x, bs) ← decode bs
    let (y, bs) ← decode bs
    return ((x, y), bs)

instance [Codec α] : Codec (List α) where
  encode xs := Bytes.littleEndian 8 xs.length ++ xs.flatMap encode
  decode bs := do
    let (n, bs) ← takeNat 8 bs
    decodeMany α n bs

end Codec

end RingDepth
