/-!
# Texts

Texts are cut into lines, and blanks at their ends do not count: these are the characters with the Unicode property
`White_Space`. Counters are written as decimal numerals, with a plus sign in front or without one. Bytes that are told
in a message stand between single quotes, as the character with their number and with escapes for what does not print.
-/

namespace RingDepth.Text

/-! ### Blanks -/

/-- Whether a character has the Unicode property `White_Space`. -/
def isBlank (c : Char) : Bool :=
  (0x09 ≤ c.val && c.val ≤ 0x0D) || c.val == 0x20 || c.val == 0x85 || c.val == 0xA0 ||
    c.val == 0x1680 || (0x2000 ≤ c.val && c.val ≤ 0x200A) || c.val == 0x2028 || c.val == 0x2029 ||
    c.val == 0x202F || c.val == 0x205F || c.val == 0x3000

/-- A list of characters without the blanks at its two ends. -/
def trimBlanks (cs : List Char) : List Char :=
  ((cs.dropWhile isBlank).reverse.dropWhile isBlank).reverse

/-- A text without the blanks at its two ends. -/
def trim (s : String) : String := String.ofList (trimBlanks s.toList)

/-- Nothing is cut off where there are no blanks. -/
theorem trimBlanks_eq_self {cs : List Char} (h : ∀ c ∈ cs, isBlank c = false) :
    trimBlanks cs = cs := by
  have hfront : ∀ l : List Char, (∀ c ∈ l, isBlank c = false) → l.dropWhile isBlank = l := by
    intro l hl
    cases l with
    | nil => rfl
    | cons c l => simp [hl c (by simp)]
  rw [trimBlanks, hfront cs h, hfront _ (by simpa using h), List.reverse_reverse]

/-! ### Lines -/

/-- Cuts a text at a character. There is always one piece more than there are cuts. -/
def cutAt (mark : Char) : List Char → List (List Char)
  | [] => [[]]
  | c :: rest =>
    if c = mark then [] :: cutAt mark rest
    else
      match cutAt mark rest with
      | [] => [[c]]
      | piece :: pieces => (c :: piece) :: pieces

/-- Splits a text at the first occurrence of a character, which goes to neither side. -/
def splitFirst? (mark : Char) : List Char → Option (List Char × List Char)
  | [] => none
  | c :: rest =>
    if c = mark then some ([], rest)
    else (splitFirst? mark rest).map fun (before, after) => (c :: before, after)

/-- The lines of a text without the blanks at their ends; empty ones are dropped. -/
def lines (s : String) : List (List Char) :=
  ((cutAt '\n' s.toList).map trimBlanks).filter fun line => !line.isEmpty

/-! ### Numerals -/

/-- The number that decimal digits write. -/
def valueOf (digits : List Char) : Nat :=
  digits.foldl (fun n c => 10 * n + (c.toNat - '0'.toNat)) 0

/-- The characters after a plus sign, if there is one. -/
def withoutPlus : List Char → List Char
  | '+' :: rest => rest
  | cs => cs

/-- The counter of 64 bits that a numeral writes. -/
def counter? (cs : List Char) : Option UInt64 :=
  let digits := withoutPlus cs
  if digits.isEmpty || !digits.all Char.isDigit then none
  else if valueOf digits < UInt64.size then some (UInt64.ofNat (valueOf digits))
  else none

/-! ### Quoted characters -/

/-- The lowercase digit of a number below sixteen. -/
def hexDigit (n : Nat) : Char :=
  Char.ofNat (if n % 16 < 10 then '0'.toNat + n % 16 else 'a'.toNat + (n % 16 - 10))

/-- The hexadecimal digits of a byte, without leading zeros. -/
def shortHex (b : UInt8) : List Char :=
  if b < 16 then [hexDigit b.toNat] else [hexDigit (b.toNat / 16), hexDigit b.toNat]

/-- Whether the character with this number prints: it is no control character, and no blank or
format character other than the space. -/
def prints (b : UInt8) : Bool := 0x20 ≤ b && b != 0x7F && !(0x80 ≤ b && b ≤ 0xA0) && b != 0xAD

/-- The character with this number, escaped where it does not print or would close the quotes. -/
def escapeByte (b : UInt8) : List Char :=
  if b = 0 then ['\\', '0']
  else if b = 0x09 then ['\\', 't']
  else if b = 0x0A then ['\\', 'n']
  else if b = 0x0D then ['\\', 'r']
  else if b = 0x27 then ['\\', '\'']
  else if b = 0x5C then ['\\', '\\']
  else if prints b then [Char.ofNat b.toNat]
  else ['\\', 'u', '\x7b'] ++ shortHex b ++ ['\x7d']

/-- The character with this number between single quotes. -/
def quoteByte (b : UInt8) : String := String.ofList (['\''] ++ escapeByte b ++ ['\''])

end RingDepth.Text
