import RingDepth.Number.Binary64
import RingDepth.Text.Toml.Table

/-!
# TOML texts, numbers and moments

Readers of single values. Each takes a value off the front of a text, or gives none if there is no
such value.
-/

namespace RingDepth.Text.Toml

/-- A reader: the value at the front of a text, and what follows it. -/
abbrev Reader (α : Type) := List Char → Option (α × List Char)

/-- Whether a character is a blank within a line. -/
def isSpace (c : Char) : Bool := c = ' ' || c = '\t'

/-- Drops blanks. -/
def skipSpaces (cs : List Char) : List Char := cs.dropWhile isSpace

/-- The text after a line feed, alone or behind a carriage return. -/
def afterNewline? : List Char → Option (List Char)
  | '\n' :: rest => some rest
  | '\r' :: '\n' :: rest => some rest
  | _ => none

/-- Whether a character may stand in a comment. -/
def inComment (c : Char) : Bool := c = '\t' || (0x20 ≤ c.toNat && c.toNat != 0x7F)

/-- Drops a comment. -/
def skipComment : List Char → List Char
  | '#' :: rest => rest.dropWhile inComment
  | cs => cs

/-- The text after what may follow a value on its line: blanks, a comment, and the end of the line or
of the text. -/
def afterLine? (cs : List Char) : Option (List Char) :=
  match skipComment (skipSpaces cs) with
  | [] => some []
  | rest => afterNewline? rest

/-- The value of a hexadecimal digit. -/
def hexValue? (c : Char) : Option Nat :=
  if c.isDigit then some (c.toNat - '0'.toNat)
  else if 'a' ≤ c ∧ c ≤ 'f' then some (c.toNat - 'a'.toNat + 10)
  else if 'A' ≤ c ∧ c ≤ 'F' then some (c.toNat - 'A'.toNat + 10)
  else none

/-- The character whose number is written in hexadecimal digits. -/
def character? (digits : List Char) : Option Char := do
  let n ← digits.foldlM (fun n c => (hexValue? c).map (16 * n + ·)) 0
  if n < 0xD800 ∨ (0xE000 ≤ n ∧ n < 0x110000) then some (Char.ofNat n) else none

/-- What an escape after a backslash stands for. -/
def escape? : Reader Char
  | 'b' :: rest => some (Char.ofNat 8, rest)
  | 't' :: rest => some ('\t', rest)
  | 'n' :: rest => some ('\n', rest)
  | 'f' :: rest => some (Char.ofNat 12, rest)
  | 'r' :: rest => some ('\r', rest)
  | '"' :: rest => some ('"', rest)
  | '\\' :: rest => some ('\\', rest)
  | 'u' :: a :: b :: c :: d :: rest => (character? [a, b, c, d]).map (·, rest)
  | 'U' :: a :: b :: c :: d :: e :: f :: g :: h :: rest =>
    (character? [a, b, c, d, e, f, g, h]).map (·, rest)
  | _ => none

/-- Whether a character may stand in a text between quotes as it is. -/
def inText (c : Char) : Bool := c = '\t' || (0x20 ≤ c.toNat && c.toNat != 0x7F)

/-- Puts a character in front of what a reader gives. -/
def consTo (c : Char) : Option (List Char × List Char) → Option (List Char × List Char) :=
  Option.map fun (cs, rest) => (c :: cs, rest)

/-- The rest of a text between double quotes, which has at most `fuel` characters. -/
def basicRest? : (fuel : Nat) → Reader (List Char)
  | 0, _ => none
  | _ + 1, [] => none
  | fuel + 1, c :: rest =>
    if c = '"' then some ([], rest)
    else if c = '\\' then do
      let (c, rest) ← escape? rest
      consTo c (basicRest? fuel rest)
    else if inText c then consTo c (basicRest? fuel rest)
    else none

/-- The rest of a text between single quotes. -/
def literalRest? : Reader (List Char)
  | [] => none
  | c :: rest =>
    if c = '\'' then some ([], rest)
    else if inText c then consTo c (literalRest? rest)
    else none

/-- What follows the quotes that close a text of several lines: of three to five quotes in a row, the
last three close it. -/
def closing? (quote : Char) (cs : List Char) : Option (List Char × List Char) :=
  let run := (cs.takeWhile (· = quote)).length
  if 3 ≤ run ∧ run ≤ 5 then some (List.replicate (run - 3) quote, cs.drop run) else none

/-- Drops blanks and line feeds, of which there are at most `fuel`. -/
def skipLines : (fuel : Nat) → List Char → List Char
  | 0, cs => cs
  | fuel + 1, cs =>
    let rest := skipSpaces cs
    match afterNewline? rest with
    | some rest => skipLines fuel rest
    | none => rest

/-- The text after a backslash that ends its line: all blanks up to the next character are dropped. -/
def afterFold? (cs : List Char) : Option (List Char) :=
  (afterNewline? (skipSpaces cs)).map fun rest => skipLines rest.length rest

/-- The rest of a text of several lines between double quotes, of at most `fuel` characters. -/
def basicLines? : (fuel : Nat) → Reader (List Char)
  | 0, _ => none
  | _ + 1, [] => none
  | fuel + 1, c :: rest =>
    if c = '"' then
      match closing? '"' (c :: rest) with
      | some result => some result
      | none => if rest.take 2 = ['"', '"'] then none else consTo c (basicLines? fuel rest)
    else if c = '\\' then
      match afterFold? rest with
      | some rest => basicLines? fuel rest
      | none => do
        let (c, rest) ← escape? rest
        consTo c (basicLines? fuel rest)
    else
      match afterNewline? (c :: rest) with
      | some rest => consTo '\n' (basicLines? fuel rest)
      | none => if inText c then consTo c (basicLines? fuel rest) else none

/-- The rest of a text of several lines between single quotes, of at most `fuel` characters. -/
def literalLines? : (fuel : Nat) → Reader (List Char)
  | 0, _ => none
  | _ + 1, [] => none
  | fuel + 1, c :: rest =>
    if c = '\'' then
      match closing? '\'' (c :: rest) with
      | some result => some result
      | none => if rest.take 2 = ['\'', '\''] then none else consTo c (literalLines? fuel rest)
    else
      match afterNewline? (c :: rest) with
      | some rest => consTo '\n' (literalLines? fuel rest)
      | none => if inText c then consTo c (literalLines? fuel rest) else none

/-- A line feed right after the opening quotes does not count. -/
def withoutFirstNewline (cs : List Char) : List Char := (afterNewline? cs).getD cs

/-- A text between quotes on one line. -/
def quoted? : Reader String
  | '"' :: rest => (basicRest? rest.length rest).map fun (cs, rest) => (String.ofList cs, rest)
  | '\'' :: rest => (literalRest? rest).map fun (cs, rest) => (String.ofList cs, rest)
  | _ => none

/-- A text between quotes. -/
def string? : Reader String
  | '"' :: '"' :: '"' :: rest =>
    (basicLines? rest.length (withoutFirstNewline rest)).map fun (cs, rest) =>
      (String.ofList cs, rest)
  | '\'' :: '\'' :: '\'' :: rest =>
    (literalLines? rest.length (withoutFirstNewline rest)).map fun (cs, rest) =>
      (String.ofList cs, rest)
  | cs => quoted? cs

/-- Digits that a predicate allows, with single underscores between them, up to an end. Gives the
digits without the underscores. -/
def digitsRest (allowed : Char → Bool) : List Char → List Char × List Char
  | '_' :: c :: rest =>
    if allowed c then
      let (digits, rest) := digitsRest allowed rest
      (c :: digits, rest)
    else ([], '_' :: c :: rest)
  | c :: rest =>
    if allowed c then
      let (digits, rest) := digitsRest allowed rest
      (c :: digits, rest)
    else ([], c :: rest)
  | [] => ([], [])

/-- Digits with single underscores between them, of which there must be one at least. -/
def digits? (allowed : Char → Bool) : Reader (List Char)
  | [] => none
  | c :: rest =>
    if allowed c then
      let (digits, rest) := digitsRest allowed rest
      some (c :: digits, rest)
    else none

/-- A sign, if there is one: whether it is a minus. -/
def sign : List Char → Bool × List Char
  | '+' :: rest => (false, rest)
  | '-' :: rest => (true, rest)
  | cs => (false, cs)

/-- The digits of a decimal number without leading zeros. -/
def decimalDigits? : Reader (List Char)
  | '0' :: rest => some (['0'], rest)
  | cs => digits? Char.isDigit cs

/-- The number that digits write in a base. -/
def valueIn (base : Nat) (digits : List Char) : Nat :=
  digits.foldl (fun n c => base * n + (hexValue? c).getD 0) 0

/-- A whole number that fits into 64 bits with a sign. -/
def bounded? (n : Int) : Option Int := 
  if -9223372036854775808 ≤ n ∧ n ≤ 9223372036854775807 then some n else none

/-- The digits of a number in another base than ten. -/
def inBase? (base : Nat) (cs : List Char) : Option (Int × List Char) := do
  let allowed (c : Char) : Bool := (hexValue? c).any (· < base)
  let (digits, rest) ← digits? allowed cs
  let n ← bounded? (valueIn base digits)
  return (n, rest)

/-- A whole number. -/
def integer? : Reader Int
  | '0' :: 'x' :: rest => inBase? 16 rest
  | '0' :: 'o' :: rest => inBase? 8 rest
  | '0' :: 'b' :: rest => inBase? 2 rest
  | cs => do
    let (negative, rest) := sign cs
    let (digits, rest) ← decimalDigits? rest
    let n : Int := valueIn 10 digits
    return (← bounded? (if negative then -n else n), rest)

/-- A point and the digits after it. -/
def fraction? : Reader (List Char)
  | '.' :: rest => digits? Char.isDigit rest
  | _ => none

/-- The mark, the sign and the digits of an exponent. -/
def exponent? : Reader Int
  | c :: rest =>
    if c = 'e' ∨ c = 'E' then do
      let (negative, rest) := sign rest
      let (digits, rest) ← digits? Char.isDigit rest
      let n : Int := valueIn 10 digits
      return (if negative then -n else n, rest)
    else none
  | [] => none

/-- Whether `digits * 10 ^ exponent` rounds to a number that is not infinite in the double format. The
least number that does not is halfway between the greatest one and the next power of two. -/
def isFinite (digits : Nat) (exponent : Int) : Bool :=
  let size : Int := (Nat.toDigits 10 digits).length + exponent
  if digits = 0 ∨ size < 300 then true
  else if 320 < size then false
  else
    decide (digits * tenTo exponent < (twoTo 1024 - twoTo 970) * tenTo (-exponent))

/-- Whether a number with a point or an exponent can be kept: a positive one may not be infinite. -/
def keeps (negative : Bool) (whole fraction : List Char) (exponent : Int) : Bool :=
  negative || isFinite (valueIn 10 (whole ++ fraction)) (exponent - fraction.length)

/-- A number with a fraction or an exponent. -/
def float? (cs : List Char) : Option (List Char) := do
  let (negative, rest) := sign cs
  match rest with
  | 'i' :: 'n' :: 'f' :: rest => return rest
  | 'n' :: 'a' :: 'n' :: rest => return rest
  | _ =>
    let (whole, rest) ← decimalDigits? rest
    match exponent? rest, fraction? rest with
    | some (exponent, rest), _ => if keeps negative whole [] exponent then some rest else none
    | none, none => none
    | none, some (fraction, rest) =>
      match exponent? rest with
      | some (exponent, rest) =>
        if keeps negative whole fraction exponent then some rest else none
      | none => if keeps negative whole fraction 0 then some rest else none

/-- A number of exactly `width` digits within bounds. -/
def field? (width low high : Nat) (cs : List Char) : Option (Nat × List Char) :=
  let digits := cs.take width
  let n := valueIn 10 digits
  if digits.length = width ∧ digits.all Char.isDigit ∧ low ≤ n ∧ n ≤ high then
    some (n, cs.drop width)
  else none

/-- The text after an expected character. -/
def after? (c : Char) : List Char → Option (List Char)
  | [] => none
  | d :: rest => if c = d then some rest else none

/-- The number of days of a month. -/
def daysIn (year month : Nat) : Nat :=
  if month = 2 then
    if (year % 4 = 0 ∧ year % 100 ≠ 0) ∨ year % 400 = 0 then 29 else 28
  else if month ∈ [4, 6, 9, 11] then 30
  else 31

/-- A date. -/
def date? (cs : List Char) : Option (List Char) := do
  let (year, cs) ← field? 4 0 9999 cs
  let (month, cs) ← field? 2 1 12 (← after? '-' cs)
  let (_, cs) ← field? 2 1 (daysIn year month) (← after? '-' cs)
  return cs

/-- A time of day, with a fraction of a second if there is one. -/
def time? (cs : List Char) : Option (List Char) := do
  let (_, cs) ← field? 2 0 23 cs
  let (_, cs) ← field? 2 0 59 (← after? ':' cs)
  let (_, cs) ← field? 2 0 60 (← after? ':' cs)
  match cs with
  | '.' :: rest =>
    if (rest.takeWhile Char.isDigit).isEmpty then some cs else some (rest.dropWhile Char.isDigit)
  | _ => return cs

/-- The distance of a local time from universal time. -/
def offset? : List Char → Option (List Char)
  | 'Z' :: rest => some rest
  | 'z' :: rest => some rest
  | c :: rest =>
    if c = '+' ∨ c = '-' then do
      let (_, rest) ← field? 2 0 23 rest
      let (_, rest) ← field? 2 0 59 (← after? ':' rest)
      return rest
    else none
  | [] => none

/-- A date, a time, or a date and a time with or without an offset. -/
def moment? (cs : List Char) : Option (List Char) :=
  match date? cs with
  | none => time? cs
  | some (c :: rest) =>
    if c = 'T' ∨ c = 't' ∨ c = ' ' then
      match time? rest with
      | some rest => some ((offset? rest).getD rest)
      | none => some (c :: rest)
    else some (c :: rest)
  | some [] => some []

/-- A number or a moment. -/
def numeric? (cs : List Char) : Option (Toml × List Char) :=
  match moment? cs with
  | some rest => some (.dateTime, rest)
  | none =>
    match float? cs with
    | some rest => some (.float, rest)
    | none => (integer? cs).map fun (n, rest) => (.integer n, rest)

end RingDepth.Text.Toml
