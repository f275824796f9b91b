import RingDepth.Text.Toml.Scalar

/-!
# TOML documents

Reads a whole TOML text into the members of its root table.
-/

namespace RingDepth.Text.Toml

/-- Whether a character may stand in a key without quotes. -/
def inBareKey (c : Char) : Bool := c.isAlphanum || c = '_' || c = '-'

/-- One part of a key. -/
def keyPart? (cs : List Char) : Option (String × List Char) :=
  match cs.takeWhile inBareKey with
  | [] => quoted? cs
  | part => some (String.ofList part, cs.dropWhile inBareKey)

/-- A key with dots, of at most `fuel` parts. -/
def key? : (fuel : Nat) → Reader (List String)
  | 0, _ => none
  | fuel + 1, cs => do
    let (part, rest) ← keyPart? (skipSpaces cs)
    match skipSpaces rest with
    | '.' :: rest =>
      let (parts, rest) ← key? fuel rest
      return (part :: parts, rest)
    | rest => return ([part], rest)

/-- Fewer parts than this may stand in a key, and fewer lists and inline tables in each other. -/
def depthLimit : Nat := 80

/-- A key, as the path to its table and its last part. -/
def dottedKey? (cs : List Char) : Option ((List String × String) × List Char) := do
  let (parts, rest) ← key? (depthLimit - 1) cs
  return ((parts.dropLast, ← parts.getLast?), rest)

/-- Drops blanks, line feeds and comments, of which there are at most `fuel`. -/
def skipBlank : (fuel : Nat) → List Char → List Char
  | 0, cs => cs
  | fuel + 1, cs =>
    let rest := skipSpaces cs
    match rest with
    | '#' :: _ => skipBlank fuel (skipComment rest)
    | _ =>
      match afterNewline? rest with
      | some rest => skipBlank fuel rest
      | none => rest

mutual

/-- A value. At most `depth` lists and inline tables may be in each other; `fuel` bounds the number of
steps. -/
def value? : (fuel depth : Nat) → Reader Toml
  | 0, _, _ => none
  | fuel + 1, depth, cs =>
    match cs with
    | '"' :: _ => (string? cs).map fun (s, rest) => (.text s, rest)
    | '\'' :: _ => (string? cs).map fun (s, rest) => (.text s, rest)
    | 't' :: 'r' :: 'u' :: 'e' :: rest => some (.bool true, rest)
    | 'f' :: 'a' :: 'l' :: 's' :: 'e' :: rest => some (.bool false, rest)
    | '[' :: rest =>
      if depth = 0 then none
      else (items? fuel (depth - 1) rest).map fun (items, rest) => (.list items, rest)
    | '\x7b' :: rest =>
      if depth = 0 then none
      else
        match skipSpaces rest with
        | '\x7d' :: rest => some (.table .inline [], rest)
        | rest =>
          (pairs? fuel (depth - 1) [] rest).map fun (members, rest) =>
            (.table .inline members, rest)
    | _ => numeric? cs

/-- The items of a list up to its end. -/
def items? : (fuel depth : Nat) → Reader (List Toml)
  | 0, _, _ => none
  | fuel + 1, depth, cs =>
    match skipBlank cs.length cs with
    | ']' :: rest => some ([], rest)
    | cs => do
      let (item, rest) ← value? fuel depth cs
      match skipBlank rest.length rest with
      | ']' :: rest => return ([item], rest)
      | ',' :: rest =>
        let (items, rest) ← items? fuel depth rest
        return (item :: items, rest)
      | _ => none

/-- The members of an inline table up to its end, added to those before them. -/
def pairs? : (fuel depth : Nat) → Members → Reader Members
  | 0, _, _, _ => none
  | fuel + 1, depth, members, cs => do
    let ((path, key), rest) ← dottedKey? cs
    let (value, rest) ← value? fuel depth (skipSpaces (← after? '=' rest))
    let members ← members.addDotted path key value
    match skipSpaces rest with
    | '\x7d' :: rest => return (members, rest)
    | ',' :: rest => pairs? fuel depth members rest
    | _ => none

end

/-- What was read of a document: the members of its root table, and the path of the table to which the
next lines belong. -/
structure Document where
  root : Members := []
  header : List String := []

namespace Document

/-- Reads a line with a key and a value. -/
def pair? (d : Document) (cs : List Char) : Option (Document × List Char) := do
  let ((path, key), rest) ← dottedKey? cs
  let rest := skipSpaces (← after? '=' rest)
  let (value, rest) ← value? (2 * rest.length + 2) (depthLimit - 1) rest
  let root ← d.root.addBelow d.header path key value
  return ({ d with root }, ← afterLine? rest)

/-- Reads a line with a header. -/
def header? (d : Document) : List Char → Option (Document × List Char)
  | '[' :: '[' :: rest => do
    let ((path, key), rest) ← dottedKey? rest
    let rest ← after? ']' (← after? ']' rest)
    return ({ root := ← d.root.openOneMore path key, header := path ++ [key] }, ← afterLine? rest)
  | '[' :: rest => do
    let ((path, key), rest) ← dottedKey? rest
    let rest ← after? ']' rest
    return ({ root := ← d.root.openTable path key, header := path ++ [key] }, ← afterLine? rest)
  | _ => none

/-- Reads a line. -/
def line? (d : Document) (cs : List Char) : Option (Document × List Char) :=
  match cs with
  | '[' :: _ => d.header? cs
  | _ =>
    match afterLine? cs with
    | some rest => some (d, rest)
    | none => d.pair? cs

/-- Reads lines, of which there are at most `fuel`. -/
def lines? : (fuel : Nat) → Document → List Char → Option Document
  | 0, d, cs => if cs.isEmpty then some d else none
  | fuel + 1, d, cs =>
    match skipSpaces cs with
    | [] => some d
    | cs => do
      let (d, rest) ← d.line? cs
      lines? fuel d rest

end Document

/-- A text without a byte order mark in front. -/
def withoutMark : List Char → List Char
  | c :: rest => if c.toNat = 0xFEFF then rest else c :: rest
  | [] => []

/-- The members of the root table of a text. -/
def parse? (s : String) : Option Members :=
  (Document.lines? (s.length + 1) {} (withoutMark s.toList)).map Document.root

end RingDepth.Text.Toml
