/-!
# TOML values and tables

A TOML text builds its tables step by step: headers open tables, dotted keys make tables on their way,
and inline tables are closed once they are written. What may still be added to a table depends on how
it was made.
-/

namespace RingDepth.Text

/-- How a table was made, which decides what may be added to it. -/
inductive TableOrigin where
  | header
  /-- On the way to the table that a header names. -/
  | headerPath
  /-- On the way to the value that a dotted key names. -/
  | dottedKey
  | inline
deriving DecidableEq, Repr

/-- A TOML value. Numbers with a point and moments in time are only known to be there. -/
inductive Toml where
  | text (value : String)
  | integer (value : Int)
  | float
  | bool (value : Bool)
  | dateTime
  | list (items : List Toml)
  /-- The tables that headers in double brackets opened under one name, the last first. -/
  | tables (opened : List (List (String × Toml)))
  | table (origin : TableOrigin) (members : List (String × Toml))

namespace Toml

/-- The members of a table. -/
abbrev Members := List (String × Toml)

namespace Members

/-- The value of a key. -/
def get? (m : Members) (key : String) : Option Toml := m.lookup key

/-- Gives a key a value. -/
def set (m : Members) (key : String) (value : Toml) : Members :=
  if (m.get? key).isSome then m.map fun (k, v) => if k = key then (k, value) else (k, v)
  else m ++ [(key, value)]

/-- Adds a member whose key is new. -/
def add (key : String) (value : Toml) (m : Members) : Option Members :=
  if (m.get? key).isSome then none else some (m.set key value)

/-- Whether a path may go on through a table. Dotted keys do not enter tables that a header opened or
that are written inline; headers enter all but the latter. -/
def mayEnter (origin through : TableOrigin) : Bool :=
  match origin with
  | .inline => false
  | .header => through != .dottedKey
  | .headerPath => true
  | .dottedKey => true

/-- Works on the table at the end of a path, given with its origin. Tables on the way that are not
there are made, and are of the origin `through`. Among tables of one name the last is meant. -/
def within (through : TableOrigin) (f : TableOrigin → Members → Option Members) :
    List String → TableOrigin → Members → Option Members
  | [], origin, m => f origin m
  | key :: path, _, m =>
    match m.get? key with
    | none => do return m.set key (.table through (← within through f path through []))
    | some (.table origin inner) =>
      if mayEnter origin through then do
        return m.set key (.table origin (← within through f path origin inner))
      else none
    | some (.tables (last :: others)) => do
      return m.set key (.tables ((← within through f path .header last) :: others))
    | some _ => none

/-- Adds a value under a dotted key. The table that gets it must have been made by dotted keys too,
unless the key has no dots. -/
def addDotted (path : List String) (key : String) (value : Toml) (m : Members) : Option Members :=
  within .dottedKey
    (fun origin inner =>
      if !path.isEmpty && origin != .dottedKey then none else inner.add key value)
    path .header m

/-- Opens the table that a header names. It must be new, or have been made on the way to another. -/
def openTable (path : List String) (key : String) (m : Members) : Option Members :=
  within .headerPath
    (fun _ inner =>
      match inner.get? key with
      | none => some (inner.set key (.table .header []))
      | some (.table .headerPath members) => some (inner.set key (.table .header members))
      | some _ => none)
    path .header m

/-- Opens one more of the tables that headers in double brackets name. -/
def openOneMore (path : List String) (key : String) (m : Members) : Option Members :=
  within .headerPath
    (fun _ inner =>
      match inner.get? key with
      | none => some (inner.set key (.tables [[]]))
      | some (.tables others) => some (inner.set key (.tables ([] :: others)))
      | some _ => none)
    path .header m

/-- Adds a value under a dotted key to the table at the end of a path of headers. -/
def addBelow (header path : List String) (key : String) (value : Toml) (m : Members) :
    Option Members :=
  within .headerPath (fun _ inner => addDotted path key value inner) header .header m

end Members

end Toml

end RingDepth.Text
