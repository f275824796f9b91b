/-!
# Formats of log lines

The formats in which log lines are written, and how their names are read from a text of either case.
-/

namespace RingDepth

/-- How log lines are written. -/
inductive LogFormat where
  | human
  | json
deriving DecidableEq, Repr

/-- A text that names no format, in lowercase. -/
structure UnknownLogFormat where
  name : String
deriving DecidableEq, Repr

/-- The text of the error. -/
def UnknownLogFormat.message (e : UnknownLogFormat) : String :=
  s!"unknown log format '{e.name}' (expected 'human' or 'json')"

namespace LogFormat

/-- The name of a format. -/
def name : LogFormat → String
  | human => "human"
  | json => "json"

/-- All formats. -/
def all : List LogFormat := [human, json]

/-- The format with a name in lowercase. -/
def ofName? (s : String) : Option LogFormat := all.find? fun format => format.name == s

/-- The format with a name; the case of ASCII letters does not matter. -/
def parse (s : String) : Except UnknownLogFormat LogFormat :=
  match ofName? s.toLower with
  | some format => .ok format
  | none => .error ⟨s.toLower⟩

end LogFormat

end RingDepth
