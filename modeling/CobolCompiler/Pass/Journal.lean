import CobolCompiler.Text.Utf8

/-!
# The journal

What a session did, in order: the source texts it had parsed, and the notes that its passes left.
-/

namespace CobolCompiler

/-- An entry of the journal. -/
inductive Event
  /-- A source text was given to the parser. -/
  | parsed (name : String) (source : List UInt8) (freeFormat : Bool)
  /-- A pass left a note. -/
  | note (text : String)
  deriving DecidableEq, Repr

/-- What a parser was given, with the source text as it is shown. -/
def Event.parsed? : Event → Option (String × String × Bool)
  | .parsed name source freeFormat => some (name, Text.ofBytes source, freeFormat)
  | .note _ => none

/-- The note that a pass left. -/
def Event.note? : Event → Option String
  | .parsed .. => none
  | .note text => some text

/-- Entries in the order in which they were made. -/
abbrev Journal := Array Event

/-- Add a note. -/
def Journal.note (j : Journal) (text : String) : Journal :=
  j.push (.note text)

end CobolCompiler
