/-!
# Places in source text

A position is known by its byte offset, its line and its column; lines and columns count from one. A
location is the stretch between two positions. Trees that were not read from a file have locations
with lines and columns only, or with nothing at all.
-/

namespace CobolCompiler

/-- A point in a source file. -/
structure Position where
  offset : Nat
  line : Nat
  column : Nat
  deriving DecidableEq, Repr, Inhabited

/-- A stretch of a source file. -/
structure Location where
  start : Position
  stop : Position
  deriving DecidableEq, Repr, Inhabited

namespace Location

/-- The location of what stands nowhere. -/
def none : Location :=
  ⟨⟨0, 0, 0⟩, ⟨0, 0, 0⟩⟩

/-- A stretch of one line. The offsets are left at zero. -/
def onLine (line startColumn stopColumn : Nat) : Location :=
  ⟨⟨0, line, startColumn⟩, ⟨0, line, stopColumn⟩⟩

/-- One column of one line. -/
def point (line column : Nat) : Location :=
  onLine line column (column + 1)

/-- The line it starts on. -/
def line (l : Location) : Nat :=
  l.start.line

/-- The column it starts in. -/
def column (l : Location) : Nat :=
  l.start.column

/-- The form `line:column`. -/
def text (l : Location) : String :=
  s!"{l.line}:{l.column}"

end Location

end CobolCompiler
