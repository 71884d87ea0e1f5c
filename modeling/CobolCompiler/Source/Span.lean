import CobolCompiler.Source.Location

/-!
# Spans of source text

A location gives a range of bytes of the source text it points into. If its offsets make a range
they are that range; otherwise its lines and columns are looked up, columns counting bytes. What
lies outside the text is moved to its end, and an empty range before the end is widened to one byte.
-/

namespace CobolCompiler.Source

/-- The number of bytes of some characters. -/
def byteLength (text : List Char) : Nat :=
  text.foldl (fun n c => n + c.utf8Size) 0

/-- The first line of a text, with its line break, and the rest. -/
def cutLine : List Char → List Char × List Char
  | [] => ([], [])
  | c :: rest =>
    if c = '\n' then ([c], rest)
    else
      let (line, more) := cutLine rest
      (c :: line, more)

theorem length_cutLine (text : List Char) :
    (cutLine text).1.length + (cutLine text).2.length = text.length := by
  induction text with
  | nil => rfl
  | cons c rest ih =>
    unfold cutLine
    split
    · simp; omega
    · simp; omega

theorem cutLine_ne_nil {text : List Char} (h : text ≠ []) : (cutLine text).1 ≠ [] := by
  cases text with
  | nil => exact absurd rfl h
  | cons c rest => unfold cutLine; split <;> simp

/-- The lines of a text, each with its line break. There is no empty line after a final line
break. -/
def lines : List Char → List (List Char)
  | [] => []
  | c :: rest => (cutLine (c :: rest)).1 :: lines (cutLine (c :: rest)).2
termination_by text => text.length
decreasing_by
  have := length_cutLine (c :: rest)
  have := List.length_pos_iff.mpr (cutLine_ne_nil (List.cons_ne_nil c rest))
  omega

/-- The byte offset of a column in a line: columns count from one, and the line break is never
passed. -/
def columnOffset (line : List Char) (column : Nat) : Nat :=
  min (column - 1) (byteLength (line.filter (· ≠ '\n')))

/-- The byte offset of a line and a column, where the first of the given lines has the given number
and starts at the given offset. A line that is not there gives the end of the text. -/
def offsetFrom (position : Position) (number offset : Nat) : List (List Char) → Nat
  | [] => offset
  | line :: rest =>
    if number = position.line then offset + columnOffset line position.column
    else offsetFrom position (number + 1) (offset + byteLength line) rest

/-- The byte offset of a line and a column of a text. -/
def offsetOf (text : List Char) (position : Position) : Nat :=
  offsetFrom position 1 0 (lines text)

/-- A range of bytes, without its end. -/
structure Span where
  start : Nat
  stop : Nat
  deriving DecidableEq, Repr

/-- Whether a byte offset lies between two characters, or at an end of a text. -/
def isBoundary : List Char → Nat → Bool
  | _, 0 => true
  | [], _ + 1 => false
  | c :: rest, offset + 1 => c.utf8Size ≤ offset + 1 && isBoundary rest (offset + 1 - c.utf8Size)

/-- Whether a range holds whole characters of a text. -/
def Span.isWhole (span : Span) (text : List Char) : Bool :=
  isBoundary text span.start && isBoundary text span.stop

/-- The range of bytes of a location. -/
def span (text : List Char) (location : Location) : Span :=
  let size := byteLength text
  let (first, last) :=
    if location.stop.offset > location.start.offset then
      (location.start.offset, location.stop.offset)
    else (offsetOf text location.start, offsetOf text location.stop)
  let start := min first size
  let stop := max start (min last size)
  if stop = start && stop < size then ⟨start, stop + 1⟩ else ⟨start, stop⟩

end CobolCompiler.Source
