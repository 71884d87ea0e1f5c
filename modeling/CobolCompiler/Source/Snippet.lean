import CobolCompiler.Report.Basic
import CobolCompiler.Source.Span
import CobolCompiler.Text.Blank

/-!
# Snippets

A report is drawn around the lines of source text it speaks of. Each label underlines a stretch of
one line and hangs its message below the middle of it. Labels whose lines come in order share a
frame; a label on an earlier line opens a second one. A label that would cut a character in two
cannot be drawn.
-/

namespace CobolCompiler.Source

open Text

/-- A line of a text, with where it starts. -/
structure Line where
  /-- The number of the line, counting from one. -/
  number : Nat
  /-- The offset of its first byte. -/
  startByte : Nat
  /-- The offset of its first character. -/
  startChar : Nat
  text : List Char

/-- Number the lines of a text and note where they start. -/
def placeLines (number startByte startChar : Nat) : List (List Char) → List Line
  | [] => []
  | text :: rest =>
    ⟨number, startByte, startChar, text⟩
      :: placeLines (number + 1) (startByte + byteLength text) (startChar + text.length) rest

/-- The lines of a text. A text without any has one empty line. -/
def lineTable (text : List Char) : List Line :=
  match lines text with
  | [] => [⟨1, 0, 0, []⟩]
  | first :: rest => placeLines 1 0 0 (first :: rest)

/-- The line a byte belongs to: the last one that starts at or before it. -/
def lineAt (table : List Line) (offset : Nat) : Line :=
  ((table.filter (·.startByte ≤ offset)).getLast?).getD ⟨1, 0, 0, []⟩

/-- The number of characters that start before a byte offset. -/
def charsBefore : List Char → Nat → Nat
  | [], _ => 0
  | c :: rest, offset => if offset = 0 then 0 else 1 + charsBefore rest (offset - c.utf8Size)

/-- A stretch of a line with a message. -/
structure Label where
  line : Line
  /-- The columns of the stretch, counting characters from zero. -/
  startColumn : Nat
  stopColumn : Nat
  /-- The column the message hangs from. -/
  middle : Nat
  message : String

/-- The label of a span. -/
def Label.ofSpan (table : List Line) (span : Span) (message : String) : Label :=
  let line := lineAt table span.start
  let startColumn := charsBefore line.text (span.start - line.startByte)
  let stopColumn := if span.stop = span.start then startColumn
    else charsBefore line.text (span.stop - line.startByte)
  let middle := (line.startChar + startColumn + (line.startChar + stopColumn)) / 2 - line.startChar
  ⟨line, startColumn, stopColumn, middle, message⟩

/-- A text of one character repeated. -/
def repeated (n : Nat) (c : Char) : String :=
  String.ofList (List.replicate n c)

namespace Label

/-- The columns that are drawn below a label's line. -/
def columns (l : Label) : List Nat :=
  List.range (l.stopColumn + 2)

/-- The stroke under a column. -/
def underline (l : Label) (column : Nat) : Char :=
  if column = l.middle && l.startColumn = l.stopColumn then '│'
  else if l.startColumn ≤ column && column < l.stopColumn then
    if column = l.middle then '┬' else '─'
  else ' '

/-- The stroke that leads from the middle to the message. -/
def arrow (l : Label) (column : Nat) : Char :=
  if column < l.middle then ' ' else if column = l.middle then '╰' else '─'

/-- The three rows of a labelled line, in a frame whose numbers have a given width. -/
def rows (width : Nat) (l : Label) : List String :=
  let margin := repeated (width + 2) ' '
  let digits := toString l.line.number
  let number := repeated (width - digits.length) ' ' ++ digits
  let text := String.ofList (trimRight l.line.text)
  [s!" {number} │ {text}",
   s!"{margin}│ {String.ofList (l.columns.map l.underline)}",
   s!"{margin}│ {String.ofList (l.columns.map l.arrow)} {l.message}"]

end Label

/-- The rows of the labels of one frame, with a gap row where lines between two labels are left
out. -/
def frameRows (width : Nat) : List Label → List String
  | [] => []
  | [l] => l.rows width
  | l :: m :: rest =>
    let gap := if l.line.number + 1 < m.line.number then [repeated (width + 2) ' ' ++ "│ "] else []
    l.rows width ++ gap ++ frameRows width (m :: rest)

/-- The labels by frame: a second label joins the first unless its line is an earlier one. -/
def frames (first : Label) : Option Label → List (List Label)
  | none => [[first]]
  | some second =>
    if first.line.number ≤ second.line.number then [[first, second]] else [[first], [second]]

/-- A line without its line break, which is a line feed or a carriage return and a line feed. -/
def withoutBreak (line : List Char) : List Char :=
  match line.reverse with
  | '\n' :: '\r' :: rest => rest.reverse
  | '\n' :: rest => rest.reverse
  | _ => line

/-- The rows of a remark: its kind stands before the first line, and the others are indented to
it. -/
def remarkRows (margin kind : String) : List String → List String
  | [] => []
  | first :: rest =>
    let indent := repeated (kind.length + 2) ' '
    s!"{margin}│ {kind}: {first}" :: rest.map fun line => s!"{margin}│ {indent}{line}"

/-- A remark below the frames. -/
def remark (margin kind : String) : Option String → List String
  | none => []
  | some text =>
    s!"{margin}│ " :: remarkRows margin kind
      ((lines text.toList).map fun line => String.ofList (withoutBreak line))

/-- Draw the frames of a report. The first has a corner, the others a branch; each is headed by the
place of the report. -/
def drawFrames (width : Nat) (heading : String) (frames : List (List Label)) : List String :=
  let margin := repeated (width + 2) ' '
  let draw (corner : String) (labels : List Label) : List String :=
    [s!"{margin}{corner}─[ {heading} ]", s!"{margin}│"] ++ frameRows width labels
  match frames with
  | [] => []
  | first :: rest =>
    draw "╭" first ++ rest.flatMap fun labels => s!"{margin}│" :: draw "├" labels

/-- The label of a location in a text, if it can be drawn. -/
def label? (text : List Char) (table : List Line) (location : Location) (message : String) :
    Option Label :=
  let range := span text location
  if range.isWhole text then some (Label.ofSpan table range message) else none

/-- The labels and the note of a report: a second place in the same file is a label, and one in
another file is noted. -/
def labels? (text : List Char) (report : Report) :
    Option (Label × Option Label × Option String) := do
  let table := lineTable text
  let primary ← label? text table report.place.location report.message
  match report.related.head? with
  | none => return (primary, none, none)
  | some r =>
    if r.place.file = report.place.file then
      return (primary, some (← label? text table r.place.location r.message), none)
    else return (primary, none, some s!"{r.message} at {r.place.text}")

/-- Draw a report around the text of the file it points into. -/
def snippet? (source : String) (report : Report) : Option (List String) := do
  let (primary, second?, note?) ← labels? source.toList report
  let largest := max primary.line.number ((second?.map (·.line.number)).getD 0)
  let width := (toString largest).length
  let margin := repeated (width + 2) ' '
  let heading := s!"{report.place.file}:{primary.line.number}:{primary.startColumn + 1}"
  return [s!"[{report.code}] Error: {report.message}"]
    ++ drawFrames width heading (frames primary second?)
    ++ remark margin "Help" report.help?
    ++ remark margin "Note" note?
    ++ [repeated (width + 2) '─' ++ "╯"]

end CobolCompiler.Source
