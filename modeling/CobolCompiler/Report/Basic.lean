import CobolCompiler.Report.Problem
import CobolCompiler.Source.Location

/-!
# Faults and reports

A fault is a problem at a place of a file, possibly with a second place that explains it. A report
is what a user or a tool gets to see of it.
-/

namespace CobolCompiler

/-- A place in a file. -/
structure Place where
  file : String
  location : Location
  deriving DecidableEq, Repr

/-- The form `file:line:column`. -/
def Place.text (p : Place) : String :=
  s!"{p.file}:{p.location.text}"

/-- A problem with the place where it is. -/
structure Fault where
  problem : Problem
  place : Place
  /-- A second place, such as that of an earlier definition. -/
  related? : Option Place
  deriving DecidableEq, Repr

/-- How serious a report is. -/
inductive Severity
  | error
  | warning
  deriving DecidableEq, Repr

/-- The name of a severity. -/
def Severity.text : Severity → String
  | .error => "error"
  | .warning => "warning"

/-- A second place in a report, and what it has to do with it. -/
structure Related where
  place : Place
  message : String
  deriving DecidableEq, Repr

/-- A fault as it is shown. -/
structure Report where
  severity : Severity
  code : String
  message : String
  place : Place
  related : List Related
  help? : Option String
  deriving DecidableEq, Repr

/-- A report in one line. -/
def Report.text (r : Report) : String :=
  s!"{r.place.text}: {r.severity.text}[{r.code}]: {r.message}"

namespace Fault

/-- The wording of a fault. -/
def message (f : Fault) : String :=
  s!"{f.place.text}: {f.problem.message}"

/-- The report of a fault. -/
def report (f : Fault) : Report :=
  { severity := .error
    code := f.problem.code
    message := f.problem.message
    place := f.place
    related := (f.related?.map fun place => ⟨place, f.problem.relatedMessage⟩).toList
    help? := f.problem.help? }

end Fault

end CobolCompiler
