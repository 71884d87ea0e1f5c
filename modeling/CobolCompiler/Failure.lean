import CobolCompiler.FileStore
import CobolCompiler.Machine.Assembler
import CobolCompiler.Pass.Schedule
import CobolCompiler.Source.Snippet

/-!
# Failures

Why a compilation ends without a module. A failure is an answer to the user. A broken invariant is
none: it says that a step was run without what an earlier step is to provide, which only happens on
trees and in sessions that the steps were not made for.
-/

namespace CobolCompiler

open Machine

/-- What a step relies on. -/
inductive Invariant
  /-- The chunk of the current file. -/
  | currentChunk
  /-- The program around a field or a parameter list. -/
  | enclosingProgram
  /-- The symbol of a program node. -/
  | boundProgram
  /-- The field a reference stands for. -/
  | boundField
  /-- The program a call stands for. -/
  | boundCallee
  /-- The type of a call argument. -/
  | argumentType
  /-- How a COMP-4 field is stored. -/
  | comp4Storage
  /-- The constant a linkage field starts with. -/
  | linkageConstant
  /-- The place of a field at run time. -/
  | slot
  /-- The prototype of a called program. -/
  | prototype
  /-- The callable that a call pushed. -/
  | callable
  /-- An entry on the operand stack. -/
  | stackEntry
  /-- A place that begins and ends between characters. -/
  | wholeCharacters
  /-- Sizes of a picture that add up to a number of 32 bits. -/
  | pictureSize
  /-- Programs that are opened in the order of their declarations. -/
  | programOrder
  deriving DecidableEq, Repr

/-- Why a compilation fails. -/
inductive Failure
  /-- The passes cannot be ordered. -/
  | schedule (error : ScheduleError)
  /-- A mistake in a source file. -/
  | fault (fault : Fault)
  /-- The root of the tree was not replaced by exactly one node. -/
  | rootReplaced (count : Nat)
  /-- The module exceeds a limit of its format. -/
  | assemble (error : AssembleError)
  /-- All passes ran, and no module came out. -/
  | noModule (file : String)
  /-- A file could not be read or written. -/
  | file (path : String) (error : FileError)
  /-- The directory of the system could not be walked through. -/
  | walk (error : WalkError)
  deriving DecidableEq, Repr

namespace Failure

/-- The wording of a failure. -/
def message : Failure → String
  | .schedule e => e.message
  | .fault f => f.message
  | .rootReplaced count => s!"root node was replaced by {count} nodes, expected 1"
  | .assemble e => e.message
  | .noModule name => s!"{name}: no module was generated"
  | .file path e => s!"{path}: {e.message}"
  | .walk e => e.message

/-- The report of a failure that points into a source file. -/
def report? : Failure → Option Report
  | .fault f => some f.report
  | _ => none

/-- Draw a failure for the user: around the source text if it points there, or else in one line. -/
def render (source : String) (failure : Failure) : Except Invariant String :=
  match failure.report? with
  | none => .ok s!"error: {failure.message}\n"
  | some report =>
    match Source.snippet? source report with
    | some rows => .ok (String.join (rows.map (· ++ "\n")))
    | none => .error .wholeCharacters

end Failure

/-- Why a step stops. -/
inductive Stop
  | failed (failure : Failure)
  | broken (invariant : Invariant)
  deriving DecidableEq, Repr

namespace Stop

/-- Stop at a mistake in a source file. -/
def fault (problem : Problem) (file : String) (location : Location)
    (related? : Option Place := none) : Stop :=
  .failed (.fault ⟨problem, ⟨file, location⟩, related?⟩)

end Stop

/-- What must be there, or else a broken invariant. -/
def require (invariant : Invariant) : Option α → EStateM Stop σ α
  | some a => pure a
  | none => throw (.broken invariant)

end CobolCompiler
