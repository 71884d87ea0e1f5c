import CobolCompiler.Failure
import CobolCompiler.Machine.Codec
import CobolCompiler.Machine.ValueOrder
import CobolCompiler.Options
import CobolCompiler.Pass.Bindings
import CobolCompiler.Pass.Probe

/-!
# Passes

A compilation is a run of passes over one tree. A pass takes the tree and a run, and answers with
the tree for the next pass. The run holds what the passes share: the symbols, the bindings, the
module that comes out; and the memory of the passes, which they carry from one compilation to the
next.

A pass that needs only a part of the run is written on that part and put to work by `onPart`, so
that its type says what it leaves alone.
-/

namespace CobolCompiler

open Machine

/-- Where a field lives at run time. -/
inductive Slot
  /-- A working-storage field of the prototype. -/
  | field (index : UInt16)
  /-- An operand stack entry, relative to the frame. -/
  | frame (index : Int16)
  deriving DecidableEq, Repr

/-- Code under construction. -/
structure Generator where
  assembler : Assembler
  /-- The index of every constant of the module. -/
  pool : Std.TreeMap Value UInt16
  /-- The prototype of every program of the file. -/
  prototypes : Std.TreeMap ProgramId UInt16
  /-- The place of every field of the current program. -/
  slots : Std.TreeMap FieldId Slot
  /-- The number of entries on the operand stack above the frame. -/
  depth : Nat
  /-- The entries of the callables of the calls around this point, innermost first. -/
  calls : List Nat
  /-- Whether literals are arguments; outside of procedures they are clauses of fields. -/
  inProcedure : Bool
  /-- Whether a module was begun and not yet handed over. -/
  started : Bool

instance : Inhabited Generator := ⟨⟨Assembler.empty, ∅, ∅, ∅, 0, [], false, false⟩⟩

/-- What the passes remember from one compilation to the next. -/
structure Memory where
  /-- The program whose declarations are being read. -/
  declaring? : Option ProgramId
  /-- The section whose fields are being read. -/
  home? : Option Section
  /-- The program whose calls are being resolved. -/
  calling? : Option ProgramId
  generator : Generator
  deriving Inhabited

/-- One compilation. -/
structure Run where
  /-- The name of the source file, which is also the name of its chunk. -/
  file : String
  /-- Where the module is to be written. -/
  output? : Option String
  options : Options
  globals : Globals
  bindings : Bindings
  /-- The chunk of the file, once its module is declared. -/
  chunk? : Option ChunkId
  /-- The module, once it is generated. -/
  product? : Option Module
  memory : Memory
  /-- The next free node identity. It has no bound here; a counter of 32 bits would start over after
  2^32 nodes. -/
  nextId : Nat
  files : FileStore
  journal : Journal

/-- A step of a run. -/
abbrev RunM := EStateM Stop Run

/-- Run a step that works on a part of the run only. -/
def onPart (part : Run → σ) (put : σ → Run → Run) (step : EStateM Stop σ α) : RunM α := fun run =>
  match step (part run) with
  | .ok a s => .ok a (put s run)
  | .error e s => .error e (put s run)

/-- A pass of the compiler. -/
structure Pass where
  /-- Its name and its place among the others. -/
  wishes : Wishes
  /-- Whether it runs on declaration files too. -/
  declares : Bool
  action : Node → RunM Node

/-- Run passes one after another, each on the tree that the one before it leaves. -/
def runAll (passes : List Pass) (root : Node) : RunM Node :=
  passes.foldlM (fun root pass => pass.action root) root

namespace Pass

/-- A pass that looks at the tree and keeps it. -/
def ofWalk (walk : Node → RunM Unit) (root : Node) : RunM Node := do
  walk root
  return root

/-- The pass that a probe makes. It stops with a fault at the node. -/
def ofProbe (probe : Probe) : Node → RunM Node := ofWalk fun root => do
  let run ← get
  let stop (m : Moment) (n : Node) : Stop :=
    match m with
    | .enter => .fault (.undefined probe.tag) run.file n.location none
    | .leave =>
      .fault (.redefinition probe.tag) run.file n.location (some ⟨run.file, n.nameLocation⟩)
  let describe := run.bindings.describe? run.globals
  onPart (·.journal) (fun journal run => { run with journal })
    ((probe.visitor describe stop).visit root)

/-- The pass that an edit makes. -/
def ofEdit (edit : Edit) (root : Node) : RunM Node :=
  onPart (fun run => ⟨run.nextId, run.journal⟩)
    (fun s run => { run with nextId := s.nextId, journal := s.journal }) do
      let root ← edit.rebuilder.rebuildTree (fun count => .failed (.rootReplaced count)) root
      edit.finish
      return root

/-- A pass of probes and edits, which run in this order. -/
def ofParts (wishes : Wishes) (declares : Bool) (probes : List Probe) (edits : List Edit) :
    Pass where
  wishes := wishes
  declares := declares
  action := fun root => do
    let root ← probes.foldlM (fun root probe => ofProbe probe root) root
    edits.foldlM (fun root edit => ofEdit edit root) root

end Pass

end CobolCompiler
