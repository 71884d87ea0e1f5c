import CobolCompiler.Pass.Core

/-!
# Sessions

A session compiles one source file after another. What a file declares stays visible to the files
after it, also if its compilation fails; the passes keep their memory in the same way. The
declaration files of the system are read once, before the first compilation, and only count as read
when all of them were.

Source text is turned into trees by a parser, which is a parameter here.
-/

namespace CobolCompiler

open Machine

/-- Why a source text is not a tree. -/
structure ParseError where
  message : String
  location : Location
  deriving DecidableEq, Repr

/-- A parser: from the name of a source file, its text, and whether it is in free format. -/
abbrev Parser := String → List UInt8 → Bool → Except ParseError Node

/-- The state of a session. -/
structure Session where
  options : Options
  passes : List Pass
  globals : Globals
  memory : Memory
  /-- Whether the declaration files of the system were read. -/
  systemLoaded : Bool
  files : FileStore
  journal : Journal

/-- A step of a session. -/
abbrev SessionM := EStateM Stop Session

namespace Session

/-- What the names of declaration files end in. -/
def declarationEnding : String := ".d.cbl"

/-- A new session with the core passes. -/
def start (options : Options) (files : FileStore) : Session :=
  { options, passes := Pass.core, globals := Globals.initial, memory := default,
    systemLoaded := false, files, journal := #[] }

/-- Register more passes. -/
def addPasses (passes : List Pass) : SessionM Unit :=
  modify fun s => { s with passes := s.passes ++ passes }

/-- The passes in the order in which they run. -/
def ordered : SessionM (List Pass) := do
  let passes := (← get).passes
  match schedule (passes.map (·.wishes)) with
  | .ok order => return order.filterMap (passes[·]?)
  | .error e => throw (.failed (.schedule e))

/-- The names of the passes in the order in which they run. -/
def passOrder : SessionM (List String) := do
  return (← ordered).map (·.wishes.name)

/-- Have a source text parsed. The nodes of the tree get identities from zero on; the answer has the
first one that is free. -/
def parse (parser : Parser) (source : List UInt8) (name : String) : SessionM (Node × Nat) := do
  let freeFormat := (← get).options.freeFormat
  modify fun s => { s with journal := s.journal.push (.parsed name source freeFormat) }
  match parser name source freeFormat with
  | .ok root => return root.renumber 0
  | .error e => throw (.fault (.parse e.message) name e.location none)

/-- Begin a run on a source file. -/
def beginRun (s : Session) (name : String) (output? : Option String) (nextId : Nat) : Run :=
  { file := name, output?, options := s.options, globals := s.globals, bindings := Bindings.empty
    chunk? := none, product? := none, memory := s.memory, nextId, files := s.files,
    journal := s.journal }

/-- Take over what a run leaves behind. -/
def endRun (s : Session) (run : Run) : Session :=
  { s with
    globals := run.globals, memory := run.memory, files := run.files, journal := run.journal }

/-- Run passes over a source text. The answer is the module that came out, if one did. -/
def run (passes : List Pass) (parser : Parser) (source : List UInt8) (name : String)
    (output? : Option String) : SessionM (Option Module) := do
  let (root, nextId) ← parse parser source name
  fun s =>
    match runAll passes root (s.beginRun name output? nextId) with
    | .ok _ run => .ok run.product? (s.endRun run)
    | .error e run => .error e (s.endRun run)

/-- Declare what is in a source text, without compiling it. -/
def declareSource (parser : Parser) (source : List UInt8) (name : String) : SessionM Unit := do
  let passes ← ordered
  let _ ← run (passes.filter (·.declares)) parser source name none

/-- The content of a file. -/
def readFile (path : String) : SessionM (List UInt8) := do
  match (← get).files.read path with
  | .ok content => return content
  | .error e => throw (.failed (.file path e))

/-- Declare what is in a file. -/
def declareFile (parser : Parser) (path : String) : SessionM Unit := do
  let source ← readFile path
  declareSource parser source path

/-- Read the declaration files of the system, unless they were read before. -/
def loadSystem (parser : Parser) : SessionM Unit := do
  let s ← get
  if s.systemLoaded then return
  if let some directory := s.options.system? then
    match s.files.search directory declarationEnding with
    | .ok paths => paths.forM (declareFile parser)
    | .error e => throw (.failed (.walk e))
  modify fun s => { s with systemLoaded := true }

/-- Compile a source text. The module is also written to the output file, if there is to be one. -/
def compileSource (parser : Parser) (source : List UInt8) (name : String)
    (output? : Option String) : SessionM Module := do
  let passes ← ordered
  loadSystem parser
  match ← run passes parser source name output? with
  | some product => return product
  | none => throw (.failed (.noModule name))

/-- Compile a file. -/
def compileFile (parser : Parser) (path : String) (output? : Option String) : SessionM Module := do
  let source ← readFile path
  compileSource parser source path output?

end Session

end CobolCompiler
