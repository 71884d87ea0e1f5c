import CobolCompiler.Pass.Basic

/-!
# Call sites

The passes that find out what calls mean and whether they are right.

* `CallSite.lowerDisplay` turns a DISPLAY statement into calls of the system's program, one for each
  operand.
* `CallSite.resolve` binds calls to programs, and arguments and results to fields. It refuses a call
  that would write to one field twice.
* `CallSite.argumentTypes` notes the type of every argument.
* `CallSite.check` compares counts and types with the signature of the called program, and notes for
  each argument the usage of the parameter that takes it.
-/

namespace CobolCompiler.CallSite

/-! ### DISPLAY statements -/

/-- The module of the program that displays a value. -/
def displayModule : String := "SYSTEM"

/-- The program that displays a value. -/
def displayProgram : String := "DISPLAY"

/-- An operand as it is displayed: a field is passed by content. -/
def displayed (operand : Node) : Node :=
  match operand.payload with
  | .callUsingId name _ => { operand with payload := .callUsingId name true }
  | _ => operand

/-- The identities that a display call takes. -/
def displayIds : Nat := 5

/-- The call that displays one operand, with identities from a number on. It stands where the
statement stood. -/
def displayCall (next : Nat) (location : Location) (operand : Node) : Node :=
  let callId : Node :=
    ⟨next + 1, .callId, location,
      [⟨next + 2, .callIdModule displayModule, location, []⟩,
       ⟨next + 3, .callIdProgram displayProgram, location, []⟩]⟩
  let usings : Node := ⟨next + 4, .callUsings, Location.none, [displayed operand]⟩
  ⟨next, .callStatement, location, [callId, usings]⟩

/-- Replace a DISPLAY statement by its calls. The state is the next free identity. -/
def displayCalls : Rebuilder Stop Nat := fun n =>
  match n.payload with
  | .displayStatement => fun next =>
    .ok (n.children.mapIdx fun i operand => displayCall (next + displayIds * i) n.location operand)
      (next + displayIds * n.children.length)
  | _ => pure [n]

/-- Replace all DISPLAY statements by calls. -/
def lowerDisplay (root : Node) : RunM Node :=
  onPart (·.nextId) (fun nextId run => { run with nextId })
    (displayCalls.rebuildTree (fun count => .failed (.rootReplaced count)) root)

/-! ### Resolution -/

/-- What the call passes read. -/
structure Env where
  file : String
  globals : Globals
  chunk? : Option ChunkId

/-- What the call passes read of a run. -/
def Env.ofRun (run : Run) : Env :=
  ⟨run.file, run.globals, run.chunk?⟩

/-- The parts of a called program's name, with their places. -/
structure CalleeName where
  module? : Option (String × Location)
  program : String
  location : Location

/-- The name that a call gives. Of several parts of a kind the last counts; a call without program
name calls the program without name. -/
def calleeName (call : Node) : CalleeName :=
  let parts := ((call.child? .callId).map (·.children)).getD []
  let start : CalleeName := ⟨none, "", call.location⟩
  parts.foldl (fun name part =>
    match part.payload with
    | .callIdModule text => { name with module? := some (text, part.location) }
    | .callIdProgram text => { name with program := text, location := part.location }
    | _ => name) start

/-- The program that a call calls: one of the current file, or one that the named module exports. -/
def resolveCallee (env : Env) (call : Node) : EStateM Stop σ ProgramId := do
  let name := calleeName call
  let undefined (text : String) (location : Location) : Stop :=
    .fault (.undefined text) env.file location none
  match name.module? with
  | some (owner, location) =>
    match env.globals.module? owner with
    | none => throw (undefined owner location)
    | some id =>
      match env.globals.moduleProgram? id name.program with
      | some program => return program
      | none => throw (undefined name.program name.location)
  | none =>
    let chunk ← require .currentChunk env.chunk?
    match env.globals.chunkProgram? chunk name.program with
    | some program => return program
    | none => throw (undefined name.program name.location)

/-- The names that a call writes to, with their places: fields passed by reference, then results. -/
def writtenNames (call : Node) : List (String × Location) :=
  let usings := call.arguments.filterMap fun n =>
    match n.payload with
    | .callUsingId name false => some (name, n.location)
    | _ => none
  let returnings := call.returnings.filterMap fun n =>
    match n.payload with
    | .callReturningId name => some (name, n.location)
    | _ => none
  usings ++ returnings

/-- The first name that was there before, with its place and the place where it was before. -/
def repeated? (seen : Std.TreeMap String Location) :
    List (String × Location) → Option (String × Location × Location)
  | [] => none
  | (name, location) :: rest =>
    match seen[name]? with
    | some before => some (name, location, before)
    | none => repeated? (seen.insert name location) rest

/-- What resolution works on. -/
structure State where
  bindings : Bindings
  program? : Option ProgramId

/-- Resolve the program of a call. -/
def resolveCall (env : Env) (call : Node) : EStateM Stop State Unit := do
  let callee ← resolveCallee env call
  modify fun s => { s with bindings := s.bindings.bindCallee call callee }
  if let some (name, location, before) := repeated? ∅ (writtenNames call) then
    throw (.fault (.mutableArgumentRedefinition name) env.file location (some ⟨env.file, before⟩))

/-- Resolve the name of a field. Names in a call are those of the calling program. -/
def resolveField (env : Env) (name : String) (n : Node) : EStateM Stop State Unit := do
  match (← get).program?.bind fun program => (env.globals.program program).field? name with
  | some id => modify fun s => { s with bindings := s.bindings.bindField n id }
  | none => throw (.fault (.undefined name) env.file n.location none)

/-- The walk that resolves calls. -/
def resolver (env : Env) : Visitor Stop State where
  enter := fun n =>
    match n.payload with
    | .program => modify fun s => { s with program? := s.bindings.program? n }
    | .callStatement | .callExpression => resolveCall env n
    | .callUsingId name _ | .callReturningId name => resolveField env name n
    | _ => pure ()
  leave := fun n =>
    match n.payload with
    | .program => modify fun s => { s with program? := none }
    | _ => pure ()

/-- Resolve all calls. -/
def resolve : Node → RunM Node := Pass.ofWalk fun root => do
  let env := Env.ofRun (← get)
  onPart (fun run => ⟨run.bindings, run.memory.calling?⟩) (fun s run =>
    { run with bindings := s.bindings, memory := { run.memory with calling? := s.program? } })
    ((resolver env).visit root)

/-! ### Argument types -/

/-- The type of an argument. -/
def argumentType (env : Env) (argument : Node) : EStateM Stop Bindings ArgumentType := do
  match argument.payload with
  | .callUsingId _ _ =>
    let field ← require .boundField ((← get).field? argument)
    return .usage (env.globals.field field).type
  | .numberLiteral _ => return .numericLiteral
  | .stringLiteral _ => return .usage .display
  | .callExpression =>
    let callee ← require .boundCallee ((← get).callee? argument)
    let program := env.globals.program callee
    match program.returnings[0]? with
    | some first => return .usage (env.globals.field first).type
    | none =>
      throw (.fault (.expressionReturnsNothing program.name) env.file argument.location none)
  | other => throw (.fault (.unexpectedArgument other.tag.name) env.file argument.location none)

/-- Note the type of one argument. -/
def noteType (env : Env) (argument : Node) : EStateM Stop Bindings Unit := do
  let type ← argumentType env argument
  modify (·.setType argument type)

/-- Note the types of all arguments. -/
def argumentTypes : Node → RunM Node := Pass.ofWalk fun root => do
  let env := Env.ofRun (← get)
  let visitor : Visitor Stop Bindings :=
    { enter := fun n =>
        match n.payload with
        | .callUsings => n.children.forM (noteType env)
        | _ => pure () }
  onPart (·.bindings) (fun bindings run => { run with bindings }) (visitor.visit root)

/-! ### Signatures -/

/-- Check one argument against its parameter. -/
def checkArgument (env : Env) (home : String) (position : Nat) (argument : Node) (param : Field) :
    EStateM Stop Bindings Unit := do
  let found ← require .argumentType ((← get).type? argument)
  if !found.fits param.type then
    throw (.fault (.argumentTypeMismatch position param.type found) env.file argument.location
      (some ⟨home, param.location⟩))

/-- Check the field that takes a result. -/
def checkReturning (env : Env) (home : String) (position : Nat) (target : Node) (declared : Field) :
    EStateM Stop Bindings Unit := do
  let field ← require .boundField ((← get).field? target)
  let found := (env.globals.field field).type
  if !declared.type.accepts found then
    throw (.fault (.returningTypeMismatch position declared.type found) env.file target.location
      (some ⟨home, declared.location⟩))

/-- Nodes with the fields they are checked against, numbered from one. -/
def pairs (g : Globals) (nodes : List Node) (fields : Array FieldId) : List (Nat × Node × Field) :=
  (nodes.zip fields.toList).zipIdx.map fun ((n, id), i) => (i + 1, n, g.field id)

/-- Check a call against the signature of the program it calls: first the counts, then the types of
arguments, then those of results. -/
def checkCall (env : Env) (call : Node) : EStateM Stop Bindings Unit := do
  let callee ← require .boundCallee ((← get).callee? call)
  let program := env.globals.program callee
  let home := (env.globals.chunk program.owner).name
  let location := ((call.first? .callIdProgram).map (·.location)).getD call.location
  let arguments := call.arguments
  if arguments.length ≠ program.usings.size then
    throw (.fault (.usingCountMismatch program.name program.usings.size arguments.length) env.file
      location none)
  let returnings := call.returnings
  let requested := if call.is .callExpression then 1 else returnings.length
  if requested > program.returnings.size then
    throw (.fault (.returningCountMismatch program.name program.returnings.size requested) env.file
      location none)
  let params := pairs env.globals arguments program.usings
  params.forM fun (position, argument, param) => checkArgument env home position argument param
  (pairs env.globals returnings program.returnings).forM fun (position, target, declared) =>
    checkReturning env home position target declared
  params.forM fun (_, argument, param) => modify (·.setParam argument param.type)

/-- Check all calls. -/
def check : Node → RunM Node := Pass.ofWalk fun root => do
  let env := Env.ofRun (← get)
  let visitor : Visitor Stop Bindings :=
    { enter := fun n =>
        match n.payload with
        | .callStatement | .callExpression => checkCall env n
        | _ => pure () }
  onPart (·.bindings) (fun bindings run => { run with bindings }) (visitor.visit root)

end CobolCompiler.CallSite
