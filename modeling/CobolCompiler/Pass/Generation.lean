import CobolCompiler.Number.Binary64
import CobolCompiler.Pass.CallSite

/-!
# Code generation

A checked tree becomes a module, each program a prototype.

**Frames.** Working-storage fields belong to the prototype. Of the linkage fields, the parameters
lie below the frame where the caller put them; the results and then the others are pushed on entry,
each with its initial value.

**Calls.** A call pushes the callable and then its arguments, so that the first one ends up on top,
and issues the call instruction. The callee leaves the arguments in place and its results above
them. They are then taken off from the top: results go to their fields, arguments passed by
reference go back to theirs, other arguments are dropped, and last the callable is. A call that is
itself an argument asks for one result, which takes the place of its callable.

Arguments are reversed beforehand (`reverseArguments`), so that pushing them in the order of the
tree is right.
-/

namespace CobolCompiler.Generation

open Machine Number

/-! ### Argument order -/

/-- Reverse an argument list. -/
def reverseUsings : Rebuilder Stop Unit := fun n =>
  match n.payload with
  | .callUsings => pure [{ n with children := n.children.reverse }]
  | _ => pure [n]

/-- Reverse all argument lists. -/
def reverseArguments (root : Node) : RunM Node :=
  onPart (fun _ => ()) (fun _ run => run)
    (reverseUsings.rebuildTree (fun count => .failed (.rootReplaced count)) root)

/-! ### Values -/

/-- A fixed-point number as a value. -/
def fixedValue (x : FixedPoint) : Value :=
  .comp4 (UInt32.ofNat x.precision) (UInt32.ofNat x.scale) x.digits

/-- A number literal as a double-precision value, blanks around it ignored. -/
def floatValue? (text : String) : Option Value :=
  (Numeral.parse? text.toList).map fun n => .comp2 (Binary64.ofNumeral n)

/-- What a field starts out with. A COMP-4 field must have its storage. -/
def initialValue? (field : Field) : Option Value :=
  match field.type with
  | .comp2 =>
    match field.default? with
    | some (.number text) => some ((floatValue? text).getD (.comp2 Binary64.zero))
    | _ => some (.comp2 Binary64.zero)
  | .comp4 => field.comp4?.map fun c => fixedValue c.initialValue
  | .display =>
    match field.default? with
    | some (.string text) => some (.display text)
    | _ => some (.display "")
  | .any => some (.display "")

/-- A number literal as the value that a parameter of some usage takes. -/
def literalValue (param? : Option Usage) (text : String) : Except Problem Value :=
  match param? with
  | some .comp2 =>
    match floatValue? text with
    | some value => .ok value
    | none => .error (.badNumericLiteral text)
  | _ =>
    match FixedPoint.ofLiteral text with
    | .ok x => .ok (fixedValue x)
    | .error .tooBig => .error (.exceedLiteralPrecision text)
    | .error _ => .error (.badNumericLiteral text)

/-! ### Emitting code -/

/-- What generation reads. -/
structure Env extends CallSite.Env where
  bindings : Bindings

/-- A step of generation. -/
abbrev GenM := EStateM Stop Generator

/-- Use the assembler. -/
def assemble (step : AssembleM α) : GenM α := fun g =>
  match g with
  | ⟨assembler, pool, prototypes, slots, depth, calls, inProcedure, started⟩ =>
    match step assembler with
    | .ok a assembler =>
      .ok a ⟨assembler, pool, prototypes, slots, depth, calls, inProcedure, started⟩
    | .error e assembler =>
      .error (.failed (.assemble e))
        ⟨assembler, pool, prototypes, slots, depth, calls, inProcedure, started⟩

/-- Stop at a limit of the module format. -/
def limit (error : AssembleError) : Stop :=
  .failed (.assemble error)

/-- A frame index, if it has 16 bits. -/
def frameIndex (position : Nat) : GenM Int16 :=
  if position < 0x8000 then pure (Int16.ofNat position) else throw (limit .tooManySlots)

/-- A number of arguments, if it has 8 bits. -/
def argumentCount (n : Nat) : GenM UInt8 :=
  if n < 0x100 then pure (UInt8.ofNat n) else throw (limit .tooManyArguments)

/-- The index of a constant, which is added to the pool on its first use. -/
def intern (value : Value) : GenM UInt16 := do
  match (← get).pool[value]? with
  | some index => return index
  | none =>
    let index ← assemble (Assembler.addConstant value)
    modify fun g => { g with pool := g.pool.insert value index }
    return index

/-- Emit an instruction that leaves the depth of the stack alone. -/
def emit (instruction : Instruction) : GenM Unit :=
  assemble (Assembler.emit instruction)

/-- Emit an instruction that pushes an entry. -/
def emitPush (instruction : Instruction) : GenM Unit := do
  emit instruction
  modify fun g => { g with depth := g.depth + 1 }

/-- Emit an instruction that pops an entry. -/
def emitPop (instruction : Instruction) : GenM Unit := do
  emit instruction
  match (← get).depth with
  | 0 => throw (.broken .stackEntry)
  | depth + 1 => modify fun g => { g with depth }

/-- The place of a field. -/
def slotOf (field : FieldId) : GenM Slot := do
  require .slot (← get).slots[field]?

/-- Push the value of a field. -/
def load (field : FieldId) : GenM Unit := do
  match ← slotOf field with
  | .field index => emitPush (.loadField index)
  | .frame index => emitPush (.push index)

/-- Pop into a field. -/
def store (field : FieldId) : GenM Unit := do
  match ← slotOf field with
  | .field index => emitPop (.store index)
  | .frame index => emitPop (.replace index)

/-- Push a constant. -/
def pushConstant (value : Value) : GenM Unit := do
  let index ← intern value
  emitPush (.load index)

/-! ### Modules and programs -/

/-- Number the programs of a file, for calls between them. -/
def indexPrograms (programs : List ProgramId) : GenM Unit :=
  programs.zipIdx.forM fun (program, index) => do
    if index < Assembler.room then
      modify fun g => { g with prototypes := g.prototypes.insert program (UInt16.ofNat index) }
    else throw (limit .tooManyPrototypes)

/-- Begin the module of a file. -/
def beginModule (env : Env) (n : Node) : GenM Unit := do
  assemble (Assembler.begin n.name)
  modify fun g => { g with pool := ∅, prototypes := ∅, started := true }
  let chunk ← require .currentChunk env.chunk?
  indexPrograms (env.globals.chunk chunk).programs.toList

/-- Give a working-storage field its place in the prototype, or a linkage field the constant it
starts with. The linkage constants are collected. -/
def placeField (env : Env) (linkage : Std.TreeMap FieldId UInt16) (id : FieldId) :
    GenM (Std.TreeMap FieldId UInt16) := do
  let field := env.globals.field id
  let value ← require .comp4Storage (initialValue? field)
  match field.home with
  | .workingStorage =>
    let index ← assemble (Assembler.addField value)
    modify fun g => { g with slots := g.slots.insert id (.field index) }
    return linkage
  | .linkage =>
    let index ← intern value
    return linkage.insert id index

/-- Give the parameters their places below the frame, the first one nearest to it. -/
def placeUsings (usings : List FieldId) : GenM Unit :=
  usings.zipIdx.forM fun (id, position) => do
    let index ← frameIndex (position + 1)
    modify fun g => { g with slots := g.slots.insert id (.frame (-index)) }

/-- The linkage fields that are pushed on entry: the results, then all that are not parameters. -/
def localFields (program : ProgramScope) (linkage : Std.TreeMap FieldId UInt16) : List FieldId :=
  program.returnings.toList ++ program.fields.toList.filter fun id =>
    linkage.contains id && !program.usings.contains id && !program.returnings.contains id

/-- Push a linkage field with its initial value. -/
def placeLocal (linkage : Std.TreeMap FieldId UInt16) (id : FieldId) : GenM Unit := do
  let constant ← require .linkageConstant linkage[id]?
  emit (.load constant)
  let index ← frameIndex (← get).depth
  modify fun g => { g with slots := g.slots.insert id (.frame index), depth := g.depth + 1 }

/-- Open the prototype of a program and lay out its frame. -/
def openProgram (env : Env) (n : Node) : GenM Unit := do
  let id ← require .boundProgram (env.bindings.program? n)
  let program := env.globals.program id
  let usings ← argumentCount program.usings.size
  let returnings ← argumentCount program.returnings.size
  let name? := if program.exported then some program.name else none
  let _ ← assemble (Assembler.openPrototype name? usings returnings)
  modify fun g => { g with slots := ∅, calls := [], depth := 0, inProcedure := false }
  let linkage ← program.fields.toList.foldlM (placeField env) ∅
  placeUsings program.usings.toList
  (localFields program linkage).forM (placeLocal linkage)

/-- Assert that the open prototype is the one by which calls know the program. -/
def assertOrder (env : Env) (n : Node) : GenM Unit := do
  let g ← get
  if ((env.bindings.program? n).bind (g.prototypes[·]?)).map (·.toNat) ≠ g.assembler.open? then
    throw (.broken .programOrder)

/-- Close the prototype of a program; it always ends by returning. -/
def closeProgram : GenM Unit := do
  if (← get).assembler.last? ≠ some .ret then
    emit .ret
  assemble Assembler.close
  modify fun g => { g with inProcedure := false }

/-! ### Calls -/

/-- The field that a reference stands for. -/
def boundField (env : Env) (n : Node) : GenM FieldId :=
  require .boundField (env.bindings.field? n)

/-- Whether a call names the module of its program. -/
def isQualified (call : Node) : Bool :=
  ((call.child? .callId).bind (·.child? .callIdModule)).isSome

/-- The instruction that pushes the program of a call. -/
def callableOf (env : Env) (call : Node) : GenM Instruction := do
  let callee ← require .boundCallee (env.bindings.callee? call)
  if isQualified call then
    let program := env.globals.program callee
    let owner := env.globals.module (env.globals.chunk program.owner).owner
    return .imported (← assemble (Assembler.addImport owner.name program.name))
  else
    return .proto (← require .prototype (← get).prototypes[callee]?)

/-- Push the program of a call. -/
def pushCallable (env : Env) (call : Node) : GenM Unit := do
  let instruction ← callableOf env call
  modify fun g => { g with calls := g.depth :: g.calls }
  emitPush instruction

/-- Push a number literal as its parameter takes it. -/
def pushNumber (env : Env) (n : Node) (text : String) : GenM Unit := do
  match literalValue (env.bindings.param? n) text with
  | .ok value => pushConstant value
  | .error problem => throw (.fault problem env.file n.location none)

/-- Issue a call. -/
def emitCall (usings returnings : Nat) : GenM Unit := do
  emit (.call (← argumentCount usings) (← argumentCount returnings))
  modify fun g => { g with depth := g.depth + returnings }

/-- Take an argument off the stack: back to its field if it was passed by reference. -/
def takeBack (env : Env) (argument : Node) : GenM Unit := do
  match argument.payload with
  | .callUsingId _ false => store (← boundField env argument)
  | _ => emitPop .pop

/-- Finish a call statement. -/
def finishStatement (env : Env) (call : Node) : GenM Unit := do
  let arguments := call.arguments
  let returnings := call.returnings
  emitCall arguments.length returnings.length
  returnings.reverse.forM fun target => do store (← boundField env target)
  arguments.reverse.forM (takeBack env)
  modify fun g => { g with calls := g.calls.drop 1 }
  emitPop .pop

/-- Finish a call that is an argument: its result takes the place of its callable. -/
def finishExpression (env : Env) (call : Node) : GenM Unit := do
  let arguments := call.arguments
  emitCall arguments.length 1
  let callable ← require .callable (← get).calls.head?
  modify fun g => { g with calls := g.calls.drop 1 }
  emitPop (.replace (← frameIndex callable))
  arguments.reverse.forM (takeBack env)

/-! ### The walk -/

/-- Push a literal if it is an argument. -/
def ifInProcedure (step : GenM Unit) : GenM Unit := do
  if (← get).inProcedure then step

/-- The walk that generates code. -/
def visitor (env : Env) : Visitor Stop Generator where
  enter := fun n =>
    match n.payload with
    | .module => beginModule env n
    | .program => do
      openProgram env n
      assertOrder env n
    | .procedureDivision => modify fun g => { g with inProcedure := true }
    | .callStatement | .callExpression => pushCallable env n
    | .callUsingId _ _ => do load (← boundField env n)
    | .numberLiteral text => ifInProcedure (pushNumber env n text)
    | .stringLiteral text => ifInProcedure (pushConstant (.display text))
    | .gobackStatement => emit .ret
    | _ => pure ()
  leave := fun n =>
    match n.payload with
    | .callStatement => finishStatement env n
    | .callExpression => finishExpression env n
    | .program => closeProgram
    | _ => pure ()

/-- Change the generator of a run. -/
def onGenerator (step : GenM α) : RunM α :=
  onPart (·.memory.generator)
    (fun generator run => { run with memory := { run.memory with generator } }) step

/-- Write what is assembled to the output file, if there is to be one. -/
def writeOutput : RunM Unit := do
  let run ← get
  if let some path := run.output? then
    match run.files.write path run.memory.generator.assembler.built.toBytes with
    | .ok files => modify fun run => { run with files }
    | .error e => throw (.failed (.file path e))

/-- Forget what belongs to one module. -/
def forget (g : Generator) : Generator :=
  { g with pool := ∅, prototypes := ∅, slots := ∅, calls := [], depth := 0 }

/-- Hand over the module that was begun, if one was. -/
def finish : RunM Unit := do
  if (← get).memory.generator.started then
    onGenerator (modify fun g => { g with started := false })
    writeOutput
    let product ← onGenerator (assemble Assembler.finish)
    modify fun run => { run with product? := some product }
    onGenerator (modify forget)

/-- Generate the module of a file. -/
def generate : Node → RunM Node := Pass.ofWalk fun root => do
  let run ← get
  let env : Env := { CallSite.Env.ofRun run with bindings := run.bindings }
  onGenerator ((visitor env).visit root)
  finish

end CobolCompiler.Generation
