import CobolCompiler.Number.Binary64
import CobolCompiler.Pass.Basic

/-!
# Declarations

The passes that enter a file into the global scope.

* `Declaration.define` declares the module, the chunk of the file, its programs with their fields,
  and the parameters and results of each program. The clauses of a field are checked before it is
  declared.
* `Declaration.endMarkers` compares each end marker with the name of its program and drops it.
* `Declaration.usageTypes` looks up the usage of every field.
-/

namespace CobolCompiler.Declaration

open Number

/-! ### The clauses of a field -/

/-- A mistake, with the place of the node that holds it. -/
structure Mistake where
  problem : Problem
  location : Location
  deriving DecidableEq, Repr

/-- The clauses of a field declaration. -/
structure Clauses where
  name : String
  location : Location
  level? : Option (Nat × Location)
  usage : Usage
  /-- The picture, merged. -/
  picture? : Option (Picture × Location)
  default? : Option (DefaultValue × Location)

/-- The level a node holds. -/
def levelOf? (n : Node) : Option (Nat × Location) :=
  match n.payload with
  | .level number => some (number, n.location)
  | _ => none

/-- The usage a node holds. -/
def usageOf? (n : Node) : Option Usage :=
  match n.payload with
  | .usage usage => some usage
  | _ => none

/-- The picture a node holds, merged. -/
def pictureOf? (n : Node) : Option (Picture × Location) :=
  match n.payload with
  | .picture picture => some (picture.merge, n.location)
  | _ => none

/-- The default value a node holds. -/
def defaultOf? (n : Node) : Option (DefaultValue × Location) :=
  match n.payload with
  | .numberLiteral text => some (.number text, n.location)
  | .stringLiteral text => some (.string text, n.location)
  | _ => none

/-- The clauses of a field node; of each kind the first counts. -/
def Clauses.ofNode (n : Node) : Clauses where
  name := n.name
  location := n.nameLocation
  level? := n.children.findSome? levelOf?
  usage := (n.children.findSome? usageOf?).getD .display
  picture? := n.children.findSome? pictureOf?
  default? := n.children.findSome? defaultOf?

/-- Whether the level of a field is one that data items have. -/
def checkLevel (c : Clauses) : Except Mistake Unit :=
  match c.level? with
  | some (level, location) =>
    if 1 ≤ level && level ≤ 77 then .ok () else .error ⟨.badLevel level, location⟩
  | none => .ok ()

/-- The rules of a COMP-4 picture: a sign comes first or not at all, there is at most one point and
at most one place for a letter, and there are at most eighteen digits. -/
def checkPicture (name : String) (p : Picture) : Except Problem Unit :=
  if (p.drop 1).any (·.symbol = 'S') then .error (.badSignPicture name)
  else if p.count 'V' > 1 then .error (.manyVirtualDecimalPoint name)
  else if p.count 'X' + p.count 'A' > 1 then .error (.incompatibleComp4Picture name)
  else if p.count '9' > maxDigits then .error (.exceedComp4Precision name (p.count '9'))
  else .ok ()

/-- The places that the rules of a COMP-4 picture add up: those of the rule it breaks, or else its
digits. -/
def ruledPlaces (p : Picture) : Nat :=
  if (p.drop 1).any (·.symbol = 'S') then 0
  else if p.count 'V' > 1 then p.count 'V'
  else if p.count 'X' + p.count 'A' > 1 then p.count 'X' + p.count 'A'
  else p.count '9'

/-- Whether reading the clauses of a field adds up more places of its picture than a number of 32
bits can hold, where segments are joined or where the rules of a COMP-4 picture count. A field of a
wrong level is refused before that. -/
def overflows (c : Clauses) : Bool :=
  match checkLevel c, c.picture? with
  | .ok (), some (p, _) =>
    p.any (0x100000000 ≤ ·.size) || c.usage = .comp4 && 0x100000000 ≤ ruledPlaces p
  | _, _ => false

/-- Whether a text is a number that can be a COMP-2 default; blanks around it are not allowed. -/
def isFloatLiteral (text : String) : Bool :=
  isNumber text && Text.trim text.toList = text.toList

/-- A field of this usage has no picture. -/
def forbidPicture (c : Clauses) : Except Mistake Unit :=
  match c.picture? with
  | some (_, location) => .error ⟨.pictureNotAllowed c.name c.usage, location⟩
  | none => .ok ()

/-- The clauses of a COMP-2 field. -/
def checkComp2 (c : Clauses) : Except Mistake Unit := do
  forbidPicture c
  match c.default? with
  | some (.string _, location) => throw ⟨.badDefaultValue c.name "expected a number", location⟩
  | some (.number text, location) =>
    if !isFloatLiteral text then
      throw ⟨.badNumericLiteral text, location⟩
  | none => return

/-- The mistake behind a COMP-4 default that cannot be decoded. -/
def defaultProblem (name literal : String) : ValueError → Problem
  | .malformed => .badNumericLiteral literal
  | error => .badDefaultValue name error.message

/-- The default of a COMP-4 field, with where it stands. -/
def comp4Default (c : Clauses) : Except Mistake (Option (String × Location)) :=
  match c.default? with
  | some (.string _, location) => .error ⟨.badDefaultValue c.name "expected a number", location⟩
  | some (.number text, location) => .ok (some (text, location))
  | none => .ok none

/-- The clauses of a COMP-4 field, and how it is stored. -/
def checkComp4 (policy : FractionPolicy) (c : Clauses) : Except Mistake Comp4 := do
  if let some (picture, location) := c.picture? then
    (checkPicture c.name picture).mapError (⟨·, location⟩)
  let literal? ← comp4Default c
  let text := (literal?.map (·.1)).getD ""
  let location := (literal?.map (·.2)).getD c.location
  (Comp4.decode (c.picture?.map (·.1)) (literal?.map (·.1)) policy).mapError fun error =>
    ⟨defaultProblem c.name text error, location⟩

/-- The clauses of a DISPLAY field. -/
def checkDisplay (c : Clauses) : Except Mistake Unit :=
  match c.default? with
  | some (.number _, location) => .error ⟨.badDefaultValue c.name "expected a string", location⟩
  | _ => .ok ()

/-- The clauses of an ANY field. -/
def checkAny (home : Section) (c : Clauses) : Except Mistake Unit := do
  forbidPicture c
  if let some (_, location) := c.default? then
    throw ⟨.badDefaultValue c.name "ANY fields cannot have a default", location⟩
  if home = .workingStorage then
    throw ⟨.anyOutsideLinkage c.name, c.location⟩

/-- Check the clauses of a field against its usage. A COMP-4 field also gets its storage. -/
def checkUsage (policy : FractionPolicy) (home : Section) (c : Clauses) :
    Except Mistake (Option Comp4) := do
  match c.usage with
  | .comp2 => checkComp2 c; return none
  | .comp4 => return some (← checkComp4 policy c)
  | .display => checkDisplay c; return none
  | .any => checkAny home c; return none

/-- The field that a declaration declares. -/
def readField (policy : FractionPolicy) (home : Section) (n : Node) : Except Mistake Field := do
  let c := Clauses.ofNode n
  checkLevel c
  let comp4? ← checkUsage policy home c
  return { name := c.name, home, level := (c.level?.map (·.1)).getD 1, usage := c.usage,
           picture? := c.picture?.map (·.1), type? := none, location := c.location,
           default? := c.default?.map (·.1), comp4? }

/-! ### Declaring a file -/

/-- What declaring works on. -/
structure State where
  globals : Globals
  bindings : Bindings
  chunk? : Option ChunkId
  program? : Option ProgramId
  home? : Option Section

/-- A step of declaring. -/
abbrev DeclareM := EStateM Stop State

/-- Change the global scope, with an answer. -/
def onGlobals (change : Globals → α × Globals) : DeclareM α := fun s =>
  match s with
  | ⟨globals, bindings, chunk?, program?, home?⟩ =>
    let (a, globals) := change globals
    .ok a ⟨globals, bindings, chunk?, program?, home?⟩

/-- Declare the module of a file, and the chunk of the file in it. -/
def defineModule (file : String) (n : Node) : DeclareM Unit := do
  let owner ← onGlobals (·.addModule n.name)
  let chunk ← onGlobals (·.addChunk owner file)
  modify fun s => { s with chunk? := some chunk }

/-- An earlier program that keeps a new one from being declared: one of that name in the same file,
or an exported one of that name from another file. Compiling a file again replaces its own
exports. -/
def conflict? (g : Globals) (file : String) (chunk : ChunkId) (name : String) (exported : Bool) :
    Option Place :=
  match g.chunkProgram? chunk name with
  | some previous => some ⟨file, (g.program previous).location⟩
  | none =>
    if exported then
      match g.moduleProgram? (g.chunk chunk).owner name with
      | some previous =>
        let previous := g.program previous
        let home := (g.chunk previous.owner).name
        if home = file then none else some ⟨home, previous.location⟩
      | none => none
    else none

/-- Declare a program. -/
def defineProgram (file : String) (n : Node) : DeclareM Unit := do
  let chunk ← require .currentChunk (← get).chunk?
  let exported := (n.child? .exportMark).isSome
  if let some previous := conflict? (← get).globals file chunk n.name exported then
    throw (.fault (.redefinition n.name) file n.nameLocation (some previous))
  let id ← onGlobals (·.addProgram (ProgramScope.declare n.name chunk exported n.nameLocation))
  modify fun s =>
    { s with bindings := s.bindings.bindProgram n id, program? := some id, home? := none }

/-- The place of a field that already has a name. -/
def previousField? (g : Globals) (owner : ProgramId) (name : String) : Option Location :=
  ((g.program owner).field? name).map fun id => (g.field id).location

/-- Declare a field. -/
def defineField (file : String) (policy : FractionPolicy) (n : Node) : DeclareM Unit := do
  let owner ← require .enclosingProgram (← get).program?
  let home := (← get).home?.getD .workingStorage
  if overflows (Clauses.ofNode n) then
    throw (.broken .pictureSize)
  match readField policy home n with
  | .error mistake => throw (.fault mistake.problem file mistake.location none)
  | .ok field =>
    if let some previous := previousField? (← get).globals owner field.name then
      throw (.fault (.redefinition field.name) file field.location (some ⟨file, previous⟩))
    let id ← onGlobals (·.addField owner field)
    modify fun s => { s with bindings := s.bindings.bindField n id }

/-- The two lists of a procedure's signature. -/
inductive Signature
  | usings
  | returnings
  deriving DecidableEq, Repr

/-- Add a field to a program's signature. -/
def extendSignature (list : Signature) (id : FieldId) (p : ProgramScope) : ProgramScope :=
  match list with
  | .usings => { p with usings := p.usings.push id }
  | .returnings => { p with returnings := p.returnings.push id }

/-- The field that a name of a signature stands for, or what is wrong with it. -/
def signatureField (g : Globals) (owner : ProgramId) (file name : String) (location : Location) :
    Except Stop FieldId := do
  let program := g.program owner
  match program.field? name with
  | none => throw (.fault (.undefined name) file location none)
  | some id =>
    let field := g.field id
    if field.home ≠ .linkage then
      throw (.fault (.notInLinkageSection name) file location none)
    if field.default?.isSome then
      throw (.fault (.usingWithDefaultValue name) file location none)
    if program.usings.contains id || program.returnings.contains id then
      throw (.fault (.redefinition name) file location (some ⟨file, field.location⟩))
    return id

/-- Declare one parameter or result. -/
def defineParameter (file : String) (list : Signature) (owner : ProgramId) (n : Node) :
    DeclareM Unit := do
  match n.payload with
  | .identifier name =>
    match signatureField (← get).globals owner file name n.location with
    | .error stop => throw stop
    | .ok id =>
      onGlobals fun g => ((), g.modifyProgram owner (extendSignature list id))
      modify fun s => { s with bindings := s.bindings.bindField n id }
  | _ => return

/-- Declare the parameters or results of a procedure. -/
def defineParameters (file : String) (list : Signature) (n : Node) : DeclareM Unit := do
  let owner ← require .enclosingProgram (← get).program?
  n.children.forM (defineParameter file list owner)

/-- The walk that declares a file. -/
def definer (file : String) (policy : FractionPolicy) : Visitor Stop State where
  enter := fun n =>
    match n.payload with
    | .module => defineModule file n
    | .program => defineProgram file n
    | .workingStorageSection => modify fun s => { s with home? := some .workingStorage }
    | .linkageSection => modify fun s => { s with home? := some .linkage }
    | .field => defineField file policy n
    | .procedureUsings => defineParameters file .usings n
    | .procedureReturnings => defineParameters file .returnings n
    | _ => pure ()
  leave := fun n =>
    match n.payload with
    | .program => modify fun s => { s with program? := none, home? := none }
    | _ => pure ()

/-- Declare a file. -/
def define : Node → RunM Node := Pass.ofWalk fun root => do
  let run ← get
  onPart
    (fun run => ⟨run.globals, run.bindings, run.chunk?, run.memory.declaring?, run.memory.home?⟩)
    (fun s run => { run with
      globals := s.globals, bindings := s.bindings, chunk? := s.chunk?
      memory := { run.memory with declaring? := s.program?, home? := s.home? } })
    ((definer run.file run.options.policy).visit root)

/-! ### End markers -/

/-- The first end marker that names another program. -/
def badMarker? (n : Node) : Option (String × Location) :=
  n.children.findSome? fun c =>
    match c.payload with
    | .endProgram found => if found = n.name then none else some (found, c.location)
    | _ => none

/-- Check the end markers of a program and drop them. -/
def dropMarkers (file : String) : Rebuilder Stop Unit := fun n =>
  match n.payload with
  | .program =>
    match badMarker? n with
    | some (found, location) => throw (.fault (.endMarkerMismatch n.name found) file location none)
    | none => return [{ n with children := n.children.filter fun c => !c.is .endProgram }]
  | _ => return [n]

/-- Check and drop all end markers. -/
def endMarkers (root : Node) : RunM Node := do
  let file := (← get).file
  onPart (fun _ => ()) (fun _ run => run)
    ((dropMarkers file).rebuildTree (fun count => .failed (.rootReplaced count)) root)

/-! ### Usage types -/

/-- Look up the usage of a declared field, and note its type. -/
def attachType (file : String) (bindings : Bindings) (n : Node) : EStateM Stop Globals Unit := do
  match n.payload, bindings.field? n with
  | .field, some id =>
    let usage := ((← get).field id).usage
    match (← get).member? .global usage.tag with
    | some (.usage type) => modify (·.modifyField id fun f => { f with type? := some type })
    | _ => throw (.fault (.undefined usage.tag) file n.location none)
  | _, _ => return

/-- Look up the usages of all fields. -/
def usageTypes : Node → RunM Node := Pass.ofWalk fun root => do
  let run ← get
  let visitor : Visitor Stop Globals := { enter := attachType run.file run.bindings }
  onPart (·.globals) (fun globals run => { run with globals }) (visitor.visit root)

end CobolCompiler.Declaration
