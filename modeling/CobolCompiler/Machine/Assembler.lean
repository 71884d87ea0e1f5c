import CobolCompiler.Machine.Module

/-!
# The assembler

A module is assembled by appending: constants, imports, prototypes, and fields and instructions of
the prototype that is open. Every append answers with the index of what it added, and an index once
given out stays valid until the module is finished or a new one begun. Indices have 16 bits, so each
list has room for 65536 items; an append that finds no room, or no open prototype, changes nothing.
-/

namespace CobolCompiler.Machine

/-- A limit of the module format, or a missing prototype. -/
inductive AssembleError
  | tooManyConstants
  | tooManyFields
  | tooManyImports
  | tooManyPrototypes
  | tooManyArguments
  | tooManySlots
  | noOpenPrototype
  deriving DecidableEq, Repr

/-- The wording of an assembly error. -/
def AssembleError.message : AssembleError → String
  | .tooManyConstants => "Too many constants (limit: 65536)"
  | .tooManyFields => "Too many working-storage fields (limit: 65536)"
  | .tooManyImports => "Too many imports (limit: 65536)"
  | .tooManyPrototypes => "Too many programs (limit: 65536)"
  | .tooManyArguments => "Too many call arguments (limit: 255)"
  | .tooManySlots => "Too many linkage fields (limit: 32767)"
  | .noOpenPrototype => "No prototype is open"

/-- A module under construction. -/
structure Assembler where
  /-- What has been assembled so far. -/
  built : Module
  /-- The prototype that fields and instructions go to. -/
  open? : Option Nat
  deriving DecidableEq, Repr, Inhabited

/-- An operation of the assembler. It answers with the assembler it leaves, also if it fails. -/
abbrev AssembleM := EStateM AssembleError Assembler

namespace Assembler

/-- The room of a list whose indices have 16 bits. -/
def room : Nat := 65536

/-- Nothing assembled. -/
def empty : Assembler :=
  ⟨Module.empty "", none⟩

/-- Begin a module, dropping whatever was assembled. -/
def begin (name : String) : AssembleM Unit :=
  fun _ => .ok () ⟨Module.empty name, none⟩

/-- Append to a list that may be full. -/
def append (size : Module → Nat) (full : AssembleError) (change : Module → Module) :
    AssembleM UInt16 :=
  fun a =>
    let index := size a.built
    if index < room then .ok (UInt16.ofNat index) { a with built := change a.built }
    else .error full a

/-- Open a new prototype. -/
def openPrototype (name? : Option String) (usings returnings : UInt8) : AssembleM UInt16 := do
  let index ← append (·.prototypes.size) .tooManyPrototypes fun m =>
    { m with prototypes := m.prototypes.push ⟨name?, usings, returnings, #[], #[]⟩ }
  modify fun a => { a with open? := some index.toNat }
  return index

/-- Close the open prototype. -/
def close : AssembleM Unit :=
  modify fun a => { a with open? := none }

/-- The open prototype. -/
def current? (a : Assembler) : Option Prototype := do
  a.built.prototypes[← a.open?]?

/-- Change a prototype of a module. -/
def modifyPrototype (index : Nat) (change : Prototype → Prototype) (m : Module) : Module :=
  { m with prototypes := m.prototypes.modify index change }

/-- The index of the open prototype. -/
def opened : AssembleM Nat :=
  fun a => match a.open? with
    | some index => .ok index a
    | none => .error .noOpenPrototype a

/-- Add a working-storage field to the open prototype. -/
def addField (value : Value) : AssembleM UInt16 := do
  let prototype ← opened
  append (fun m => (m.prototypes.getD prototype default).fields.size) .tooManyFields
    (modifyPrototype prototype fun p => { p with fields := p.fields.push value })

/-- Add a constant to the pool. Equal constants are kept apart. -/
def addConstant (value : Value) : AssembleM UInt16 :=
  append (·.constants.size) .tooManyConstants fun m =>
    { m with constants := m.constants.push value }

/-- The index of an imported program, added on its first use. -/
def addImport (owner program : String) : AssembleM UInt16 := do
  match (← get).built.imports.findIdx? (· = ⟨owner, program⟩) with
  | some index => return UInt16.ofNat index
  | none => append (·.imports.size) .tooManyImports fun m =>
      { m with imports := m.imports.push ⟨owner, program⟩ }

/-- Append an instruction to the open prototype. -/
def emit (instruction : Instruction) : AssembleM Unit := do
  let prototype ← opened
  modify fun a => { a with
    built :=
      modifyPrototype prototype (fun p => { p with code := p.code.push instruction }) a.built }

/-- The last instruction of the open prototype. -/
def last? (a : Assembler) : Option Instruction := do
  (← a.current?).code.back?

/-- Hand over the finished module and start afresh. -/
def finish : AssembleM Module :=
  fun a => .ok a.built empty

end Assembler

end CobolCompiler.Machine
