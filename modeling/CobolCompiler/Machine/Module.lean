/-!
# Code modules

The output of a compilation is a module of stack-machine code: a pool of constants, the programs of
other modules it calls, and one prototype for each of its own programs.

A prototype runs in a frame of the operand stack. The arguments its caller supplied lie below the
frame and have negative indices, the first one -1; the other linkage fields are pushed on entry and
have the indices 0, 1, and so on. Stack effects are written `[before] -> [after]`, with the top on
the right.
-/

namespace CobolCompiler.Machine

/-- One instruction of the stack machine. -/
inductive Instruction
  /-- Push a constant of the module: `[...] -> [..., value]`. -/
  | load (constant : UInt16)
  /-- Push a working-storage field of the prototype: `[...] -> [..., value]`. -/
  | loadField (field : UInt16)
  /-- Pop into a working-storage field: `[..., value] -> [...]`. -/
  | store (field : UInt16)
  /-- Push a copy of a frame slot: `[...] -> [..., value]`. -/
  | push (slot : Int16)
  /-- Pop into a frame slot: `[..., value] -> [...]`. -/
  | replace (slot : Int16)
  /-- Drop the top of the stack: `[..., value] -> [...]`. -/
  | pop
  /-- Push a program of another module: `[...] -> [..., callable]`. -/
  | imported (index : UInt16)
  /-- Push a program of this module: `[...] -> [..., callable]`. -/
  | proto (index : UInt16)
  /-- Call the callable under `usings` arguments. The arguments stay, possibly modified, and the
  results come on top:
  `[..., callable, argN, ..., arg1] -> [..., callable, argN', ..., arg1', ret1, ..., retR]`. -/
  | call (usings returnings : UInt8)
  /-- Return to the caller. -/
  | ret
  deriving DecidableEq, Repr, Inhabited

/-- A constant, or the initial value of a field. -/
inductive Value
  /-- A double-precision number, by its bit pattern. -/
  | comp2 (bits : UInt64)
  /-- A fixed-point number: its digits, with a minus sign in front of a negative one, divided by ten
  to the scale. -/
  | comp4 (precision scale : UInt32) (digits : String)
  /-- A character string. -/
  | display (text : String)
  deriving DecidableEq, Repr, Inhabited

/-- A program of another module. -/
structure Import where
  /-- The name of the module it belongs to. -/
  owner : String
  program : String
  deriving DecidableEq, Repr, Inhabited

/-- One compiled program. -/
structure Prototype where
  /-- The name it can be called by from outside; none for a program that is not exported. -/
  name? : Option String
  usings : UInt8
  returnings : UInt8
  /-- The initial values of the working-storage fields. -/
  fields : Array Value
  code : Array Instruction
  deriving DecidableEq, Repr, Inhabited

/-- A compiled module. -/
structure Module where
  name : String
  constants : Array Value
  imports : Array Import
  prototypes : Array Prototype
  deriving DecidableEq, Repr, Inhabited

namespace Module

/-- A module with nothing in it. -/
def empty (name : String) : Module :=
  ⟨name, #[], #[], #[]⟩

/-- The exported prototypes. -/
def entries (m : Module) : List Prototype :=
  m.prototypes.toList.filter (·.name?.isSome)

/-- The first exported prototype of a name. -/
def entry? (m : Module) (name : String) : Option Prototype :=
  m.entries.find? (·.name? = some name)

end Module

end CobolCompiler.Machine
