import CobolCompiler.Machine.Module
import CobolCompiler.Number.Shortest
import CobolCompiler.Text.Quoted

/-!
# Listings

The readable form of a code module: its constants, its imports, and each prototype with its fields
and its numbered instructions.
-/

namespace CobolCompiler.Machine

open Number Text

/-- The written form of an instruction. -/
def Instruction.text : Instruction → String
  | .load i => s!"LOAD {i.toNat}"
  | .loadField i => s!"LOAD_FIELD {i.toNat}"
  | .store i => s!"STORE {i.toNat}"
  | .push i => s!"PUSH {i.toInt}"
  | .replace i => s!"REPLACE {i.toInt}"
  | .pop => "POP"
  | .imported i => s!"IMPORT {i.toNat}"
  | .proto i => s!"PROTO {i.toNat}"
  | .call usings returnings => s!"CALL {usings.toNat} {returnings.toNat}"
  | .ret => "RETURN"

/-- The written form of a value. -/
def Value.text : Value → String
  | .comp2 bits => s!"COMP-2 {Binary64.text bits}"
  | .comp4 precision scale digits => s!"COMP-4 {digits}@{precision.toNat}.{scale.toNat}"
  | .display text => s!"DISPLAY {quoted text}"

/-- A number filled up with spaces on the left to a given width. -/
def rightAligned (width n : Nat) : String :=
  let digits := Nat.toDigits 10 n
  String.ofList (List.replicate (width - digits.length) ' ' ++ digits)

namespace Module

/-- Number the items of an array from zero and write a line for each. -/
def numbered (items : Array α) (line : Nat → α → String) : List String :=
  items.toList.zipIdx.map fun (item, i) => line i item

/-- The lines of the constant pool. -/
def constantLines (m : Module) : List String :=
  if m.constants.isEmpty then ["  constants: []"]
  else "  constants: [" :: numbered m.constants (fun i v => s!"    [{i}] = {v.text}") ++ ["  ]"]

/-- The lines of one prototype. -/
def prototypeLines (index : Nat) (p : Prototype) : List String :=
  let name := p.name?.getD "<anonymous>"
  s!"  proto [{index}] {name} ({p.usings.toNat} -> {p.returnings.toNat}) \x7b"
    :: numbered p.fields (fun i v => s!"    field [{i}] = {v.text}")
    ++ numbered p.code (fun i x => s!"    {rightAligned 4 i}  {x.text}")
    ++ ["  \x7d"]

/-- The lines of a module's listing. -/
def lines (m : Module) : List String :=
  s!"Module {m.name} \x7b"
    :: m.constantLines
    ++ numbered m.imports (fun i x => s!"  import [{i}] = {x.owner}.{x.program}")
    ++ (m.prototypes.toList.zipIdx.flatMap fun (p, i) => prototypeLines i p)
    ++ ["\x7d"]

/-- The listing of a module. -/
def listing (m : Module) : String :=
  "\n".intercalate m.lines

end Module

end CobolCompiler.Machine
