import CobolCompiler.Machine.Module
import CobolCompiler.Machine.Varint

/-!
# Module files

The byte format of a code module. Texts and lists are written with their length in front, variants
by their number, optional values behind a mark, floating-point patterns in eight bytes with the
lowest first. Bytes after the module are ignored when one is read.
-/

namespace CobolCompiler.Machine

/-! ### Writing -/

namespace Encode

/-- A text: its length in bytes, then its bytes. -/
def text (s : String) : Bytes :=
  Varint.encode s.utf8ByteSize ++ s.toUTF8.data.toList

/-- A list: its length, then its items. -/
def list (item : α → Bytes) (items : Array α) : Bytes :=
  Varint.encode items.size ++ items.toList.flatMap item

/-- An optional text: a mark, then the text if there is one. -/
def optionalText : Option String → Bytes
  | none => [0]
  | some s => 1 :: text s

/-- The eight bytes of a pattern, lowest first. -/
def pattern (bits : UInt64) : Bytes :=
  (List.range 8).map fun i => (bits.toNat >>> (8 * i)).toUInt8

/-- An instruction: its number, then its operands. -/
def instruction : Instruction → Bytes
  | .load i => 0 :: Varint.encode i.toNat
  | .loadField i => 1 :: Varint.encode i.toNat
  | .store i => 2 :: Varint.encode i.toNat
  | .push i => 3 :: Varint.encode (Varint.zigzag i.toInt)
  | .replace i => 4 :: Varint.encode (Varint.zigzag i.toInt)
  | .pop => [5]
  | .imported i => 6 :: Varint.encode i.toNat
  | .proto i => 7 :: Varint.encode i.toNat
  | .call usings returnings => [8, usings, returnings]
  | .ret => [9]

/-- A value: its kind, then its parts. -/
def value : Value → Bytes
  | .comp2 bits => 0 :: pattern bits
  | .comp4 precision scale digits =>
    1 :: Varint.encode precision.toNat ++ Varint.encode scale.toNat ++ text digits
  | .display s => 2 :: text s

/-- An imported program. -/
def imported (i : Import) : Bytes :=
  text i.owner ++ text i.program

/-- A prototype. -/
def prototype (p : Prototype) : Bytes :=
  optionalText p.name? ++ [p.usings, p.returnings] ++ list value p.fields ++ list instruction p.code

end Encode

/-- The bytes of a module. -/
def Module.toBytes (m : Module) : Bytes :=
  Encode.text m.name ++ Encode.list Encode.value m.constants
    ++ Encode.list Encode.imported m.imports ++ Encode.list Encode.prototype m.prototypes

/-! ### Reading -/

namespace Decode

/-- A text. -/
def text : Reader String := do
  let length ← Varint.decode Varint.w64
  let bytes ← readBytes length
  match String.fromUTF8? ⟨bytes.toArray⟩ with
  | some s => return s
  | none => throw .badUtf8

/-- A number of items, after those already read. -/
def items (item : Reader α) (done : Array α) : Nat → Reader (Array α)
  | 0 => return done
  | left + 1 => do
    let a ← item
    items item (done.push a) left

/-- A list. -/
def list (item : Reader α) : Reader (Array α) := do
  let length ← Varint.decode Varint.w64
  items item #[] length

/-- An optional text. -/
def optionalText : Reader (Option String) := do
  match ← readByte with
  | 0 => return none
  | 1 => return some (← text)
  | _ => throw .badOption

/-- Eight bytes of a pattern. -/
def pattern : Reader UInt64 := do
  let bytes ← readBytes 8
  return UInt64.ofNat (bytes.foldr (fun b n => b.toNat + 256 * n) 0)

/-- An index of 16 bits. -/
def index : Reader UInt16 := do
  return UInt16.ofNat (← Varint.decode Varint.w16)

/-- A frame slot. -/
def slot : Reader Int16 := do
  return Int16.ofInt (Varint.unzigzag (← Varint.decode Varint.w16))

/-- An instruction. -/
def instruction : Reader Instruction := do
  match ← Varint.decode Varint.w32 with
  | 0 => return .load (← index)
  | 1 => return .loadField (← index)
  | 2 => return .store (← index)
  | 3 => return .push (← slot)
  | 4 => return .replace (← slot)
  | 5 => return .pop
  | 6 => return .imported (← index)
  | 7 => return .proto (← index)
  | 8 =>
    let usings ← readByte
    let returnings ← readByte
    return .call usings returnings
  | 9 => return .ret
  | _ => throw .unknownVariant

/-- A value. -/
def value : Reader Value := do
  match ← Varint.decode Varint.w32 with
  | 0 => return .comp2 (← pattern)
  | 1 =>
    let precision ← Varint.decode Varint.w32
    let scale ← Varint.decode Varint.w32
    return .comp4 (UInt32.ofNat precision) (UInt32.ofNat scale) (← text)
  | 2 => return .display (← text)
  | _ => throw .unknownVariant

/-- An imported program. -/
def imported : Reader Import := do
  let owner ← text
  return ⟨owner, ← text⟩

/-- A prototype. -/
def prototype : Reader Prototype := do
  let name? ← optionalText
  let usings ← readByte
  let returnings ← readByte
  let fields ← list value
  return ⟨name?, usings, returnings, fields, ← list instruction⟩

/-- A module. -/
def moduleFile : Reader Module := do
  let name ← text
  let constants ← list value
  let imports ← list imported
  return ⟨name, constants, imports, ← list prototype⟩

end Decode

/-- The module that bytes start with. -/
def Module.ofBytes (bytes : Bytes) : Except CodecError Module := do
  return (← Decode.moduleFile.run bytes).1

end CobolCompiler.Machine
