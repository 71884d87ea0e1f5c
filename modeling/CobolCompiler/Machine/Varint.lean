/-!
# Variable-length numbers

Numbers in a module file are written in groups of seven bits, lowest first; every byte but the last
has its high bit set. A reader is told how many bytes the widest number of its kind needs. It
accepts padding with zero groups inside that limit, and refuses a number that does not end within it
or whose last permitted byte has bits beyond the width.

A signed number is written as an unsigned one with the sign in the lowest bit.
-/

namespace CobolCompiler.Machine

/-- Bytes in file order. -/
abbrev Bytes := List UInt8

/-- Why bytes are not a module. -/
inductive CodecError
  /-- The bytes end too early. -/
  | unexpectedEnd
  /-- A number does not end, or is too wide. -/
  | badVarint
  /-- A text is not valid UTF-8. -/
  | badUtf8
  /-- The mark of an optional value is neither 0 nor 1. -/
  | badOption
  /-- A number names no instruction, or no kind of value. -/
  | unknownVariant
  deriving DecidableEq, Repr

/-- The wording of a codec error. -/
def CodecError.message : CodecError → String
  | .unexpectedEnd => "Hit the end of buffer, expected more data"
  | .badVarint => "Found a varint that didn't terminate. Is the usize too big for this platform?"
  | .badUtf8 => "Tried to parse invalid utf-8"
  | .badOption => "Found an Option discriminant that wasn't 0 or 1"
  | .unknownVariant => "Serde Deserialization Error"

/-- A reader takes what it needs from the front of the bytes. -/
abbrev Reader := StateT Bytes (Except CodecError)

/-- Take one byte. -/
def readByte : Reader UInt8 := fun
  | [] => .error .unexpectedEnd
  | b :: rest => .ok (b, rest)

/-- Take a number of bytes. -/
def readBytes (count : Nat) : Reader Bytes := fun bytes =>
  if bytes.length < count then .error .unexpectedEnd
  else .ok (bytes.take count, bytes.drop count)

namespace Varint

/-- The groups of a number. -/
def encode (n : Nat) : Bytes :=
  if n < 128 then [n.toUInt8]
  else (n % 128 + 128).toUInt8 :: encode (n / 128)
termination_by n
decreasing_by omega

/-- How a kind of number is bounded: the most bytes it may take, and the greatest value of the last
permitted byte. -/
structure Width where
  bytes : Nat
  lastByte : Nat

/-- Numbers of 16 bits. -/
def w16 : Width := ⟨3, 3⟩

/-- Numbers of 32 bits. -/
def w32 : Width := ⟨5, 15⟩

/-- Numbers of 64 bits. -/
def w64 : Width := ⟨10, 1⟩

/-- Read groups, with a number of bytes left to read. -/
def decodeWithin (lastByte : Nat) : Nat → Reader Nat
  | 0 => throw .badVarint
  | left + 1 => do
    let b ← readByte
    if b.toNat < 128 then
      if left = 0 && b.toNat > lastByte then throw .badVarint
      return b.toNat
    let higher ← decodeWithin lastByte left
    return b.toNat - 128 + 128 * higher

/-- Read a number of a given width. -/
def decode (width : Width) : Reader Nat :=
  decodeWithin width.lastByte width.bytes

/-- The unsigned form of a signed number. -/
def zigzag (n : Int) : Nat :=
  if 0 ≤ n then 2 * n.toNat else 2 * (-n).toNat - 1

/-- The signed number of an unsigned form. -/
def unzigzag (n : Nat) : Int :=
  if n % 2 = 0 then (n / 2 : Nat) else -((n + 1) / 2 : Nat)

theorem unzigzag_zigzag (n : Int) : unzigzag (zigzag n) = n := by
  unfold zigzag unzigzag
  split <;> split <;> omega

end Varint

end CobolCompiler.Machine
