import CobolCompiler.Number.Numeral

/-!
# Fixed-point numbers

A fixed-point number is an integer together with the number of digits it may have (`precision`)
and the number of those that stand after the point (`scale`). A literal on its own fixes all three:
its digit count, its fraction digit count and the integer its digits spell.
-/

namespace CobolCompiler.Number

/-- The most digits a fixed-point value may hold. -/
def maxDigits : Nat := 18

/-- Why a text does not give a fixed-point value. -/
inductive ValueError
  /-- More digits than the declared, or the greatest, precision. -/
  | tooBig
  /-- A minus sign where the picture has none. -/
  | badSign
  /-- Not a decimal literal, or not a picture. -/
  | malformed
  /-- More fraction digits than declared, where these are not cut off. -/
  | excessFraction
  deriving DecidableEq, Repr

/-- The wording of a value error. -/
def ValueError.message : ValueError → String
  | .tooBig => "value does not fit the declared precision"
  | .badSign => "negative value for an unsigned picture"
  | .malformed => "not a decimal number"
  | .excessFraction => "more fractional digits than the picture allows"

/-- The number `value / 10 ^ scale`, written with at most `precision` digits. -/
structure FixedPoint where
  precision : Nat
  scale : Nat
  value : Int
  deriving DecidableEq, Repr

namespace FixedPoint

/-- Zero, at a given precision and scale. -/
def zero (precision scale : Nat) : FixedPoint :=
  ⟨precision, scale, 0⟩

/-- The digits of the scaled value, with a minus sign in front of a negative one. -/
def digits (x : FixedPoint) : String :=
  toString x.value

/-- The form `digits@precision.scale`. -/
def text (x : FixedPoint) : String :=
  s!"{x.digits}@{x.precision}.{x.scale}"

end FixedPoint

/-- The numeral that a literal spells, or the reason why it spells none. -/
def readNumeral (literal : String) : Except ValueError Numeral :=
  match Numeral.parse? literal.toList with
  | some numeral => .ok numeral
  | none => .error .malformed

/-- Whether a literal is a decimal number of any length. -/
def isNumber (literal : String) : Bool :=
  (Numeral.parse? literal.toList).isSome

/-- The fixed-point value of a literal that stands on its own. -/
def FixedPoint.ofLiteral (literal : String) : Except ValueError FixedPoint := do
  let numeral ← readNumeral literal
  if numeral.digits.length > maxDigits then
    throw .tooBig
  return ⟨numeral.digits.length, numeral.fraction.length, numeral.value⟩

end CobolCompiler.Number
