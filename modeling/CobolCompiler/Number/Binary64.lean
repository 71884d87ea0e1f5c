import CobolCompiler.Number.Numeral

/-!
# Double-precision numbers

A COMP-2 value is a binary floating-point number of 64 bits, and is held as its bit pattern: two
values are the same exactly when their patterns are. A decimal numeral is rounded to the nearest
representable number, a tie to the one with even significand; what exceeds the greatest finite
number is infinite.
-/

namespace CobolCompiler.Number

/-- A quotient rounded to the nearest whole number, a half to the even neighbour. -/
def roundDiv (num den : Nat) : Nat :=
  let quotient := num / den
  let rest := num % den
  if 2 * rest > den || (2 * rest = den && quotient % 2 = 1) then quotient + 1 else quotient

/-- The two parts of `x * 2 ^ shift` as a fraction, for a shift in either direction. -/
def shiftRatio (num den : Nat) (shift : Int) : Nat × Nat :=
  (num <<< shift.toNat, den <<< (-shift).toNat)

namespace Binary64

/-- The pattern of positive infinity. -/
def infinity : Nat := 0x7FF <<< 52

/-- The exponent of the last place of the significand of `num / den`, never below the smallest
one. -/
def lastPlace (num den : Nat) : Int :=
  let guess : Int := (num.log2 : Int) - den.log2 - 53
  let (a, b) := shiftRatio num den (-guess)
  max (-1074) (if a / b ≥ 1 <<< 53 then guess + 1 else guess)

/-- The pattern of the representable number nearest to `num / den`. A significand that rounding
carries into the next power of two moves on to the next exponent by itself. -/
def ofRatio (num den : Nat) : Nat :=
  if num = 0 then 0
  else
    let exponent := lastPlace num den
    let (a, b) := shiftRatio num den (-exponent)
    min infinity (((exponent + 1074).toNat <<< 52) + roundDiv a b)

/-- The pattern of the number a decimal numeral denotes. -/
def ofNumeral (n : Numeral) : UInt64 :=
  let magnitude := ofRatio (ofDigits n.digits) (Nat.pow 10 n.fraction.length)
  UInt64.ofNat (if n.negative then (1 <<< 63) + magnitude else magnitude)

/-- The pattern of positive zero. -/
def zero : UInt64 := 0

end Binary64

end CobolCompiler.Number
