import CobolCompiler.Text.Blank

/-!
# Decimal numerals

A numeric literal as it is written: an optional sign, decimal digits, and at most one point. A
`Numeral` keeps the digits on both sides of the point apart, because every rule about precision
and scale counts them.

`Numeral.parse?` reads a literal, and `Numeral.value` is the integer that its digits spell when the
point is ignored; the number meant is that value divided by ten to the number of fraction digits.
-/

namespace CobolCompiler.Number

open Text

/-! ### Digits -/

/-- The ASCII decimal digits. No other digits are accepted in literals. -/
def isDigit (c : Char) : Bool :=
  '0' ≤ c && c ≤ '9'

/-- The number a digit stands for. -/
def digitValue (c : Char) : Nat :=
  c.toNat - '0'.toNat

/-- The number that a row of digits spells. -/
def ofDigits (digits : List Char) : Nat :=
  digits.foldl (fun n c => 10 * n + digitValue c) 0

@[simp] theorem ofDigits_nil : ofDigits [] = 0 := rfl

/-- One more digit on the right multiplies by ten and adds. -/
theorem ofDigits_concat (digits : List Char) (c : Char) :
    ofDigits (digits ++ [c]) = 10 * ofDigits digits + digitValue c := by
  simp [ofDigits, List.foldl_append]

/-! ### Numerals -/

/-- A decimal literal taken apart. -/
structure Numeral where
  /-- Whether a minus sign was written. -/
  negative : Bool
  /-- The digits before the point. -/
  integer : List Char
  /-- The digits after the point. -/
  fraction : List Char
  deriving DecidableEq, Repr

namespace Numeral

/-- A leading sign, and what follows it. A text without sign is not negative. -/
def splitSign : List Char → Bool × List Char
  | '-' :: rest => (true, rest)
  | '+' :: rest => (false, rest)
  | rest => (false, rest)

/-- The parts before and after the first point; without a point there is nothing after it. -/
def splitPoint (text : List Char) : List Char × List Char :=
  (text.takeWhile (· ≠ '.'), (text.dropWhile (· ≠ '.')).drop 1)

/-- Read a decimal literal, blanks around it ignored. There must be at least one digit, on either
side of the point. -/
def parse? (text : List Char) : Option Numeral :=
  let (negative, unsigned) := splitSign (trim text)
  let (integer, fraction) := splitPoint unsigned
  if integer.length + fraction.length = 0 then none
  else if integer.all isDigit && fraction.all isDigit then some ⟨negative, integer, fraction⟩
  else none

/-- All digits, the point left out. -/
def digits (n : Numeral) : List Char :=
  n.integer ++ n.fraction

/-- A magnitude with the numeral's sign. -/
def withSign (n : Numeral) (magnitude : Nat) : Int :=
  if n.negative then -(magnitude : Int) else magnitude

/-- The signed number that the digits spell, the point left out. -/
def value (n : Numeral) : Int :=
  n.withSign (ofDigits n.digits)

@[simp] theorem natAbs_withSign (n : Numeral) (magnitude : Nat) :
    (n.withSign magnitude).natAbs = magnitude := by
  unfold withSign
  split <;> simp

end Numeral

end CobolCompiler.Number
