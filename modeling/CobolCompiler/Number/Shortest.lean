import CobolCompiler.Number.Binary64

/-!
# Shortest decimal text

A double-precision number is written with the fewest decimal digits that read back as the same
number, and among those with the digits nearest to it. The text is always positional, without
exponent and without a fraction of zero.

The numbers that round to a given one form an interval, ends included when its significand is even.
For each digit count the two multiples of the last place around the number are tested against that
interval; the first count with a hit wins.
-/

namespace CobolCompiler.Number.Binary64

/-- The numbers around a positive finite number `mid / den` that round to it. -/
structure Interval where
  low : Nat
  mid : Nat
  high : Nat
  den : Nat
  /-- Whether the two ends round to the number as well. -/
  closed : Bool

/-- The interval of the positive finite number with the given exponent and fraction fields. At a
power of two the gap below is half as wide as the gap above. -/
def interval (exponent fraction : Nat) : Interval :=
  let significand := if exponent = 0 then fraction else (1 <<< 52) + fraction
  let place : Int := if exponent = 0 then -1076 else (exponent : Int) - 1077
  let below := if fraction = 0 && exponent > 1 then 1 else 2
  let (unit, den) := shiftRatio 1 1 place
  { low := (4 * significand - below) * unit
    mid := 4 * significand * unit
    high := (4 * significand + 2) * unit
    den := den
    closed := significand % 2 = 0 }

/-- The position `k` of the decimal point, with `10 ^ (k - 1) ≤ num / den < 10 ^ k`. -/
def pointPosition (num den : Nat) : Int :=
  if num ≥ den then ((Nat.toDigits 10 (num / den)).length : Int)
  else 1 - ((Nat.toDigits 10 ((den - 1) / num)).length : Int)

/-- The multiple of `10 ^ place` that lies in the interval and is nearest to its number, if one
does. Of two that are equally near, the greater. -/
def Interval.hit? (i : Interval) (place : Int) : Option Nat :=
  let up := Nat.pow 10 (-place).toNat
  let unit := i.den * Nat.pow 10 place.toNat
  let target := i.mid * up
  let lower := target / unit
  let upper := lower + 1
  let lowerFits : Bool := i.low * up < lower * unit || i.closed && i.low * up = lower * unit
  let upperFits : Bool := upper * unit < i.high * up || i.closed && upper * unit = i.high * up
  match lowerFits, upperFits with
  | true, true => if target - lower * unit < upper * unit - target then some lower else some upper
  | true, false => some lower
  | false, true => some upper
  | false, false => none

/-- The shortest decimal in an interval: a whole number and the power of ten that multiplies it.
Seventeen digits always suffice. -/
def Interval.shortest (i : Interval) : Nat × Int :=
  let point := pointPosition i.mid i.den
  let tried := (List.range 17).findSome? fun n =>
    let place := point - (n + 1 : Nat)
    (i.hit? place).map (·, place)
  tried.getD (0, 0)

/-- The positional text of `digits * 10 ^ place`. -/
def positional (digits : Nat) (place : Int) : String :=
  let written := Nat.toDigits 10 digits
  if place ≥ 0 then String.ofList (written ++ List.replicate place.toNat '0')
  else
    let places := (-place).toNat
    let padded := List.replicate (places + 1 - written.length) '0' ++ written
    let whole := padded.take (padded.length - places)
    let fraction := (padded.drop (padded.length - places)).reverse.dropWhile (· = '0') |>.reverse
    if fraction.isEmpty then String.ofList whole
    else String.ofList (whole ++ '.' :: fraction)

/-- The text of a bit pattern. Negative zero keeps its sign, a value that is no number has none. -/
def text (bits : UInt64) : String :=
  let pattern := bits.toNat
  let sign := if pattern ≥ 1 <<< 63 then "-" else ""
  let exponent := (pattern >>> 52) % (1 <<< 11)
  let fraction := pattern % (1 <<< 52)
  if exponent = 0x7FF then
    if fraction = 0 then sign ++ "inf" else "NaN"
  else if exponent = 0 && fraction = 0 then sign ++ "0"
  else
    let (digits, place) := (interval exponent fraction).shortest
    sign ++ positional digits place

end CobolCompiler.Number.Binary64
