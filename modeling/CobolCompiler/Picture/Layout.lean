import CobolCompiler.Picture.Reader

/-!
# Decimal layouts

A numeric picture declares how many digits a COMP-4 field holds, how many of them follow the point,
and whether there is a sign. A default value is aligned to the most significant digit of that
precision: under `9(5)V99` the literal `123.45` gives `1234500`.
-/

namespace CobolCompiler

open Text Number

/-- What becomes of fraction digits that do not fit the declared scale. -/
inductive FractionPolicy
  /-- They are cut off. -/
  | truncate
  /-- The value is refused. -/
  | reject
  deriving DecidableEq, Repr, Inhabited

/-- Sign, digits and fraction digits of a decimal field. -/
structure Layout where
  signed : Bool
  precision : Nat
  scale : Nat
  deriving DecidableEq, Repr

/-- A COMP-4 field: its layout, and its scaled default value if it has one. -/
structure Comp4 extends Layout where
  value? : Option Int
  deriving DecidableEq, Repr

namespace Picture

/-- Digit places before and after the point, given whether the point has been passed. -/
def digitPlaces : Bool → Picture → Nat × Nat
  | _, [] => (0, 0)
  | after, s :: rest =>
    let (before', after') := digitPlaces (after || s.symbol = 'V') rest
    if s.symbol = '9' then
      if after then (before', s.size + after') else (s.size + before', after')
    else (before', after')

/-- Whether the first character is the sign. -/
def isSigned (p : Picture) : Bool :=
  p.head?.any (·.symbol = 'S')

/-- The decimal layout a picture declares. -/
def layout (p : Picture) : Layout :=
  let (integer, fraction) := digitPlaces false p
  ⟨p.isSigned, integer + fraction, fraction⟩

end Picture

namespace Layout

/-- The fraction digits brought to the declared scale: cut, or filled up with zeros. -/
def alignFraction (scale : Nat) (fraction : List Char) : List Char :=
  fraction.take scale ++ List.replicate (scale - fraction.length) '0'

/-- The scaled value of a numeral in a layout. A numeral of which no digit is left, because it has
fraction digits only and the layout takes none, gives no value. -/
def align (layout : Layout) (policy : FractionPolicy) (n : Numeral) : Except ValueError Int := do
  if n.negative && !layout.signed then
    throw .badSign
  if n.fraction.length > layout.scale && policy = .reject then
    throw .excessFraction
  let digits := n.integer ++ alignFraction layout.scale n.fraction
  if digits.length > layout.precision then
    throw .tooBig
  if digits.isEmpty then
    throw .malformed
  return n.withSign (ofDigits digits) * (Nat.pow 10 (layout.precision - digits.length) : Nat)

end Layout

namespace Comp4

/-- A field without picture and default: one signed digit. -/
def plain : Comp4 :=
  { signed := true, precision := 1, scale := 0, value? := none }

/-- A field shaped by its default alone. -/
def ofLiteral (literal : String) : Except ValueError Comp4 := do
  let fixed ← FixedPoint.ofLiteral literal
  return { signed := (trimLeft literal.toList).head? = some '-'
           precision := fixed.precision, scale := fixed.scale, value? := some fixed.value }

/-- A field shaped by its picture, with a default that must fit. -/
def ofPicture (picture : Picture) (literal? : Option String) (policy : FractionPolicy) :
    Except ValueError Comp4 :=
  match literal? with
  | none => .ok { picture.layout with value? := none }
  | some literal => do
    let numeral ← readNumeral literal
    let value ← picture.layout.align policy numeral
    return { picture.layout with value? := some value }

/-- The field that a picture and a default declare. A picture decides the shape if there is one. -/
def decode (picture? : Option Picture) (literal? : Option String) (policy : FractionPolicy) :
    Except ValueError Comp4 :=
  match picture?, literal? with
  | none, none => .ok plain
  | none, some literal => ofLiteral literal
  | some picture, literal? => ofPicture picture literal? policy

/-- What the field starts out with: its default, or zero. -/
def initialValue (field : Comp4) : FixedPoint :=
  ⟨field.precision, field.scale, field.value?.getD 0⟩

end Comp4

end CobolCompiler
