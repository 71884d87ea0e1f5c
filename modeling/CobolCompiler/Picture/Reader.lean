import CobolCompiler.Picture.Basic

/-!
# Reading pictures

The written form of a picture is a row of items. An item is one character, or one character followed
by a repeat count in parentheses. Letters are taken in upper case, and adjacent items of one
character are merged. A count that is not a positive number, and a parenthesis that is never closed,
make the picture malformed.
-/

namespace CobolCompiler.Picture

open Text Number

/-- Sizes are at most this large. -/
def maxSize : Nat := 0xFFFFFFFF

/-- A repeat count: digits with an optional plus sign, blanks around them ignored, giving a positive
number that is not too large. -/
def repeatCount? (text : List Char) : Option Nat :=
  let digits := match trim text with
    | '+' :: rest => rest
    | rest => rest
  if digits.isEmpty || !digits.all isDigit then none
  else
    let count := ofDigits digits
    if 0 < count && count ≤ maxSize then some count else none

/-- What follows the first closing parenthesis. -/
def afterClosing (text : List Char) : List Char :=
  (text.dropWhile (· ≠ ')')).drop 1

theorem length_afterClosing_le (text : List Char) : (afterClosing text).length ≤ text.length := by
  have := (List.dropWhile_sublist (fun c => decide (c ≠ ')')) (l := text)).length_le
  simp only [afterClosing, List.length_drop]
  omega

/-- The items of a picture, in order and not yet merged. -/
def items : List Char → Except ValueError Picture
  | [] => .ok []
  | [c] => .ok [⟨c.toUpper, 1⟩]
  | c :: d :: rest =>
    if d = '(' then
      match rest.contains ')', repeatCount? (rest.takeWhile (· ≠ ')')) with
      | true, some size => do return ⟨c.toUpper, size⟩ :: (← items (afterClosing rest))
      | _, _ => .error .malformed
    else do return ⟨c.toUpper, 1⟩ :: (← items (d :: rest))
termination_by text => text.length
decreasing_by
  · have := length_afterClosing_le rest
    simp
    omega
  · simp

/-- Read the written form of a picture. -/
def parse (text : String) : Except ValueError Picture := do
  return merge (← items text.toList)

end CobolCompiler.Picture
