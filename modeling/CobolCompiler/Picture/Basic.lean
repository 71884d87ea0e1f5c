import CobolCompiler.Number.FixedPoint

/-!
# Pictures

A PICTURE clause such as `S9(5)V99` describes a data item character by character. It is held as a
list of segments, each a character with the number of times it is repeated. What a picture means is
the row of characters it spells, `Picture.spelled`; merging adjacent segments of one character keeps
that row and gives each row of characters a single picture.

Sizes are numbers without a bound here. What reads a field asserts that they add up to 32 bits.
-/

namespace CobolCompiler

/-- One run of a picture: `9(5)` is the character `9` with size 5. -/
structure Segment where
  symbol : Char
  size : Nat
  deriving DecidableEq, Repr, Inhabited

/-- A PICTURE clause as a list of runs. -/
abbrev Picture := List Segment

namespace Segment

/-- The written form: the character, and its size in parentheses unless that is one. -/
def text (s : Segment) : String :=
  if s.size = 1 then String.singleton s.symbol else s!"{s.symbol}({s.size})"

/-- The characters a segment stands for. -/
def spelled (s : Segment) : List Char :=
  List.replicate s.size s.symbol

end Segment

namespace Picture

/-- The written form of a picture. -/
def text (p : Picture) : String :=
  String.join (p.map Segment.text)

/-- The row of characters that a picture stands for. -/
def spelled (p : Picture) : List Char :=
  p.flatMap Segment.spelled

/-- Put a segment in front of a merged picture, joining it with a first segment of its character. -/
def absorb (s : Segment) : Picture → Picture
  | [] => [s]
  | t :: rest => if s.symbol = t.symbol then ⟨s.symbol, s.size + t.size⟩ :: rest else s :: t :: rest

/-- Join adjacent segments of the same character. -/
def merge (p : Picture) : Picture :=
  p.foldr absorb []

/-- The number of places a picture gives to a character. -/
def count (c : Char) (p : Picture) : Nat :=
  p.foldr (fun s n => if s.symbol = c then s.size + n else n) 0

@[simp] theorem spelled_nil : spelled [] = [] := rfl

@[simp] theorem spelled_cons (s : Segment) (p : Picture) :
    spelled (s :: p) = s.spelled ++ spelled p := rfl

@[simp] theorem merge_nil : merge [] = [] := rfl

@[simp] theorem merge_cons (s : Segment) (p : Picture) : merge (s :: p) = absorb s (merge p) := rfl

/-- Absorbing a segment puts its characters in front. -/
theorem spelled_absorb (s : Segment) (p : Picture) :
    spelled (absorb s p) = s.spelled ++ spelled p := by
  cases p with
  | nil => simp [absorb]
  | cons t rest =>
    by_cases h : s.symbol = t.symbol
    · simp [absorb, Segment.spelled, h, ← List.append_assoc, List.replicate_append_replicate]
    · simp [absorb, h]

/-- Merging loses nothing: the picture spells the same characters. -/
theorem spelled_merge (p : Picture) : spelled (merge p) = spelled p := by
  induction p with
  | nil => rfl
  | cons s p ih => simp [spelled_absorb, ih]

end Picture

end CobolCompiler
