/-!
# Bytes as text

Bytes are read as UTF-8 for display. What is no character is replaced: a lead byte with as many of
the bytes that may follow it as are there, or any other byte by itself, becomes one replacement
character. Reading never fails and never takes a byte twice.
-/

namespace CobolCompiler.Text

/-- The character that stands for bytes that are none. -/
def replacement : Char := '�'

/-- What a lead byte announces. -/
structure Lead where
  /-- The part of the code point that the lead byte holds. -/
  high : Nat
  /-- The number of bytes that follow. -/
  count : Nat
  /-- The least and the greatest value of the first of them. -/
  least : Nat
  greatest : Nat

/-- What a byte announces, if it is the first of several. The bounds leave out longer forms than
needed, surrogates and what lies beyond the last code point. -/
def lead? (b : Nat) : Option Lead :=
  if 0xC2 ≤ b && b ≤ 0xDF then some ⟨b - 0xC0, 1, 0x80, 0xBF⟩
  else if b = 0xE0 then some ⟨0, 2, 0xA0, 0xBF⟩
  else if b = 0xED then some ⟨0xD, 2, 0x80, 0x9F⟩
  else if 0xE1 ≤ b && b ≤ 0xEF then some ⟨b - 0xE0, 2, 0x80, 0xBF⟩
  else if b = 0xF0 then some ⟨0, 3, 0x90, 0xBF⟩
  else if b = 0xF4 then some ⟨4, 3, 0x80, 0x8F⟩
  else if 0xF1 ≤ b && b ≤ 0xF3 then some ⟨b - 0xF0, 3, 0x80, 0xBF⟩
  else none

/-- Take the bytes that follow a lead byte: the code point, if all of them are there, and what is
left. -/
def following (value least greatest : Nat) : Nat → List UInt8 → Option Nat × List UInt8
  | 0, bytes => (some value, bytes)
  | _ + 1, [] => (none, [])
  | left + 1, b :: rest =>
    if least ≤ b.toNat && b.toNat ≤ greatest
      then following (64 * value + (b.toNat - 0x80)) 0x80 0xBF left rest
    else (none, b :: rest)

theorem length_following_le (value least greatest left : Nat) (bytes : List UInt8) :
    (following value least greatest left bytes).2.length ≤ bytes.length := by
  induction left generalizing value least greatest bytes with
  | zero => simp [following]
  | succ left ih =>
    cases bytes with
    | nil => simp [following]
    | cons b rest =>
      rw [following]
      split
      · have := ih (64 * value + (b.toNat - 0x80)) 0x80 0xBF rest
        simp only [List.length_cons]
        omega
      · simp

/-- The first character of some bytes, and the bytes after it. -/
def firstChar (b : UInt8) (rest : List UInt8) : Char × List UInt8 :=
  if b.toNat < 0x80 then (Char.ofNat b.toNat, rest)
  else match lead? b.toNat with
    | none => (replacement, rest)
    | some lead =>
      let taken := following lead.high lead.least lead.greatest lead.count rest
      ((taken.1.map Char.ofNat).getD replacement, taken.2)

theorem length_firstChar_le (b : UInt8) (rest : List UInt8) :
    (firstChar b rest).2.length ≤ rest.length := by
  unfold firstChar
  split
  · simp
  · split
    · simp
    · exact length_following_le ..

/-- The characters of some bytes. -/
def chars : List UInt8 → List Char
  | [] => []
  | b :: rest => (firstChar b rest).1 :: chars (firstChar b rest).2
termination_by bytes => bytes.length
decreasing_by
  have := length_firstChar_le b rest
  simp only [List.length_cons]
  omega

/-- Some bytes as text. -/
def ofBytes (bytes : List UInt8) : String :=
  String.ofList (chars bytes)

end CobolCompiler.Text
