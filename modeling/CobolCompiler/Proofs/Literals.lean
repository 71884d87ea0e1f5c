import CobolCompiler.Proofs.DefaultValues
import Mathlib.Algebra.Order.Field.Rat
import Mathlib.Tactic.FieldSimp

/-!
# Numeric literals

A literal that stands on its own is decoded exactly. What it has to look like (`IsDecimal`), how
many digits it has and which rational number it denotes (`denoted`) are said about the characters,
read from left to right; the reader, which cuts the text at the sign and at the point, is not
mentioned. `literals_decoded_exactly` compares the two, and also says which fixed-point numbers are
the value of some literal: all that can be stored.
-/

namespace CobolCompiler.Number

open Text

/-! ### What a literal looks like and what it denotes -/

/-- An optional sign, and then digits, at least one, with at most one point before, among or behind
them. -/
def IsDecimal (text : List Char) : Prop :=
  ∃ sign body, sign ∈ [[], ['+'], ['-']] ∧ text = sign ++ body ∧
    (∀ c ∈ body, isDigit c = true ∨ c = '.') ∧ body.count '.' ≤ 1 ∧ ∃ c ∈ body, isDigit c = true

/-- What the digits behind the point add. The first one counts tenths, and each further one a tenth
of the one before. -/
def fractionValue : List Char → ℚ
  | [] => 0
  | c :: rest => (digitValue c + fractionValue rest) / 10

/-- The number that digits and a point denote, given the number denoted by the digits to the left of
them. -/
def unsignedValue (left : ℚ) : List Char → ℚ
  | [] => left
  | c :: rest =>
    if c = '.' then left + fractionValue rest else unsignedValue (10 * left + digitValue c) rest

/-- The rational number that a literal denotes. -/
def denoted : List Char → ℚ
  | '-' :: body => -unsignedValue 0 body
  | '+' :: body => unsignedValue 0 body
  | body => unsignedValue 0 body

theorem fractionValue_eq (digits : List Char) :
    fractionValue digits = ofDigits digits / 10 ^ digits.length := by
  induction digits with
  | nil => simp [fractionValue]
  | cons c rest ih =>
    have hcons : ofDigits (c :: rest) = digitValue c * 10 ^ rest.length + ofDigits rest := by
      have happ := ofDigits_append [c] rest
      simpa [ofDigits] using happ
    rw [fractionValue, ih, hcons, List.length_cons, pow_succ]
    push_cast
    field_simp

theorem unsignedValue_append (left : ℚ) {digits : List Char} (h : '.' ∉ digits) (rest : List Char) :
    unsignedValue left (digits ++ rest) =
      unsignedValue (left * 10 ^ digits.length + ofDigits digits) rest := by
  induction digits using List.reverseRecOn generalizing rest with
  | nil => simp
  | append_singleton digits c ih =>
    have hc : c ≠ '.' := fun heq => h (by simp [heq])
    have hdigits : '.' ∉ digits := fun hmem => h (by simp [hmem])
    rw [List.append_assoc, ih hdigits, List.singleton_append, unsignedValue, if_neg hc,
      ofDigits_concat, List.length_append, List.length_singleton]
    congr 1
    push_cast
    ring

/-! ### Spelled numerals -/

namespace Numeral

section body

variable {n : Numeral} {text body : List Char} (h : n.Spells text) (hbody : n.IsBody body)

include h hbody

theorem Spells.mem_body {c : Char} (hc : c ∈ body) : Number.isDigit c = true ∨ c = '.' := by
  rcases hbody with rfl | ⟨-, rfl⟩
  · rcases List.mem_append.mp hc with hc | hc
    · exact .inl (h.isDigit c (List.mem_append_left _ hc))
    · rcases List.mem_cons.mp hc with hc | hc
      · exact .inr hc
      · exact .inl (h.isDigit c (List.mem_append_right _ hc))
  · exact .inl (h.isDigit c (List.mem_append_left _ hc))

theorem Spells.countP_body : body.countP Number.isDigit = n.digits.length := by
  have hdigits : n.digits.countP Number.isDigit = n.digits.length :=
    List.countP_eq_length.mpr h.isDigit
  rw [← hdigits]
  rcases hbody with rfl | ⟨hfraction, rfl⟩
  · have hpoint : Number.isDigit '.' = false := by decide
    simp [digits, hpoint]
  · simp [digits, hfraction]

theorem Spells.count_point_body : body.count '.' ≤ 1 := by
  have hfraction : '.' ∉ n.fraction := by
    intro hmem
    exact absurd (h.isDigit '.' (List.mem_append_right _ hmem)) (by decide)
  have hinteger := h.point_notMem
  rcases hbody with rfl | ⟨-, rfl⟩
  · simp [List.count_eq_zero_of_not_mem hinteger, List.count_eq_zero_of_not_mem hfraction]
  · simp [List.count_eq_zero_of_not_mem hinteger]

theorem Spells.countP_fraction :
    (body.dropWhile (· ≠ '.')).countP Number.isDigit = n.fraction.length := by
  have hinteger : ∀ c ∈ n.integer, decide (c ≠ '.') = true := by
    intro c hc
    exact decide_eq_true fun heq => h.point_notMem (heq ▸ hc)
  have hfraction : n.fraction.countP Number.isDigit = n.fraction.length :=
    List.countP_eq_length.mpr fun c hc => h.isDigit c (List.mem_append_right _ hc)
  rcases hbody with rfl | ⟨hnone, rfl⟩
  · have hpoint : Number.isDigit '.' = false := by decide
    rw [List.dropWhile_append_of_pos hinteger]
    simp [hpoint, hfraction]
  · rw [List.dropWhile_eq_nil_iff.mpr hinteger, hnone]
    rfl

theorem Spells.unsignedValue_body :
    unsignedValue 0 body = ofDigits n.digits / 10 ^ n.fraction.length := by
  have hvalue : (ofDigits n.digits : ℚ) / 10 ^ n.fraction.length = ofDigits n.integer +
      fractionValue n.fraction := by
    rw [digits, ofDigits_append, fractionValue_eq]
    push_cast
    field_simp
  rw [hvalue]
  rcases hbody with rfl | ⟨hnone, rfl⟩
  · rw [unsignedValue_append 0 h.point_notMem, unsignedValue, if_pos rfl]
    ring
  · have happ := unsignedValue_append 0 h.point_notMem []
    rw [List.append_nil] at happ
    rw [happ, hnone]
    simp [unsignedValue, fractionValue]

end body

variable {n : Numeral} {text : List Char}

variable {sign : List Char}

/-- No sign is a digit or a point. -/
theorem mem_signs {negative : Bool} (hsign : sign ∈ signs negative) :
    sign ∈ [[], ['+'], ['-']] ∧ sign.countP Number.isDigit = 0 ∧
      ∀ c ∈ sign, decide (c ≠ '.') = true := by
  cases negative <;> simp only [signs, List.mem_cons, List.not_mem_nil, or_false] at hsign
  · rcases hsign with rfl | rfl
    · simp
    · exact ⟨by decide, by decide, by simp⟩
  · subst hsign
    exact ⟨by decide, by decide, by simp⟩

theorem Spells.countP_digits (h : n.Spells text) :
    text.countP Number.isDigit = n.digits.length := by
  obtain ⟨sign, hsign, body, hbody, rfl⟩ := h.exists_body
  rw [List.countP_append, (mem_signs hsign).2.1, h.countP_body hbody, Nat.zero_add]

theorem Spells.countP_behind_point (h : n.Spells text) :
    (text.dropWhile (· ≠ '.')).countP Number.isDigit = n.fraction.length := by
  obtain ⟨sign, hsign, body, hbody, rfl⟩ := h.exists_body
  rw [List.dropWhile_append_of_pos (mem_signs hsign).2.2, h.countP_fraction hbody]

/-- The value of a numeral, divided by the power of ten that its fraction digits stand for, is the
number denoted. -/
theorem Spells.denoted_eq (h : n.Spells text) :
    denoted text = (n.value : ℚ) / 10 ^ n.fraction.length := by
  obtain ⟨sign, hsign, body, hbody, rfl⟩ := h.exists_body
  have hunsigned := h.unsignedValue_body hbody
  rw [value, withSign_eq, Numeral.sign]
  cases hnegative : n.negative with
  | true =>
    rw [hnegative, signs, List.mem_singleton] at hsign
    subst hsign
    show -unsignedValue 0 body = _
    rw [hunsigned, if_pos rfl]
    push_cast
    ring
  | false =>
    -- without sign the text begins with a digit or the point
    have hplain : denoted (sign ++ body) = unsignedValue 0 body := by
      rw [hnegative, signs, List.mem_cons, List.mem_singleton] at hsign
      rcases hsign with rfl | rfl
      · have hhead := h.head_ne_sign hbody
        cases body with
        | nil => rfl
        | cons c rest =>
          obtain ⟨hminus, hplus⟩ := hhead c rfl
          simp [denoted, hminus, hplus]
      · rfl
    rw [hplain, hunsigned]
    simp

theorem signs_of_mem (hsign : sign ∈ [[], ['+'], ['-']]) :
    sign ∈ signs (decide (sign = ['-'])) := by
  simp only [List.mem_cons, List.not_mem_nil, or_false] at hsign
  rcases hsign with rfl | rfl | rfl <;> decide

/-- Digits with one point among them are all digits but for the point. -/
theorem isDigit_around_point {integer fraction : List Char}
    (hmem : ∀ c ∈ integer ++ '.' :: fraction, Number.isDigit c = true ∨ c = '.')
    (hcount : (integer ++ '.' :: fraction).count '.' ≤ 1) :
    ∀ c ∈ integer ++ fraction, Number.isDigit c = true := by
  rw [List.count_append, List.count_cons_self] at hcount
  have hinteger : '.' ∉ integer := List.count_eq_zero.mp (by omega)
  have hfraction : '.' ∉ fraction := List.count_eq_zero.mp (by omega)
  intro c hc
  have hne : c ≠ '.' := by
    intro heq
    subst heq
    exact (List.mem_append.mp hc).elim hinteger hfraction
  have hin : c ∈ integer ++ '.' :: fraction := by
    rw [List.mem_append] at hc ⊢
    exact hc.imp_right (List.mem_cons_of_mem _)
  exact (hmem c hin).resolve_right hne

theorem exists_spells {body : List Char} (hsign : sign ∈ [[], ['+'], ['-']])
    (hmem : ∀ c ∈ body, Number.isDigit c = true ∨ c = '.') (hcount : body.count '.' ≤ 1)
    {digit : Char} (hdigit : digit ∈ body) (hisDigit : Number.isDigit digit = true) :
    ∃ n : Numeral, n.Spells (sign ++ body) := by
  have hpoint : digit ≠ '.' := by
    intro heq
    subst heq
    exact absurd hisDigit (by decide)
  by_cases hmet : '.' ∈ body
  · obtain ⟨integer, fraction, rfl⟩ := List.append_of_mem hmet
    have hnonempty : integer ++ fraction ≠ [] := by
      intro hnil
      obtain ⟨rfl, rfl⟩ := List.append_eq_nil_iff.mp hnil
      exact hpoint (List.mem_singleton.mp hdigit)
    exact ⟨⟨decide (sign = ['-']), integer, fraction⟩, isDigit_around_point hmem hcount, hnonempty,
      sign, signs_of_mem hsign, .inl (List.append_assoc _ _ _).symm⟩
  · -- all of it are digits before a point that is not written
    have hdigits : ∀ c ∈ body ++ [], Number.isDigit c = true := by
      intro c hc
      rw [List.append_nil] at hc
      exact (hmem c hc).resolve_right fun heq => hmet (heq ▸ hc)
    have hnonempty : body ++ [] ≠ [] := by
      rw [List.append_nil]
      exact List.ne_nil_of_mem hdigit
    exact ⟨⟨decide (sign = ['-']), body, []⟩, hdigits, hnonempty, sign, signs_of_mem hsign,
      .inr ⟨rfl, rfl⟩⟩

/-- A text is a literal exactly if it spells a numeral. -/
theorem isDecimal_iff : IsDecimal text ↔ ∃ n : Numeral, n.Spells text := by
  constructor
  · intro hdecimal
    obtain ⟨sign, body, hsign, rfl, hmem, hcount, digit, hdigit, hisDigit⟩ := hdecimal
    exact exists_spells hsign hmem hcount hdigit hisDigit
  · intro hspells
    obtain ⟨n, h⟩ := hspells
    obtain ⟨sign, hsign, body, hbody, rfl⟩ := h.exists_body
    have hsome : 0 < body.countP Number.isDigit := by
      rw [h.countP_body hbody]
      exact List.length_pos_iff.mpr h.nonempty
    exact ⟨sign, body, (mem_signs hsign).1, rfl, fun c hc => h.mem_body hbody hc,
      h.count_point_body hbody, List.countP_pos_iff.mp hsome⟩

end Numeral

/-! ### Decoding -/

section decoding

variable {text : String} {n : Numeral}

theorem ofLiteral_of_spells (hn : n.Spells (trim text.toList)) :
    FixedPoint.ofLiteral text =
      if 18 < n.digits.length then .error .tooBig
        else .ok ⟨n.digits.length, n.fraction.length, n.value⟩ := by
  simp only [FixedPoint.ofLiteral, readNumeral_eq_ok_iff.mpr hn, bind, Except.bind]
  by_cases hlong : 18 < n.digits.length
  · rw [if_pos (show n.digits.length > maxDigits from hlong), if_pos hlong]
    rfl
  · rw [if_neg (show ¬n.digits.length > maxDigits from hlong), if_neg hlong]
    rfl

theorem ofLiteral_of_not_isDecimal (h : ¬IsDecimal (trim text.toList)) :
    FixedPoint.ofLiteral text = .error .malformed := by
  have hnumber : isNumber text = false := by
    rw [Bool.eq_false_iff, ne_eq, isNumber_iff, ← Numeral.isDecimal_iff]
    exact h
  simp only [FixedPoint.ofLiteral, readNumeral_eq_error hnumber, bind, Except.bind]

theorem ofLiteral_ne_malformed (h : IsDecimal (trim text.toList)) :
    FixedPoint.ofLiteral text ≠ .error .malformed := by
  obtain ⟨n, hn⟩ := Numeral.isDecimal_iff.mp h
  rw [ofLiteral_of_spells hn]
  by_cases hlong : 18 < n.digits.length <;> simp [hlong]

theorem ofLiteral_malformed_iff :
    FixedPoint.ofLiteral text = .error .malformed ↔ ¬IsDecimal (trim text.toList) := by
  constructor
  · intro hmalformed hdecimal
    exact ofLiteral_ne_malformed hdecimal hmalformed
  · exact ofLiteral_of_not_isDecimal

theorem ofLiteral_tooBig_iff :
    FixedPoint.ofLiteral text = .error .tooBig ↔
      IsDecimal (trim text.toList) ∧ 18 < (trim text.toList).countP isDigit := by
  by_cases hdecimal : IsDecimal (trim text.toList)
  · obtain ⟨n, hn⟩ := Numeral.isDecimal_iff.mp hdecimal
    rw [ofLiteral_of_spells hn, hn.countP_digits]
    by_cases hlong : 18 < n.digits.length <;> simp [hlong, hdecimal]
  · rw [ofLiteral_of_not_isDecimal hdecimal]
    simp [hdecimal]

theorem ofLiteral_value (hdecimal : IsDecimal (trim text.toList))
    (hshort : (trim text.toList).countP isDigit ≤ 18) :
    ∃ x, FixedPoint.ofLiteral text = .ok x ∧ x.precision = (trim text.toList).countP isDigit ∧
      x.scale = ((trim text.toList).dropWhile (· ≠ '.')).countP isDigit ∧
      (x.value : ℚ) / 10 ^ x.scale = denoted (trim text.toList) := by
  obtain ⟨n, hn⟩ := Numeral.isDecimal_iff.mp hdecimal
  rw [hn.countP_digits] at hshort ⊢
  rw [hn.countP_behind_point, hn.denoted_eq, ofLiteral_of_spells hn, if_neg (Nat.not_lt.mpr hshort)]
  exact ⟨_, rfl, rfl, rfl, rfl⟩

end decoding

/-! ### Writing a literal -/

/-- A number written with a given count of digits, zeros in front. -/
def digitsOf : (count value : Nat) → List Char
  | 0, _ => []
  | count + 1, value => digitsOf count (value / 10) ++ [Nat.digitChar (value % 10)]

theorem isDigit_digitChar {d : Nat} (h : d < 10) :
    isDigit (Nat.digitChar d) = true ∧ digitValue (Nat.digitChar d) = d := by
  have hall : ∀ d : Fin 10, isDigit (Nat.digitChar d) = true ∧
      digitValue (Nat.digitChar d) = d := by decide
  exact hall ⟨d, h⟩

@[simp] theorem length_digitsOf (count value : Nat) : (digitsOf count value).length = count := by
  induction count generalizing value with
  | zero => rfl
  | succ count ih => simp [digitsOf, ih]

theorem isDigit_digitsOf (count value : Nat) : ∀ c ∈ digitsOf count value, isDigit c = true := by
  induction count generalizing value with
  | zero => simp [digitsOf]
  | succ count ih =>
    intro c hc
    rcases List.mem_append.mp hc with hc | hc
    · exact ih _ c hc
    · rw [List.mem_singleton.mp hc]
      exact (isDigit_digitChar (Nat.mod_lt _ (by omega))).1

theorem ofDigits_digitsOf {count value : Nat} (h : value < 10 ^ count) :
    ofDigits (digitsOf count value) = value := by
  induction count generalizing value with
  | zero =>
    rw [Nat.pow_zero] at h
    show 0 = value
    omega
  | succ count ih =>
    have hfront : value / 10 < 10 ^ count := by
      rw [Nat.pow_succ] at h
      omega
    rw [digitsOf, ofDigits_concat, ih hfront, (isDigit_digitChar (Nat.mod_lt _ (by omega))).2]
    omega

/-- The numeral of a fixed-point number, with all its digits. -/
def numeralOf (x : FixedPoint) : Numeral :=
  ⟨decide (x.value < 0), (digitsOf x.precision x.value.natAbs).take (x.precision - x.scale),
    (digitsOf x.precision x.value.natAbs).drop (x.precision - x.scale)⟩

/-- The text of a numeral, always with a point. -/
def Numeral.literal (n : Numeral) : List Char :=
  (if n.negative then ['-'] else []) ++ n.integer ++ '.' :: n.fraction

@[simp] theorem digits_numeralOf (x : FixedPoint) :
    (numeralOf x).digits = digitsOf x.precision x.value.natAbs :=
  List.take_append_drop _ _

theorem spells_literal {n : Numeral} (hdigits : ∀ c ∈ n.digits, isDigit c = true)
    (hnonempty : n.digits ≠ []) :
    n.Spells n.literal where
  isDigit := hdigits
  nonempty := hnonempty
  written := by
    refine ⟨if n.negative then ['-'] else [], ?_, .inl rfl⟩
    cases n.negative <;> simp [Numeral.signs]

theorem not_isBlank_of_isDigit {c : Char} (h : isDigit c = true) : isBlank c = false := by
  simp only [isDigit, Bool.and_eq_true, decide_eq_true_eq] at h
  have hlow : 48 ≤ c.toNat := h.1
  have hhigh : c.toNat ≤ 57 := h.2
  simp only [isBlank, blankRanges, List.any_cons, List.any_nil, Bool.or_false, Bool.or_eq_false_iff,
    Bool.and_eq_false_iff, decide_eq_false_iff_not]
  omega

theorem trim_eq_self {text : List Char} (h : ∀ c ∈ text, isBlank c = false) : trim text = text := by
  have hdrop : ∀ l : List Char, (∀ c ∈ l, isBlank c = false) → l.dropWhile isBlank = l := by
    intro l hl
    cases l with
    | nil => rfl
    | cons c rest => rw [List.dropWhile_cons_of_neg (by simp [hl c])]
  rw [trim, trimLeft, hdrop text h, trimRight, hdrop text.reverse (by simpa using h),
    List.reverse_reverse]

theorem trim_literal {n : Numeral} (hdigits : ∀ c ∈ n.digits, isDigit c = true) :
    trim n.literal = n.literal := by
  apply trim_eq_self
  intro c hc
  have hcases : c = '-' ∨ c = '.' ∨ c ∈ n.digits := by
    simp only [Numeral.literal, Numeral.digits, List.mem_append, List.mem_cons] at hc ⊢
    rcases hc with (hc | hc) | hc | hc
    · left
      split at hc <;> simp_all
    · exact .inr (.inr (.inl hc))
    · exact .inr (.inl hc)
    · exact .inr (.inr (.inr hc))
  rcases hcases with rfl | rfl | hmem
  · decide
  · decide
  · exact not_isBlank_of_isDigit (hdigits c hmem)

theorem isDigit_numeralOf (x : FixedPoint) : ∀ c ∈ (numeralOf x).digits, isDigit c = true := by
  rw [digits_numeralOf]
  exact isDigit_digitsOf _ _

variable {x : FixedPoint}

theorem value_numeralOf (h : x.value.natAbs < 10 ^ x.precision) :
    (numeralOf x).value = x.value := by
  rw [Numeral.value, digits_numeralOf, ofDigits_digitsOf h]
  show (if decide (x.value < 0) = true then -(x.value.natAbs : Int) else x.value.natAbs) = x.value
  by_cases hneg : x.value < 0
  · rw [if_pos (decide_eq_true hneg)]
    omega
  · rw [if_neg (by simpa using hneg)]
    omega

theorem length_fraction_numeralOf (h : x.scale ≤ x.precision) :
    (numeralOf x).fraction.length = x.scale := by
  show ((digitsOf x.precision x.value.natAbs).drop (x.precision - x.scale)).length = x.scale
  rw [List.length_drop, length_digitsOf]
  omega

/-- What is decoded has its value within its digits. -/
theorem ofLiteral_bounds {text : String} (h : FixedPoint.ofLiteral text = .ok x) :
    1 ≤ x.precision ∧ x.precision ≤ 18 ∧ x.scale ≤ x.precision ∧ |x.value| < 10 ^ x.precision := by
  by_cases hdecimal : IsDecimal (trim text.toList)
  · obtain ⟨n, hn⟩ := Numeral.isDecimal_iff.mp hdecimal
    rw [ofLiteral_of_spells hn] at h
    by_cases hlong : 18 < n.digits.length
    · rw [if_pos hlong] at h
      cases h
    · rw [if_neg hlong] at h
      obtain rfl := Except.ok.inj h
      have hvalue : |n.value| < 10 ^ n.digits.length := by
        rw [Int.abs_eq_natAbs, Numeral.value, Numeral.natAbs_withSign]
        exact_mod_cast ofDigits_lt hn.isDigit
      have hscale : n.fraction.length ≤ n.digits.length := by simp [Numeral.digits]
      exact ⟨List.length_pos_iff.mpr hn.nonempty, Nat.le_of_not_lt hlong, hscale, hvalue⟩
  · rw [ofLiteral_of_not_isDecimal hdecimal] at h
    cases h

/-- The fixed-point numbers that some literal has as its value. -/
theorem exists_literal_iff (x : FixedPoint) :
    (∃ text, FixedPoint.ofLiteral text = .ok x) ↔
      1 ≤ x.precision ∧ x.precision ≤ 18 ∧ x.scale ≤ x.precision ∧
        |x.value| < 10 ^ x.precision := by
  constructor
  · intro hexists
    obtain ⟨text, h⟩ := hexists
    exact ofLiteral_bounds h
  · intro hbounds
    obtain ⟨hpos, hshort, hscale, hvalue⟩ := hbounds
    have habs : x.value.natAbs < 10 ^ x.precision := by
      rw [Int.abs_eq_natAbs] at hvalue
      exact_mod_cast hvalue
    have hlength : (numeralOf x).digits.length = x.precision := by simp
    have hnonempty : (numeralOf x).digits ≠ [] := List.length_pos_iff.mp (by omega)
    have hspells : (numeralOf x).Spells (trim (String.ofList (numeralOf x).literal).toList) := by
      rw [String.toList_ofList, trim_literal (isDigit_numeralOf x)]
      exact spells_literal (isDigit_numeralOf x) hnonempty
    refine ⟨String.ofList (numeralOf x).literal, ?_⟩
    rw [ofLiteral_of_spells hspells, hlength, value_numeralOf habs,
      length_fraction_numeralOf hscale, if_neg (Nat.not_lt.mpr hshort)]

/-- A literal is decoded exactly. Blanks around it are left out; what is left has the form of a
decimal number or is malformed, and it is too big if it has more than eighteen digits. Else its
digits are counted, those behind the point too, and its value stands for the number that is denoted.
Every fixed-point number that has room for its digits is the value of some literal, and no other
is. -/
theorem literals_decoded_exactly :
    (∀ text : String,
      (FixedPoint.ofLiteral text = .error .malformed ↔ ¬IsDecimal (trim text.toList)) ∧
      (FixedPoint.ofLiteral text = .error .tooBig ↔
        IsDecimal (trim text.toList) ∧ 18 < (trim text.toList).countP isDigit) ∧
      (IsDecimal (trim text.toList) → (trim text.toList).countP isDigit ≤ 18 →
        ∃ x, FixedPoint.ofLiteral text = .ok x ∧ x.precision = (trim text.toList).countP isDigit ∧
          x.scale = ((trim text.toList).dropWhile (· ≠ '.')).countP isDigit ∧
          (x.value : ℚ) / 10 ^ x.scale = denoted (trim text.toList)) ∧
      (isNumber text = true ↔ FixedPoint.ofLiteral text ≠ .error .malformed)) ∧
    ∀ x : FixedPoint, (∃ text, FixedPoint.ofLiteral text = .ok x) ↔
      1 ≤ x.precision ∧ x.precision ≤ 18 ∧ x.scale ≤ x.precision ∧
        |x.value| < 10 ^ x.precision := by
  refine ⟨?_, exists_literal_iff⟩
  intro text
  refine ⟨ofLiteral_malformed_iff, ofLiteral_tooBig_iff, ofLiteral_value, ?_⟩
  rw [isNumber_iff, ← Numeral.isDecimal_iff, ne_eq, ofLiteral_malformed_iff, Classical.not_not]

/-- Blanks, leading zeros and zeros at the end: the zeros count as digits. The number is minus
twelve and a half. -/
theorem padded_literal_decoded :
    (∃ x, FixedPoint.ofLiteral "\t-012.50 " = .ok x ∧ x.precision = 5 ∧ x.scale = 2 ∧
      (x.value : ℚ) / 10 ^ x.scale = -(25 / 2)) ∧
    ∃ text, FixedPoint.ofLiteral text = .ok ⟨18, 18, -1⟩ := by
  obtain ⟨hliterals, hvalues⟩ := literals_decoded_exactly
  have htrim : trim "\t-012.50 ".toList = ['-', '0', '1', '2', '.', '5', '0'] := by decide
  have hdecimal : IsDecimal ['-', '0', '1', '2', '.', '5', '0'] :=
    ⟨['-'], ['0', '1', '2', '.', '5', '0'], by decide, rfl, by simp [Number.isDigit], by decide,
      '0', by decide, by decide⟩
  have hdenoted : denoted ['-', '0', '1', '2', '.', '5', '0'] = -(25 / 2) := by decide +kernel
  obtain ⟨-, -, hvalue, -⟩ := hliterals "\t-012.50 "
  rw [htrim] at hvalue
  obtain ⟨x, hx, hprecision, hscale, hquotient⟩ := hvalue hdecimal (by decide)
  refine ⟨⟨x, hx, hprecision, hscale, hquotient.trans hdenoted⟩, ?_⟩
  exact (hvalues ⟨18, 18, -1⟩).mpr (by decide)

end CobolCompiler.Number
