import CobolCompiler.Proofs.FieldClauses
import Mathlib.Tactic.Ring

/-!
# Default values of COMP-4 fields

A default is aligned to the most significant digit of the precision that a picture declares. Here
this is said about the written literal: `Numeral.Spells` tells which sign, integer digits and
fraction digits a text consists of, and the digit places of a picture are counted on either side of
its first `V`. The value is then an exact product (`Comp4.decode_default_value`), and a literal is
refused for the first of four reasons that applies to it (`Comp4.decode_default_error_iff`). Sizes
are natural numbers here; where those of a picture do not add up in 32 bits, declaring its field
does not come to the default.

One of the reasons is not about the form of the literal. Where fraction digits are cut off and the
picture has no places for them, a literal without integer digits keeps no digit at all, and is
refused as if it were no number.
-/

namespace CobolCompiler

open Number Text

/-! ### Places on either side of the point -/

namespace Picture

/-- The digit places before the first `V`. -/
def integerPlaces (p : Picture) : Nat :=
  count '9' (p.takeWhile (·.symbol ≠ 'V'))

/-- The digit places after the first `V`. -/
def fractionPlaces (p : Picture) : Nat :=
  count '9' (p.dropWhile (·.symbol ≠ 'V'))

/-- The first segment is the sign. -/
def Signed (p : Picture) : Prop :=
  p.head?.map Segment.symbol = some 'S'

theorem digitPlaces_after (p : Picture) : digitPlaces true p = (0, count '9' p) := by
  induction p with
  | nil => rfl
  | cons s rest ih =>
    rw [count_cons]
    by_cases hnine : s.symbol = '9' <;> simp [digitPlaces, ih, hnine]

theorem digitPlaces_before (p : Picture) :
    digitPlaces false p = (p.integerPlaces, p.fractionPlaces) := by
  unfold integerPlaces fractionPlaces
  induction p with
  | nil => rfl
  | cons s rest ih =>
    by_cases hpoint : s.symbol = 'V'
    · simp [digitPlaces, digitPlaces_after, hpoint, count]
    · by_cases hnine : s.symbol = '9' <;> simp [digitPlaces, ih, hpoint, hnine, count_cons]

@[simp] theorem scale_layout (p : Picture) : p.layout.scale = p.fractionPlaces := by
  rw [layout, digitPlaces_before]

theorem precision_layout_eq (p : Picture) :
    p.layout.precision = p.integerPlaces + p.fractionPlaces := by
  rw [layout, digitPlaces_before]

theorem signed_layout_iff (p : Picture) : p.layout.signed = true ↔ p.Signed := by
  unfold Signed layout isSigned
  cases p <;> simp

end Picture

/-! ### Written numerals -/

namespace Number

variable {literal : String}

/-- Digits on the right shift those on the left. -/
theorem ofDigits_append (a b : List Char) :
    ofDigits (a ++ b) = ofDigits a * 10 ^ b.length + ofDigits b := by
  induction b using List.reverseRecOn with
  | nil => simp
  | append_singleton b c ih =>
    rw [← List.append_assoc, ofDigits_concat, ofDigits_concat, ih, List.length_append,
      List.length_singleton, Nat.pow_succ]
    ring

theorem ofDigits_replicate_zero (k : Nat) : ofDigits (List.replicate k '0') = 0 := by
  induction k with
  | zero => rfl
  | succ k ih => rw [List.replicate_succ', ofDigits_concat, ih]; rfl

/-- Cutting a row of digits, or filling it up with zeros, until `scale` digits follow the point
multiplies the number by the power of ten in between and drops what is left of the fraction. -/
theorem ofDigits_cut (a : List Char) {b : List Char} (hb : ∀ c ∈ b, isDigit c = true)
    (scale : Nat) :
    ofDigits (a ++ (b ++ List.replicate scale '0').take scale) =
      ofDigits (a ++ b) * 10 ^ scale / 10 ^ b.length := by
  rcases Nat.le_total b.length scale with hle | hle
  · obtain ⟨k, rfl⟩ := Nat.exists_eq_add_of_le hle
    have hfilled : (b ++ List.replicate (b.length + k) '0').take (b.length + k) = b ++
        List.replicate k '0' := by
      rw [List.take_append, List.take_of_length_le hle, List.take_replicate]
      simp
    calc ofDigits (a ++ (b ++ List.replicate (b.length + k) '0').take (b.length + k))
        = ofDigits (a ++ b) * 10 ^ k := by
          rw [hfilled, ← List.append_assoc, ofDigits_append (a ++ b), ofDigits_replicate_zero,
            List.length_replicate, Nat.add_zero]
      _ = ofDigits (a ++ b) * 10 ^ (b.length + k) / 10 ^ b.length := by
          rw [Nat.pow_add, Nat.mul_left_comm, Nat.mul_div_cancel_left _ (by positivity)]
  · obtain ⟨k, hk⟩ := Nat.exists_eq_add_of_le hle
    have hcut : (b ++ List.replicate scale '0').take scale = b.take scale :=
      List.take_append_of_le_length hle
    have hdropped : (b.drop scale).length = k := by simp [hk]
    have hrest : ofDigits (b.drop scale) < 10 ^ k := by
      have hlt := ofDigits_lt
        (fun c hc => hb c (List.mem_of_mem_drop hc) : ∀ c ∈ b.drop scale, isDigit c = true)
      rwa [hdropped] at hlt
    have hsplit : ofDigits (a ++ b) = ofDigits (a ++ b.take scale) * 10 ^ k +
        ofDigits (b.drop scale) := by
      rw [← hdropped, ← ofDigits_append, List.append_assoc, List.take_append_drop]
    calc ofDigits (a ++ (b ++ List.replicate scale '0').take scale)
        = (ofDigits (a ++ b.take scale) * 10 ^ k + ofDigits (b.drop scale)) / 10 ^ k := by
          rw [hcut, Nat.mul_comm, Nat.mul_add_div (by positivity), Nat.div_eq_of_lt hrest,
            Nat.add_zero]
      _ = ofDigits (a ++ b) * 10 ^ scale / 10 ^ b.length := by
          rw [hsplit, hk, Nat.pow_add, Nat.mul_comm (10 ^ scale),
            Nat.mul_div_mul_right _ _ (by positivity)]

namespace Numeral

variable {n : Numeral} {text : List Char}

/-- The ways to write a sign. -/
def signs : Bool → List (List Char)
  | true => [['-']]
  | false => [[], ['+']]

/-- The text is the numeral: a sign, the integer digits and, after a point, the fraction digits.
There is at least one digit, and the point may be left out where no fraction follows. -/
structure Spells (n : Numeral) (text : List Char) : Prop where
  isDigit : ∀ c ∈ n.digits, isDigit c = true
  nonempty : n.digits ≠ []
  written : ∃ sign ∈ signs n.negative,
    text = sign ++ n.integer ++ '.' :: n.fraction ∨ n.fraction = [] ∧ text = sign ++ n.integer

/-- The text of a numeral behind its sign. -/
def IsBody (n : Numeral) (body : List Char) : Prop :=
  body = n.integer ++ '.' :: n.fraction ∨ n.fraction = [] ∧ body = n.integer

theorem Spells.exists_body (h : n.Spells text) :
    ∃ sign ∈ signs n.negative, ∃ body, n.IsBody body ∧ text = sign ++ body := by
  obtain ⟨sign, hsign, hwritten⟩ := h.written
  refine ⟨sign, hsign, ?_⟩
  rcases hwritten with htext | ⟨hfraction, htext⟩
  · exact ⟨_, .inl rfl, htext.trans (List.append_assoc _ _ _)⟩
  · exact ⟨_, .inr ⟨hfraction, rfl⟩, htext⟩

/-- The sign of the number, as a factor. -/
def sign (n : Numeral) : Int :=
  if n.negative then -1 else 1

theorem withSign_eq (n : Numeral) (magnitude : Nat) :
    n.withSign magnitude = n.sign * magnitude := by
  unfold withSign sign
  split <;> simp

theorem splitSign_append {negative : Bool} {sign rest : List Char} (hsign : sign ∈ signs negative)
    (hrest : ∀ c ∈ rest.head?, c ≠ '-' ∧ c ≠ '+') :
    splitSign (sign ++ rest) = (negative, rest) := by
  cases negative with
  | true =>
    obtain rfl := List.mem_singleton.mp hsign
    rfl
  | false =>
    simp only [signs, List.mem_cons, List.not_mem_nil, or_false] at hsign
    rcases hsign with rfl | rfl
    · cases rest with
      | nil => rfl
      | cons c rest =>
        obtain ⟨hminus, hplus⟩ := hrest c rfl
        simp [splitSign, hminus, hplus]
    · rfl

theorem exists_sign (text : List Char) :
    ∃ sign ∈ signs (splitSign text).1, text = sign ++ (splitSign text).2 := by
  unfold splitSign
  split
  · exact ⟨['-'], by simp [signs], rfl⟩
  · exact ⟨['+'], by simp [signs], rfl⟩
  · exact ⟨[], by simp [signs], rfl⟩

theorem splitPoint_append {integer : List Char} (hinteger : '.' ∉ integer) (fraction : List Char) :
    splitPoint (integer ++ '.' :: fraction) = (integer, fraction) := by
  have hall : ∀ c ∈ integer, decide (c ≠ '.') = true := by
    intro c hc
    exact decide_eq_true fun heq => hinteger (heq ▸ hc)
  unfold splitPoint
  rw [List.takeWhile_append_of_pos hall, List.dropWhile_append_of_pos hall]
  simp

theorem splitPoint_of_notMem {integer : List Char} (hinteger : '.' ∉ integer) :
    splitPoint integer = (integer, []) := by
  have hall : ∀ c ∈ integer, decide (c ≠ '.') = true := by
    intro c hc
    exact decide_eq_true fun heq => hinteger (heq ▸ hc)
  unfold splitPoint
  rw [List.takeWhile_eq_self_iff.mpr hall, List.dropWhile_eq_nil_iff.mpr hall]
  rfl

theorem splitPoint_cases (text : List Char) :
    text = (splitPoint text).1 ++ '.' :: (splitPoint text).2 ∨
      (splitPoint text).2 = [] ∧ text = (splitPoint text).1 := by
  have happ := List.takeWhile_append_dropWhile (p := fun c => decide (c ≠ '.')) (l := text)
  unfold splitPoint
  cases hdrop : text.dropWhile (fun c => decide (c ≠ '.')) with
  | nil =>
    right
    rw [hdrop, List.append_nil] at happ
    exact ⟨rfl, happ.symm⟩
  | cons c rest =>
    left
    have hc : c = '.' := by
      have hhead := List.head?_dropWhile_not (fun c => decide (c ≠ '.')) text
      rw [hdrop] at hhead
      simpa using hhead
    rw [hdrop, hc] at happ
    exact happ.symm

theorem Spells.point_notMem (h : n.Spells text) : '.' ∉ n.integer := by
  intro hmem
  exact absurd (h.isDigit '.' (List.mem_append_left _ hmem)) (by decide)

/-- What follows the sign of a numeral is a digit or the point. -/
theorem Spells.head_ne_sign {text body : List Char} (h : n.Spells text) (hbody : n.IsBody body) :
    ∀ c ∈ body.head?, c ≠ '-' ∧ c ≠ '+' := by
  intro c hc
  have hmem : c ∈ n.integer ∨ c = '.' := by
    rcases hbody with rfl | ⟨-, rfl⟩
    · cases hinteger : n.integer with
      | nil =>
        rw [hinteger] at hc
        exact .inr (Option.some.inj hc).symm
      | cons d integer =>
        rw [hinteger] at hc
        exact .inl (List.mem_of_mem_head? hc)
    · exact .inl (List.mem_of_mem_head? hc)
  rcases hmem with hmem | rfl
  · have hdigit := h.isDigit c (List.mem_append_left _ hmem)
    constructor <;> rintro rfl <;> exact absurd hdigit (by decide)
  · decide

theorem splitPoint_of_spelled {body : List Char} (hinteger : '.' ∉ n.integer)
    (hbody : n.IsBody body) :
    splitPoint body = (n.integer, n.fraction) := by
  rcases hbody with rfl | ⟨hfraction, rfl⟩
  · exact splitPoint_append hinteger _
  · rw [hfraction, splitPoint_of_notMem hinteger]

/-- A literal is read as the numeral that it spells, blanks around it left out. -/
theorem parse?_eq_some_iff : parse? text = some n ↔ n.Spells (trim text) := by
  generalize htrim : trim text = trimmed
  constructor
  · intro h
    obtain ⟨sign, hsign, htext⟩ := exists_sign trimmed
    have hpoint := splitPoint_cases (splitSign trimmed).2
    simp only [parse?, htrim] at h
    split at h
    · cases h
    next hlength =>
    split at h
    · next hdigits =>
      obtain rfl := Option.some.inj h
      simp only [Bool.and_eq_true, List.all_eq_true] at hdigits
      refine ⟨?_, ?_, sign, hsign, ?_⟩
      · intro c hc
        rcases List.mem_append.mp hc with hc | hc
        · exact hdigits.1 c hc
        · exact hdigits.2 c hc
      · -- with no digit at all the literal would have been rejected
        intro hnil
        exact hlength (by simpa [digits] using congrArg List.length hnil)
      · rcases hpoint with hpoint | ⟨hfraction, hpoint⟩
        · left
          rw [List.append_assoc, ← hpoint]
          exact htext
        · right
          exact ⟨hfraction, hpoint ▸ htext⟩
    · cases h
  · intro h
    obtain ⟨sign, hsign, body, hbody, rfl⟩ := h.exists_body
    have hlength : ¬n.integer.length + n.fraction.length = 0 := by
      rw [← List.length_append, List.length_eq_zero_iff]
      exact h.nonempty
    have hdigits : (n.integer.all Number.isDigit && n.fraction.all Number.isDigit) = true := by
      rw [← List.all_append, List.all_eq_true]
      exact h.isDigit
    -- a spelled numeral is taken apart at its sign and point in one way only
    simp only [parse?, htrim, splitSign_append hsign (h.head_ne_sign hbody),
      splitPoint_of_spelled h.point_notMem hbody, if_neg hlength, hdigits, if_true]

end Numeral

theorem readNumeral_eq_ok_iff {n : Numeral} :
    readNumeral literal = .ok n ↔ n.Spells (trim literal.toList) := by
  rw [← Numeral.parse?_eq_some_iff]
  refine ⟨readNumeral_ok, ?_⟩
  intro h
  rw [readNumeral, h]

theorem isNumber_iff : isNumber literal = true ↔ ∃ n : Numeral, n.Spells (trim literal.toList) := by
  simp only [isNumber, Option.isSome_iff_exists, Numeral.parse?_eq_some_iff]

theorem readNumeral_eq_error (h : isNumber literal = false) :
    readNumeral literal = .error .malformed := by
  rw [isNumber, Option.isSome_eq_false_iff, Option.isNone_iff_eq_none] at h
  rw [readNumeral, h]

end Number

/-! ### Aligning -/

/-- Why a picture refuses a numeral: the first reason that applies, in the order in which they are
listed. -/
inductive Picture.Refuses (p : Picture) (policy : FractionPolicy) (n : Numeral) : ValueError → Prop
  /-- A minus sign where the picture has no sign. -/
  | badSign (hnegative : n.negative = true) (hunsigned : ¬p.Signed) : Refuses p policy n .badSign
  /-- More fraction digits than places for them, none of which may be cut off. -/
  | excessFraction (hsign : n.negative = true → p.Signed) (hpolicy : policy = .reject)
      (hfraction : p.fractionPlaces < n.fraction.length) : Refuses p policy n .excessFraction
  /-- More integer digits than places for them. -/
  | tooBig (hsign : n.negative = true → p.Signed)
      (hfraction : policy = .reject → n.fraction.length ≤ p.fractionPlaces)
      (hinteger : p.integerPlaces < n.integer.length) : Refuses p policy n .tooBig
  /-- No digit is left, because all are fraction digits and there is no place for them. -/
  | noDigit (hsign : n.negative = true → p.Signed) (hpolicy : policy = .truncate)
      (hscale : p.fractionPlaces = 0) (hinteger : n.integer = []) : Refuses p policy n .malformed

/-- The numeral has the sign and the digits that the picture has room for, and one digit at least is
kept. -/
structure Picture.Takes (p : Picture) (policy : FractionPolicy) (n : Numeral) : Prop where
  sign : n.negative = true → p.Signed
  fraction : policy = .reject → n.fraction.length ≤ p.fractionPlaces
  integer : n.integer.length ≤ p.integerPlaces
  digit : n.integer = [] → 0 < p.fractionPlaces

theorem Layout.alignFraction_eq (scale : Nat) (fraction : List Char) :
    alignFraction scale fraction = (fraction ++ List.replicate scale '0').take scale := by
  rw [alignFraction, List.take_append, List.take_replicate, Nat.min_eq_left (Nat.sub_le _ _)]

@[simp] theorem Layout.length_alignFraction (scale : Nat) (fraction : List Char) :
    (alignFraction scale fraction).length = scale := by
  simp [alignFraction_eq]

namespace Picture

variable {p : Picture} {policy : FractionPolicy} {n : Numeral}

/-- The scaled value that a numeral has under a picture. -/
def aligned (p : Picture) (n : Numeral) : Int :=
  n.sign * ofDigits
    (n.integer ++ (n.fraction ++ List.replicate p.fractionPlaces '0').take p.fractionPlaces) *
    10 ^ (p.integerPlaces - n.integer.length)

instance : Decidable p.Signed :=
  inferInstanceAs (Decidable (_ = _))

/-- The checks in the order in which they are made, and the value behind them. -/
theorem align_layout (p : Picture) (policy : FractionPolicy) (n : Numeral) :
    p.layout.align policy n =
      if n.negative = true ∧ ¬p.Signed then .error .badSign
      else if policy = .reject ∧ p.fractionPlaces < n.fraction.length then .error .excessFraction
      else if p.integerPlaces < n.integer.length then .error .tooBig
      else if n.integer = [] ∧ p.fractionPlaces = 0 then .error .malformed
      else .ok (p.aligned n) := by
  have hsign : (n.negative && !p.layout.signed) = true ↔ n.negative = true ∧ ¬p.Signed := by
    simp [← signed_layout_iff]
  have hfraction : (decide (n.fraction.length > p.layout.scale) && decide (policy = .reject)) =
      true ↔ policy = .reject ∧ p.fractionPlaces < n.fraction.length := by
    simp [and_comm]
  have hlength : (n.integer ++ Layout.alignFraction p.layout.scale n.fraction).length =
      n.integer.length + p.fractionPlaces := by
    simp
  have htoo : (n.integer ++ Layout.alignFraction p.layout.scale n.fraction).length >
      p.layout.precision ↔ p.integerPlaces < n.integer.length := by
    rw [hlength, precision_layout_eq]
    omega
  have hempty : (n.integer ++ Layout.alignFraction p.layout.scale n.fraction).isEmpty = true ↔
      n.integer = [] ∧ p.fractionPlaces = 0 := by
    rw [List.isEmpty_iff, ← List.length_eq_zero_iff, hlength, ← List.length_eq_zero_iff]
    omega
  have hvalue :
      n.withSign (ofDigits (n.integer ++ Layout.alignFraction p.layout.scale n.fraction)) *
      (Nat.pow 10 (p.layout.precision - (n.integer ++
        Layout.alignFraction p.layout.scale n.fraction).length) : Nat) = p.aligned n := by
    rw [hlength, precision_layout_eq, Nat.add_sub_add_right, Numeral.withSign_eq,
      Layout.alignFraction_eq, scale_layout, Nat.pow_eq, aligned]
    push_cast
    rfl
  simp only [Layout.align, bind, Except.bind, pure, Except.pure, throw, throwThe,
    MonadExceptOf.throw]
  rw [hvalue]
  simp only [hsign, hfraction, htoo, hempty]

theorem Refuses.align_eq {e : ValueError} (h : p.Refuses policy n e) :
    p.layout.align policy n = .error e := by
  rw [align_layout]
  cases h with
  | badSign hnegative hunsigned => rw [if_pos ⟨hnegative, hunsigned⟩]
  | excessFraction hsign hpolicy hfraction =>
    rw [if_neg (by tauto), if_pos ⟨hpolicy, hfraction⟩]
  | tooBig hsign hfraction hinteger =>
    rw [if_neg (by tauto), if_neg (fun h => Nat.not_lt.mpr (hfraction h.1) h.2), if_pos hinteger]
  | noDigit hsign hpolicy hscale hinteger =>
    rw [if_neg (by tauto), if_neg (by simp [hpolicy]), if_neg (by simp [hinteger]),
      if_pos ⟨hinteger, hscale⟩]

theorem Takes.align_eq (h : p.Takes policy n) : p.layout.align policy n = .ok (p.aligned n) := by
  have hsign := h.sign
  rw [align_layout, if_neg (by tauto),
    if_neg (fun hexcess => Nat.not_lt.mpr (h.fraction hexcess.1) hexcess.2),
    if_neg (Nat.not_lt.mpr h.integer), if_neg fun hnone => (h.digit hnone.1).ne' hnone.2]

theorem takes_or_refuses (p : Picture) (policy : FractionPolicy) {n : Numeral}
    (hn : n.digits ≠ []) :
    p.Takes policy n ∨ ∃ e, p.Refuses policy n e := by
  by_cases hsign : n.negative = true → p.Signed
  swap
  · obtain ⟨hnegative, hunsigned⟩ := Classical.not_imp.mp hsign
    exact .inr ⟨_, .badSign hnegative hunsigned⟩
  by_cases hfraction : policy = .reject → n.fraction.length ≤ p.fractionPlaces
  swap
  · obtain ⟨hpolicy, hexcess⟩ := Classical.not_imp.mp hfraction
    exact .inr ⟨_, .excessFraction hsign hpolicy (Nat.lt_of_not_le hexcess)⟩
  rcases Nat.lt_or_ge p.integerPlaces n.integer.length with hinteger | hinteger
  · exact .inr ⟨_, .tooBig hsign hfraction hinteger⟩
  by_cases hdigit : n.integer = [] → 0 < p.fractionPlaces
  · exact .inl ⟨hsign, hfraction, hinteger, hdigit⟩
  · obtain ⟨hnone, hscale⟩ := Classical.not_imp.mp hdigit
    rw [Nat.pos_iff_ne_zero, ne_eq, Classical.not_not] at hscale
    -- where nothing may be cut off, the fraction digits are already too many
    have hpolicy : policy = .truncate := by
      cases policy with
      | truncate => rfl
      | reject =>
        have hle := hfraction rfl
        rw [hscale, Nat.le_zero, List.length_eq_zero_iff] at hle
        exact absurd (by simp [Numeral.digits, hnone, hle]) hn
    exact .inr ⟨_, .noDigit hsign hpolicy hscale hnone⟩

end Picture

/-! ### Defaults -/

namespace Comp4

variable {p : Picture} {text : String} {policy : FractionPolicy} {n : Numeral}

theorem decode_of_takes (hn : n.Spells (trim text.toList)) (h : p.Takes policy n) :
    decode (some p) (some text) policy = .ok { p.layout with value? := some (p.aligned n) } := by
  simp only [decode, ofPicture, readNumeral_eq_ok_iff.mpr hn, h.align_eq, bind, Except.bind, pure,
    Except.pure]

theorem decode_of_refuses {e : ValueError} (hn : n.Spells (trim text.toList))
    (h : p.Refuses policy n e) :
    decode (some p) (some text) policy = .error e := by
  simp only [decode, ofPicture, readNumeral_eq_ok_iff.mpr hn, h.align_eq, bind, Except.bind]

theorem decode_of_not_isNumber (h : isNumber text = false) :
    decode (some p) (some text) policy = .error .malformed := by
  simp only [decode, ofPicture, readNumeral_eq_error h, bind, Except.bind]

/-- What can become of a default. -/
theorem decode_cases (p : Picture) (text : String) (policy : FractionPolicy) :
    isNumber text = false ∨
      ∃ n : Numeral, n.Spells (trim text.toList) ∧
        (p.Takes policy n ∨ ∃ e, p.Refuses policy n e) := by
  cases hnumber : isNumber text with
  | false => exact .inl rfl
  | true =>
    obtain ⟨n, hn⟩ := isNumber_iff.mp hnumber
    exact .inr ⟨n, hn, p.takes_or_refuses policy hn.nonempty⟩

theorem exists_of_decode_ok {f : Comp4} (h : decode (some p) (some text) policy = .ok f) :
    ∃ n : Numeral, n.Spells (trim text.toList) ∧ p.Takes policy n ∧
      f = { p.layout with value? := some (p.aligned n) } := by
  rcases decode_cases p text policy with hnumber | ⟨n, hn, htakes | ⟨e, hrefuses⟩⟩
  · rw [decode_of_not_isNumber hnumber] at h
    cases h
  · rw [decode_of_takes hn htakes] at h
    exact ⟨n, hn, htakes, (Except.ok.inj h).symm⟩
  · rw [decode_of_refuses hn hrefuses] at h
    cases h

/-- The value of a default, and the shape of its field. The integer digits are aligned to the first
place of the picture, and the fraction digits are cut or filled up with zeros to the number of
places after the point; the number spelled by the digits that are left is the literal without its
point, divided and rounded down where digits are cut. Where nothing may be cut off, a default that
is taken has the value that it has where digits may be cut. -/
theorem decode_default_value {f : Comp4} (h : decode (some p) (some text) policy = .ok f) :
    (f.signed = true ↔ p.head?.map Segment.symbol = some 'S') ∧ f.scale = p.fractionPlaces ∧
      f.precision = p.integerPlaces + f.scale ∧
      (∃ n : Numeral, n.Spells (trim text.toList) ∧ n.integer.length ≤ p.integerPlaces ∧
        ∃ magnitude : Nat,
          magnitude =
            ofDigits (n.integer ++ (n.fraction ++ List.replicate f.scale '0').take f.scale) ∧
          magnitude = ofDigits n.digits * 10 ^ f.scale / 10 ^ n.fraction.length ∧
          f.value? = some (n.sign * magnitude * 10 ^ (p.integerPlaces - n.integer.length)) ∧
        (policy = .reject → n.fraction.length ≤ f.scale)) ∧
      (∀ v, f.value? = some v → v.natAbs < 10 ^ f.precision ∧ (v < 0 → f.signed = true)) ∧
      (policy = .reject → decode (some p) (some text) .truncate = .ok f) := by
  obtain ⟨n, hn, htakes, rfl⟩ := exists_of_decode_ok h
  have hinteger : ∀ c ∈ n.integer, isDigit c = true :=
    fun c hc => hn.isDigit c (List.mem_append_left _ hc)
  have hfraction : ∀ c ∈ n.fraction, isDigit c = true :=
    fun c hc => hn.isDigit c (List.mem_append_right _ hc)
  refine ⟨p.signed_layout_iff, p.scale_layout, ?_, ⟨n, hn, htakes.integer, _, rfl, ?_, ?_, ?_⟩, ?_,
    ?_⟩
  · rw [p.scale_layout, p.precision_layout_eq]
  · exact ofDigits_cut _ hfraction _
  · simp only [p.scale_layout, Picture.aligned]
  · intro hpolicy
    rw [p.scale_layout]
    exact htakes.fraction hpolicy
  · rintro _ ⟨rfl⟩
    exact Layout.align_ok hinteger hfraction htakes.align_eq
  · intro _
    exact decode_of_takes hn ⟨htakes.sign, by simp, htakes.integer, htakes.digit⟩

/-- Under `S9(3)V99`, the third fraction digit is dropped, and the others begin at the first of five
places. -/
theorem decode_default_value_cut :
    ∃ f, decode (some [⟨'S', 1⟩, ⟨'9', 3⟩, ⟨'V', 1⟩, ⟨'9', 2⟩]) (some " -1.256 ") .truncate =
      .ok f ∧ f.value? = some (-12500) ∧
      ∃ n : Numeral, n.Spells (trim " -1.256 ".toList) ∧ n.integer.length ≤ 3 ∧
        f.value? =
          some (n.sign * (ofDigits n.digits * 10 ^ f.scale / 10 ^ n.fraction.length : Nat) *
          10 ^ (3 - n.integer.length)) := by
  have hdecode : decode (some [⟨'S', 1⟩, ⟨'9', 3⟩, ⟨'V', 1⟩, ⟨'9', 2⟩]) (some " -1.256 ")
      .truncate = .ok ⟨⟨true, 5, 2⟩, some (-12500)⟩ := by
    rfl
  obtain ⟨-, -, -, ⟨n, hn, hinteger, magnitude, -, hmagnitude, hvalue, -⟩, -⟩ :=
    decode_default_value hdecode
  exact ⟨_, hdecode, rfl, n, hn, hinteger, hmagnitude ▸ hvalue⟩

/-- When a default is refused, and for which reason. A text that is not a number is malformed; a
number is refused for the first reason that applies to it, and taken if none does. -/
theorem decode_default_error_iff (p : Picture) (text : String) (policy : FractionPolicy) :
    (∀ e, decode (some p) (some text) policy = .error e ↔
      isNumber text = false ∧ e = .malformed ∨ ∃ n : Numeral, n.Spells (trim text.toList) ∧
        p.Refuses policy n e) ∧
    ((∃ f, decode (some p) (some text) policy = .ok f) ↔
      ∃ n : Numeral, n.Spells (trim text.toList) ∧ p.Takes policy n) := by
  constructor
  · intro e
    constructor
    · intro h
      rcases decode_cases p text policy with hnumber | ⟨n, hn, htakes | ⟨e', hrefuses⟩⟩
      · rw [decode_of_not_isNumber hnumber] at h
        exact .inl ⟨hnumber, (Except.error.inj h).symm⟩
      · rw [decode_of_takes hn htakes] at h
        cases h
      · rw [decode_of_refuses hn hrefuses] at h
        exact .inr ⟨n, hn, Except.error.inj h ▸ hrefuses⟩
    · rintro (⟨hnumber, rfl⟩ | ⟨n, hn, hrefuses⟩)
      · exact decode_of_not_isNumber hnumber
      · exact decode_of_refuses hn hrefuses
  · constructor
    · rintro ⟨f, h⟩
      obtain ⟨n, hn, htakes, -⟩ := exists_of_decode_ok h
      exact ⟨n, hn, htakes⟩
    · rintro ⟨n, hn, htakes⟩
      exact ⟨_, decode_of_takes hn htakes⟩

/-- A number can be malformed: `.5` has no digit to keep under the picture `9`. -/
theorem decode_fraction_only_malformed :
    isNumber ".5" = true ∧ decode (some [⟨'9', 1⟩]) (some ".5") .truncate = .error .malformed := by
  constructor <;> rfl

end Comp4

end CobolCompiler
