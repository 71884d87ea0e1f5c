import CobolCompiler.Proofs.Declaring
import CobolCompiler.Proofs.Literals
import CobolCompiler.Proofs.Meaning

/-!
# The values of defaults and literals

What a VALUE clause or a number literal stands for, said about the written text and not about the
code that reads it. `Denotes` gives the value for each usage: a string is taken as it is, a COMP-2
number is the double-precision number nearest to it, and a COMP-4 number is an integer with a
precision and a scale, which come from the picture, or from the digits of the literal where there
is no picture (`Comp4.Denotes`).

* The value that a field begins with is the one that its clauses denote
  (`Syntax.initial_ofNode_iff`).
* A literal that is passed to a COMP-2 parameter is read as a COMP-2 default, and any other as a
  COMP-4 default without a picture (`Syntax.literal_of_denotes`).
-/

namespace CobolCompiler

open Text (trim)
open Number Machine Generation

variable {policy : FractionPolicy} {text : String} {v : Value}

/-! ### Fixed-point numbers -/

/-- The fixed-point number that a picture and a literal stand for. A picture decides about the
digits if there is one, and without a literal the number is zero. -/
inductive Comp4.Denotes (policy : FractionPolicy) :
    Option Picture → Option String → FixedPoint → Prop
  | digit : Denotes policy none none ⟨1, 0, 0⟩
  | zero (p : Picture) :
      Denotes policy (some p) none ⟨p.integerPlaces + p.fractionPlaces, p.fractionPlaces, 0⟩
  | literal {text : String} {n : Numeral} (hn : n.Spells (trim text.toList))
      (hshort : n.digits.length ≤ 18) :
      Denotes policy none (some text) ⟨n.digits.length, n.fraction.length, n.value⟩
  | aligned {p : Picture} {text : String} {n : Numeral} (hn : n.Spells (trim text.toList))
      (htakes : p.Takes policy n) :
      Denotes policy (some p) (some text)
        ⟨p.integerPlaces + p.fractionPlaces, p.fractionPlaces, p.aligned n⟩

namespace Comp4

/-- Without a picture, it is the number that the literal is decoded to. -/
theorem denotes_literal_iff {x : FixedPoint} :
    Denotes policy none (some text) x ↔ FixedPoint.ofLiteral text = .ok x := by
  constructor
  · intro h
    cases h with
    | literal hn hshort => rw [ofLiteral_of_spells hn, if_neg (Nat.not_lt.mpr hshort)]
  · intro h
    have hdecimal : IsDecimal (trim text.toList) := by
      by_contra hnot
      rw [ofLiteral_of_not_isDecimal hnot] at h
      cases h
    obtain ⟨n, hn⟩ := Numeral.isDecimal_iff.mp hdecimal
    rw [ofLiteral_of_spells hn] at h
    split at h
    · cases h
    · next hshort =>
      obtain rfl := Except.ok.inj h
      exact .literal hn (Nat.not_lt.mp hshort)

theorem denotes_of_decode {picture? : Option Picture} {literal? : Option String} {storage : Comp4}
    (h : decode picture? literal? policy = .ok storage) :
    Denotes policy picture? literal? storage.initialValue := by
  cases picture? with
  | none =>
    cases literal? with
    | none =>
      obtain rfl := Except.ok.inj h
      exact .digit
    | some text =>
      obtain ⟨fixed, hfixed, hstorage⟩ := exists_of_bind_ok h
      obtain rfl := Except.ok.inj hstorage
      exact denotes_literal_iff.mpr hfixed
  | some p =>
    cases literal? with
    | none =>
      obtain rfl := Except.ok.inj h
      simp only [initialValue, p.precision_layout_eq, p.scale_layout, Option.getD_none]
      exact .zero p
    | some text =>
      obtain ⟨n, hn, htakes, rfl⟩ := exists_of_decode_ok h
      simp only [initialValue, p.precision_layout_eq, p.scale_layout, Option.getD_some]
      exact .aligned hn htakes

theorem decode_of_denotes {picture? : Option Picture} {literal? : Option String} {x : FixedPoint}
    (h : Denotes policy picture? literal? x) :
    ∃ storage, decode picture? literal? policy = .ok storage ∧ storage.initialValue = x := by
  cases h with
  | digit => exact ⟨plain, rfl, rfl⟩
  | zero p =>
    refine ⟨_, rfl, ?_⟩
    simp only [initialValue, p.precision_layout_eq, p.scale_layout, Option.getD_none]
  | @literal text n hn hshort =>
    have hx :=
      denotes_literal_iff.mp (show Denotes policy none (some text) _ from .literal hn hshort)
    refine ⟨{ signed := (Text.trimLeft text.toList).head? = some '-', precision := _, scale := _,
              value? := some n.value }, ?_, rfl⟩
    rw [decode, ofLiteral, hx]
    rfl
  | @aligned p text n hn htakes =>
    refine ⟨_, decode_of_takes hn htakes, ?_⟩
    simp only [initialValue, p.precision_layout_eq, p.scale_layout, Option.getD_some]

end Comp4

/-- The storage of a COMP-4 field that was read is decoded from its picture and its default. -/
theorem Declaration.exists_storage {home : Section} {n : Node} {field : Field}
    (h : readField policy home n = .ok field) (husage : field.usage = .comp4) :
    ∃ storage literal?, field.comp4? = some storage ∧ field.default? = literal?.map .number ∧
      Comp4.decode field.picture? literal? policy = .ok storage := by
  unfold readField at h
  obtain ⟨-, -, h⟩ := exists_of_bind_ok h
  obtain ⟨comp4?, hcheck, h⟩ := exists_of_bind_ok h
  obtain rfl := Except.ok.inj h
  rw [checkUsage, show (Clauses.ofNode n).usage = .comp4 from husage] at hcheck
  obtain ⟨storage, hstorage, hsome⟩ := exists_of_bind_ok hcheck
  obtain rfl := Except.ok.inj hsome
  obtain ⟨-, literal?, hdefault, hdecode⟩ := exists_decode_of_checkComp4 hstorage
  exact ⟨storage, literal?.map (·.1), rfl, comp4Default_ok hdefault, hdecode⟩

/-! ### Values -/

/-- The value that a default stands for in a field of some usage, which may have a picture. -/
inductive Denotes (policy : FractionPolicy) (picture? : Option Picture) :
    Usage → Option DefaultValue → Value → Prop
  | text (text : String) : Denotes policy picture? .display (some (.string text)) (.display text)
  | noText : Denotes policy picture? .display none (.display "")
  | any : Denotes policy picture? .any none (.display "")
  | float {text : String} {n : Numeral} (hn : n.Spells (trim text.toList)) :
      Denotes policy picture? .comp2 (some (.number text)) (.comp2 (Binary64.ofNumeral n))
  | noFloat : Denotes policy picture? .comp2 none (.comp2 Binary64.zero)
  | fixed {literal? : Option String} {x : FixedPoint}
      (h : Comp4.Denotes policy picture? literal? x) :
      Denotes policy picture? .comp4 (literal?.map .number) (fixedValue x)

namespace Generation

theorem floatValue?_of_spells {numeral : Numeral} (h : numeral.Spells (trim text.toList)) :
    floatValue? text = some (.comp2 (Binary64.ofNumeral numeral)) := by
  rw [floatValue?, Numeral.parse?_eq_some_iff.mpr h, Option.map_some]

theorem floatValue?_eq_none (h : isNumber text = false) : floatValue? text = none := by
  have hnone : Numeral.parse? text.toList = none := by simpa [isNumber] using h
  rw [floatValue?, hnone, Option.map_none]

/-- The initial value of a field that was read is the one that its clauses denote. -/
theorem initialValue?_eq_some_iff {home : Section} {n : Node} {field : Field}
    (h : Declaration.readField policy home n = .ok field) :
    initialValue? field = some v ↔ Denotes policy field.picture? field.usage field.default? v := by
  obtain ⟨-, -, htype?, -⟩ := Declaration.readField_ok h
  have htype : field.type = field.usage := by rw [Field.type, htype?, Option.getD_none]
  have hvalid := Declaration.valid_readField h
  rw [initialValue?, htype]
  cases husage : field.usage with
  | display =>
    cases hdefault : field.default? with
    | none => exact ⟨fun hv => Option.some.inj hv ▸ .noText, fun hv => by cases hv; rfl⟩
    | some value =>
      obtain ⟨text, rfl⟩ := hvalid.display_default husage value hdefault
      exact ⟨fun hv => Option.some.inj hv ▸ .text text, fun hv => by cases hv; rfl⟩
  | any =>
    rw [(hvalid.any_linkage husage).2]
    exact ⟨fun hv => Option.some.inj hv ▸ .any, fun hv => by cases hv; rfl⟩
  | comp2 =>
    cases hdefault : field.default? with
    | none => exact ⟨fun hv => Option.some.inj hv ▸ .noFloat, fun hv => by cases hv; rfl⟩
    | some value =>
      obtain ⟨text, rfl, hnumber⟩ := hvalid.numeric_default (.inl husage) value hdefault
      obtain ⟨numeral, hnumeral⟩ := isNumber_iff.mp hnumber
      constructor
      · intro hv
        simp only [floatValue?_of_spells hnumeral, Option.getD_some] at hv
        exact Option.some.inj hv ▸ .float hnumeral
      · intro hv
        cases hv with
        | float hn => simp only [floatValue?_of_spells hn, Option.getD_some]
  | comp4 =>
    obtain ⟨storage, literal?, hstorage, hdefault, hdecode⟩ :=
      Declaration.exists_storage h husage
    rw [hstorage, hdefault]
    constructor
    · intro hv
      exact Option.some.inj hv ▸ .fixed (Comp4.denotes_of_decode hdecode)
    · intro hv
      generalize hsame : literal?.map DefaultValue.number = default? at hv
      cases hv with
      | fixed hx =>
        obtain rfl := Option.map_injective (fun _ _ => DefaultValue.number.inj) hsame
        obtain ⟨storage', hdecode', rfl⟩ := Comp4.decode_of_denotes hx
        rw [hdecode] at hdecode'
        obtain rfl := Except.ok.inj hdecode'
        rfl

/-- A number literal is read as a default of COMP-2, or of COMP-4 without a picture. -/
theorem literalValue_eq_ok_iff {usage : Usage} :
    literalValue (some usage) text = .ok v ↔
      Denotes policy none (if usage = .comp2 then .comp2 else .comp4) (some (.number text)) v := by
  by_cases husage : usage = .comp2
  · subst husage
    rw [if_pos rfl, literalValue]
    constructor
    · intro hv
      cases hnumber : isNumber text with
      | false =>
        rw [floatValue?_eq_none hnumber] at hv
        cases hv
      | true =>
        obtain ⟨n, hn⟩ := isNumber_iff.mp hnumber
        rw [floatValue?_of_spells hn] at hv
        exact Except.ok.inj hv ▸ .float hn
    · intro hv
      cases hv with
      | float hn => rw [floatValue?_of_spells hn]
  · rw [if_neg husage]
    constructor
    · intro hv
      have hx : ∃ x, FixedPoint.ofLiteral text = .ok x ∧ fixedValue x = v := by
        cases usage <;> simp only [literalValue] at hv <;> split at hv <;> simp_all
      obtain ⟨x, hx, rfl⟩ := hx
      exact .fixed (Comp4.denotes_literal_iff.mpr hx)
    · intro hv
      generalize hsame : some (DefaultValue.number text) = default? at hv
      cases hv with
      | @fixed literal? x hx =>
        obtain ⟨_, rfl, hnumber⟩ := Option.map_eq_some_iff.mp hsame.symm
        obtain rfl := DefaultValue.number.inj hnumber
        have hx := Comp4.denotes_literal_iff.mp hx
        cases usage <;> first | exact absurd rfl husage | simp only [literalValue, hx]

end Generation

namespace Syntax

/-- The field that an accepted declaration declares begins with what its clauses denote. -/
theorem initial_ofNode_iff {home : Section} {n : Node} {field : CobolCompiler.Field}
    (h : Declaration.readField policy home n = .ok field) :
    (Field.ofNode policy home n).initial = v ↔
      Denotes policy field.picture? field.usage field.default? v := by
  obtain ⟨-, -, htype?, -, hcomp4⟩ := Declaration.readField_ok h
  have htype : field.type = field.usage := by
    rw [CobolCompiler.Field.type, htype?, Option.getD_none]
  obtain ⟨w, hw⟩ := Option.isSome_iff_exists.mp (Declaration.initialValue?_isSome htype hcomp4)
  rw [← initialValue?_eq_some_iff h, Field.ofNode, h]
  simp [Except.toOption, hw]

/-- A literal that can be read has the value that it denotes. -/
theorem literal_of_denotes {usage : Usage}
    (h : Denotes policy none (if usage = .comp2 then .comp2 else .comp4) (some (.number text)) v) :
    literal usage text = v := by
  rw [literal, literalValue_eq_ok_iff.mpr h]
  rfl

end Syntax

end CobolCompiler
