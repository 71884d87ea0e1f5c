import CobolCompiler.Proofs.Reachable
import Mathlib.Data.List.Induction
import Mathlib.Tactic.Linarith

/-!
# The clauses of declared fields

A declaration is checked before its field is entered into the scope, and the field is never changed
afterwards but for the type that is looked up. So the rules that level, picture, usage and default
of a field have to follow hold of every field of every session (`Session.reachable_fields_valid`),
also of those that an aborted compilation leaves behind.

`Field.Valid` says what the rules are. The rules of a COMP-4 field are about numbers: how many
digits a picture declares and which values fit into them (`Comp4.Valid`).
-/

namespace CobolCompiler

open Number Text

variable {literal : String} {policy : FractionPolicy}

/-! ### Checks that pass -/

section except

variable {ε ε' α β : Type}

theorem exists_of_bind_ok {x : Except ε α} {f : α → Except ε β} {b : β} (h : (x >>= f) = .ok b) :
    ∃ a, x = .ok a ∧ f a = .ok b := by
  cases x with
  | error e => cases h
  | ok a => exact ⟨a, rfl, h⟩

theorem ok_of_mapError_ok {f : ε → ε'} {x : Except ε α} {a : α} (h : x.mapError f = .ok a) :
    x = .ok a := by
  cases x with
  | error e => cases h
  | ok b => exact congrArg Except.ok (Except.ok.inj h)

end except

/-! ### Pictures -/

namespace Picture

/-- No two adjacent segments have the same character. -/
def Merged (p : Picture) : Prop :=
  p.IsChain fun s t => s.symbol ≠ t.symbol

theorem merged_absorb (s : Segment) {p : Picture} (h : p.Merged) : (absorb s p).Merged := by
  cases p with
  | nil => exact .singleton s
  | cons t rest =>
    by_cases heq : s.symbol = t.symbol
    · -- the joined segment has the character that the rest was compared with
      rw [absorb, if_pos heq]
      cases rest with
      | nil => exact .singleton _
      | cons u rest =>
        obtain ⟨hne, hrest⟩ := List.isChain_cons_cons.mp h
        exact List.isChain_cons_cons.mpr ⟨heq ▸ hne, hrest⟩
    · rw [absorb, if_neg heq]
      exact List.isChain_cons_cons.mpr ⟨heq, h⟩

theorem merged_merge (p : Picture) : p.merge.Merged := by
  induction p with
  | nil => exact .nil
  | cons s p ih => exact merged_absorb s ih

theorem count_cons (c : Char) (s : Segment) (p : Picture) :
    count c (s :: p) = (if s.symbol = c then s.size else 0) + count c p := by
  unfold count
  by_cases h : s.symbol = c <;> simp [h]

/-- Every place for a digit stands on one side of the point. -/
theorem digitPlaces_add (after : Bool) (p : Picture) :
    (digitPlaces after p).1 + (digitPlaces after p).2 = p.count '9' := by
  induction p generalizing after with
  | nil => rfl
  | cons s rest ih =>
    have hrest := ih (after || s.symbol = 'V')
    rw [count_cons, ← hrest]
    by_cases hnine : s.symbol = '9'
    · cases after <;> simp [digitPlaces, hnine] <;> omega
    · simp [digitPlaces, hnine]

theorem precision_layout (p : Picture) : p.layout.precision = p.count '9' :=
  digitPlaces_add false p

theorem scale_layout_le (p : Picture) : p.layout.scale ≤ p.layout.precision :=
  Nat.le_add_left _ _

end Picture

/-! ### Numerals -/

namespace Number

variable {n : Numeral}

theorem digitValue_lt {c : Char} (h : isDigit c = true) : digitValue c < 10 := by
  simp only [isDigit, Bool.and_eq_true, decide_eq_true_eq] at h
  have hle : c.toNat ≤ '9'.toNat := h.2
  have hnine : '9'.toNat = 57 := rfl
  have hzero : '0'.toNat = 48 := rfl
  unfold digitValue
  omega

/-- A row of digits spells a number of at most that many digits. -/
theorem ofDigits_lt {digits : List Char} (h : ∀ c ∈ digits, isDigit c = true) :
    ofDigits digits < 10 ^ digits.length := by
  induction digits using List.reverseRecOn with
  | nil => simp
  | append_singleton digits c ih =>
    have hdigits := ih fun d hd => h d (List.mem_append_left _ hd)
    have hc := digitValue_lt (h c (by simp))
    rw [ofDigits_concat, List.length_append, List.length_singleton, Nat.pow_succ]
    omega

/-- A numeral that has been read consists of digits, and it is negative only if a minus sign comes
first. -/
theorem parse?_some {text : List Char} (h : Numeral.parse? text = some n) :
    (∀ c ∈ n.integer, isDigit c = true) ∧ (∀ c ∈ n.fraction, isDigit c = true) ∧
      (n.negative = true → (trimLeft text).head? = some '-') := by
  simp only [Numeral.parse?] at h
  split at h
  · cases h
  · split at h
    · next hdigits =>
      simp only [Bool.and_eq_true, List.all_eq_true] at hdigits
      obtain rfl := Option.some.inj h
      refine ⟨hdigits.1, hdigits.2, ?_⟩
      intro hnegative
      have hhead : (trim text).head? = some '-' := by
        generalize trim text = trimmed at hnegative
        unfold Numeral.splitSign at hnegative
        split at hnegative
        · rfl
        · cases hnegative
        · cases hnegative
      -- what is cut off at the end does not change the first character
      have hcut : (trim text) <+: trimLeft text := by
        rw [← List.reverse_suffix]
        simpa [trim, trimRight] using List.dropWhile_suffix isBlank
      obtain ⟨rest, hrest⟩ := hcut
      obtain ⟨tail, htail⟩ := List.head?_eq_some_iff.mp hhead
      rw [← hrest, htail]
      rfl
    · cases h

theorem readNumeral_ok (h : readNumeral literal = .ok n) :
    Numeral.parse? literal.toList = some n := by
  unfold readNumeral at h
  split at h
  · next hparse =>
    rw [hparse, Except.ok.inj h]
  · cases h

theorem isNumber_of_readNumeral (h : readNumeral literal = .ok n) : isNumber literal = true := by
  rw [isNumber, readNumeral_ok h]
  rfl

theorem Numeral.negative_of_withSign_neg {magnitude : Nat} (h : n.withSign magnitude < 0) :
    n.negative = true := by
  unfold withSign at h
  split at h
  · assumption
  · omega

end Number

/-! ### COMP-4 fields -/

/-- The shape of a COMP-4 field is one that can be stored, and its value fits into it. -/
structure Comp4.Valid (c : Comp4) : Prop where
  precision_le : c.precision ≤ 18
  scale_le : c.scale ≤ c.precision
  value_lt : ∀ v, c.value? = some v → v.natAbs < 10 ^ c.precision
  signed : ∀ v, c.value? = some v → v < 0 → c.signed = true

/-- An aligned value has at most the digits of the layout, and is negative only where there is a
sign. -/
theorem Layout.align_ok {layout : Layout} {n : Numeral} {v : Int}
    (hinteger : ∀ c ∈ n.integer, isDigit c = true)
    (hfraction : ∀ c ∈ n.fraction, isDigit c = true) (h : layout.align policy n = .ok v) :
    v.natAbs < 10 ^ layout.precision ∧ (v < 0 → layout.signed = true) := by
  -- each check that fails ends in an error, so only the value is left
  simp only [align, bind, Except.bind, pure, Except.pure] at h
  split at h
  · cases h
  next hsign =>
  split at h
  · cases h
  split at h
  · cases h
  next hlength =>
  split at h
  · cases h
  obtain rfl := Except.ok.inj h
  have hdigits : ∀ c ∈ n.integer ++ alignFraction layout.scale n.fraction, isDigit c = true := by
    intro c hc
    simp only [alignFraction, List.mem_append, List.mem_replicate] at hc
    rcases hc with hc | hc | ⟨-, rfl⟩
    · exact hinteger c hc
    · exact hfraction c (List.mem_of_mem_take hc)
    · rfl
  generalize n.integer ++ alignFraction layout.scale n.fraction = digits at hlength hdigits
  have hlt := ofDigits_lt hdigits
  constructor
  · calc (n.withSign (ofDigits digits) * (Nat.pow 10 (layout.precision - digits.length) :
      Nat)).natAbs = ofDigits digits * 10 ^ (layout.precision - digits.length) := by
          rw [Int.natAbs_mul, Numeral.natAbs_withSign, Int.natAbs_natCast, Nat.pow_eq]
      _ < 10 ^ digits.length * 10 ^ (layout.precision - digits.length) :=
          Nat.mul_lt_mul_of_pos_right hlt (by positivity)
      _ = 10 ^ layout.precision := by
          rw [← Nat.pow_add]
          congr 1
          omega
  · intro hneg
    have hpos : (0 : Int) < (Nat.pow 10 (layout.precision - digits.length) : Nat) := by
      rw [Nat.pow_eq]
      positivity
    have hnegative := Numeral.negative_of_withSign_neg (neg_of_mul_neg_left hneg hpos.le)
    simpa [hnegative] using hsign

namespace Comp4

variable {c : Comp4}

theorem valid_plain : plain.Valid where
  precision_le := by decide
  scale_le := by decide
  value_lt := fun _ hv => by cases hv
  signed := fun _ hv => by cases hv

theorem valid_ofLiteral (h : ofLiteral literal = .ok c) :
    c.Valid ∧ isNumber literal = true ∧ c.value?.isSome := by
  obtain ⟨fixed, hfixed, h⟩ := exists_of_bind_ok h
  obtain ⟨n, hread, hfixed⟩ := exists_of_bind_ok hfixed
  split at hfixed
  · cases hfixed
  next hlength =>
  obtain rfl := Except.ok.inj hfixed
  obtain rfl := Except.ok.inj h
  obtain ⟨hinteger, hfraction, hsign⟩ := parse?_some (readNumeral_ok hread)
  have hdigits : ∀ c ∈ n.digits, isDigit c = true := by
    intro c hc
    rcases List.mem_append.mp hc with hc | hc
    · exact hinteger c hc
    · exact hfraction c hc
  refine ⟨⟨Nat.le_of_not_lt hlength, ?_, ?_, ?_⟩, isNumber_of_readNumeral hread, rfl⟩
  · simp [Numeral.digits]
  · rintro _ ⟨rfl⟩
    rw [Numeral.value, Numeral.natAbs_withSign]
    exact ofDigits_lt hdigits
  · rintro _ ⟨rfl⟩ hneg
    exact decide_eq_true (hsign (Numeral.negative_of_withSign_neg hneg))

theorem valid_ofPicture {picture : Picture} {literal? : Option String}
    (hcount : picture.count '9' ≤ 18) (h : ofPicture picture literal? policy = .ok c) :
    c.Valid ∧ (∀ literal, literal? = some literal → isNumber literal = true) ∧
      (c.value?.isSome ↔ literal?.isSome) := by
  have hprecision := picture.precision_layout
  have hscale := picture.scale_layout_le
  cases literal? with
  | none =>
    obtain rfl := Except.ok.inj h
    exact ⟨⟨hprecision.trans_le hcount, hscale, by simp, by simp⟩, by simp, Iff.rfl⟩
  | some literal =>
    obtain ⟨n, hread, h⟩ := exists_of_bind_ok h
    obtain ⟨v, halign, h⟩ := exists_of_bind_ok h
    obtain rfl := Except.ok.inj h
    obtain ⟨hinteger, hfraction, -⟩ := parse?_some (readNumeral_ok hread)
    obtain ⟨hlt, hsigned⟩ := Layout.align_ok hinteger hfraction halign
    refine ⟨⟨hprecision.trans_le hcount, hscale, ?_, ?_⟩, ?_, by simp⟩
    · rintro _ ⟨rfl⟩
      exact hlt
    · rintro _ ⟨rfl⟩
      exact hsigned
    · rintro _ ⟨rfl⟩
      exact isNumber_of_readNumeral hread

/-- What is decoded is valid if the picture has no more than eighteen digits; it has a value if
there is a default. -/
theorem valid_decode {picture? : Option Picture} {literal? : Option String}
    (hcount : ∀ p, picture? = some p → p.count '9' ≤ 18)
    (h : decode picture? literal? policy = .ok c) :
    c.Valid ∧ (∀ literal, literal? = some literal → isNumber literal = true) ∧
      (c.value?.isSome ↔ literal?.isSome) := by
  cases picture? with
  | some picture => exact valid_ofPicture (hcount picture rfl) h
  | none =>
    cases literal? with
    | none =>
      obtain rfl := Except.ok.inj h
      exact ⟨valid_plain, by simp, Iff.rfl⟩
    | some literal =>
      obtain ⟨hvalid, hnumber, hvalue⟩ := valid_ofLiteral h
      refine ⟨hvalid, ?_, by simp [hvalue]⟩
      rintro _ ⟨rfl⟩
      exact hnumber

end Comp4

/-! ### Fields -/

/-- The clauses of a field agree with its usage and with each other. -/
structure Field.Valid (f : Field) : Prop where
  level : 1 ≤ f.level ∧ f.level ≤ 77
  type : f.type? = none ∨ f.type? = some f.usage
  merged : ∀ p, f.picture? = some p → p.Merged
  comp4_iff : f.comp4?.isSome ↔ f.usage = .comp4
  no_picture : f.usage = .comp2 ∨ f.usage = .any → f.picture? = none
  any_linkage : f.usage = .any → f.home = .linkage ∧ f.default? = none
  display_default : f.usage = .display → ∀ v, f.default? = some v → ∃ text, v = .string text
  numeric_default : f.usage = .comp2 ∨ f.usage = .comp4 →
    ∀ v, f.default? = some v → ∃ text, v = .number text ∧ isNumber text = true
  comp4 : ∀ c, f.comp4? = some c → c.Valid ∧ (c.value?.isSome ↔ f.default?.isSome)

namespace Declaration

variable {policy : FractionPolicy} {home : Section} {c : Clauses}

theorem forbidPicture_ok (h : forbidPicture c = .ok ()) : c.picture? = none := by
  unfold forbidPicture at h
  split at h
  · cases h
  · assumption

theorem checkComp2_ok (h : checkComp2 c = .ok ()) :
    c.picture? = none ∧ ∀ v, c.default?.map (·.1) = some v → ∃ text, v = .number text ∧
      isNumber text = true := by
  unfold checkComp2 at h
  obtain ⟨_, hpicture, h⟩ := exists_of_bind_ok h
  refine ⟨forbidPicture_ok hpicture, ?_⟩
  intro v hv
  obtain ⟨⟨value, location⟩, hdefault, rfl⟩ := Option.map_eq_some_iff.mp hv
  rw [hdefault] at h
  cases value with
  | string text => cases h
  | number text =>
    refine ⟨text, rfl, ?_⟩
    by_contra hnumber
    have hbad : isFloatLiteral text = false := by simp [isFloatLiteral, hnumber]
    simp only [hbad] at h
    cases h

theorem checkDisplay_ok (h : checkDisplay c = .ok ()) :
    ∀ v, c.default?.map (·.1) = some v → ∃ text, v = .string text := by
  intro v hv
  obtain ⟨⟨value, location⟩, hdefault, rfl⟩ := Option.map_eq_some_iff.mp hv
  unfold checkDisplay at h
  rw [hdefault] at h
  cases value with
  | string text => exact ⟨text, rfl⟩
  | number text => cases h

theorem checkAny_ok (h : checkAny home c = .ok ()) :
    c.picture? = none ∧ c.default? = none ∧ home = .linkage := by
  unfold checkAny at h
  obtain ⟨_, hpicture, h⟩ := exists_of_bind_ok h
  cases hdefault : c.default? with
  | some value => rw [hdefault] at h; cases h
  | none =>
    rw [hdefault] at h
    cases home with
    | workingStorage => cases h
    | linkage => exact ⟨forbidPicture_ok hpicture, rfl, rfl⟩

theorem checkPicture_ok {name : String} {p : Picture} (h : checkPicture name p = .ok ()) :
    p.count '9' ≤ 18 := by
  by_contra hcount
  have hmany : p.count '9' > maxDigits := Nat.lt_of_not_le hcount
  simp only [checkPicture, hmany, if_true] at h
  split at h
  · cases h
  · split at h
    · cases h
    · split at h <;> cases h

/-- A default that a COMP-4 field can have is a number. -/
theorem comp4Default_ok {literal? : Option (String × Location)}
    (h : comp4Default c = .ok literal?) :
    c.default?.map (·.1) = (literal?.map (·.1)).map .number := by
  unfold comp4Default at h
  split at h
  · cases h
  · next hdefault =>
    obtain rfl := Except.ok.inj h
    rw [hdefault]
    rfl
  · next hdefault =>
    obtain rfl := Except.ok.inj h
    rw [hdefault]
    rfl

/-- The storage of a COMP-4 field is decoded from its picture and its default. A field without a
picture has no nines to count. -/
theorem exists_decode_of_checkComp4 {storage : Comp4} (h : checkComp4 policy c = .ok storage) :
    (∀ p, c.picture?.map (·.1) = some p → p.count '9' ≤ 18) ∧
      ∃ literal?, comp4Default c = .ok literal? ∧
      Comp4.decode (c.picture?.map (·.1)) (literal?.map (·.1)) policy = .ok storage := by
  unfold checkComp4 at h
  split at h
  · next picture location hpicture =>
    obtain ⟨_, hcheck, h⟩ := exists_of_bind_ok h
    obtain ⟨literal?, hdefault, h⟩ := exists_of_bind_ok h
    refine ⟨?_, literal?, hdefault, ok_of_mapError_ok h⟩
    rw [hpicture]
    rintro _ ⟨rfl⟩
    exact checkPicture_ok (ok_of_mapError_ok hcheck)
  · next hnone =>
    obtain ⟨literal?, hdefault, h⟩ := exists_of_bind_ok h
    refine ⟨?_, literal?, hdefault, ok_of_mapError_ok h⟩
    intro p hp
    obtain ⟨⟨picture, location⟩, hpicture, rfl⟩ := Option.map_eq_some_iff.mp hp
    exact absurd hpicture (hnone picture location)

theorem checkComp4_ok {storage : Comp4} (h : checkComp4 policy c = .ok storage) :
    storage.Valid ∧ (storage.value?.isSome ↔ c.default?.isSome) ∧
      ∀ v, c.default?.map (·.1) = some v → ∃ text, v = .number text ∧ isNumber text = true := by
  obtain ⟨hcount, literal?, hdefault, hdecode⟩ := exists_decode_of_checkComp4 h
  obtain ⟨hvalid, hnumber, hvalue⟩ := Comp4.valid_decode hcount hdecode
  have hmap := comp4Default_ok hdefault
  have hsome : c.default?.isSome = (literal?.map (·.1)).isSome := by
    simpa using congrArg Option.isSome hmap
  refine ⟨hvalid, by rw [hvalue, hsome], ?_⟩
  intro v hv
  rw [hmap] at hv
  obtain ⟨text, htext, rfl⟩ := Option.map_eq_some_iff.mp hv
  exact ⟨text, rfl, hnumber text htext⟩

theorem checkLevel_ok (h : checkLevel c = .ok ()) :
    1 ≤ (c.level?.map (·.1)).getD 1 ∧ (c.level?.map (·.1)).getD 1 ≤ 77 := by
  unfold checkLevel at h
  split at h
  · next hlevel =>
    split at h
    · next hbounds => simpa [hlevel] using hbounds
    · cases h
  · next hlevel => simp [hlevel]

theorem merged_pictureOf? {n : Node} {found : Picture × Location} (h : pictureOf? n = some found) :
    found.1.Merged := by
  unfold pictureOf? at h
  split at h
  · next picture _ =>
    obtain rfl := Option.some.inj h
    exact picture.merged_merge
  · cases h

/-- A declaration that passes its checks gives a valid field. -/
theorem valid_readField {n : Node} {field : Field} (h : readField policy home n = .ok field) :
    field.Valid := by
  unfold readField at h
  obtain ⟨_, hlevel, h⟩ := exists_of_bind_ok h
  obtain ⟨comp4?, husage, h⟩ := exists_of_bind_ok h
  obtain rfl := Except.ok.inj h
  have hmerged : ∀ p, (Clauses.ofNode n).picture?.map (·.1) = some p → p.Merged := by
    intro p hp
    obtain ⟨found, hfound, rfl⟩ := Option.map_eq_some_iff.mp hp
    obtain ⟨clause, -, hclause⟩ := List.exists_of_findSome?_eq_some hfound
    exact merged_pictureOf? hclause
  have hbounds := checkLevel_ok hlevel
  generalize Clauses.ofNode n = c at hlevel husage hmerged hbounds
  unfold checkUsage at husage
  -- what is left to show depends on the usage, which decides which checks were made
  split at husage
  · next hcomp2 =>
    obtain ⟨_, hcheck, hnone⟩ := exists_of_bind_ok husage
    obtain rfl := Except.ok.inj hnone
    obtain ⟨hpicture, hdefault⟩ := checkComp2_ok hcheck
    constructor <;> simp_all
  · next hcomp4 =>
    obtain ⟨storage, hcheck, hsome⟩ := exists_of_bind_ok husage
    obtain rfl := Except.ok.inj hsome
    obtain ⟨hvalid, hvalue, hdefault⟩ := checkComp4_ok hcheck
    constructor <;> simp_all
  · next hdisplay =>
    obtain ⟨_, hcheck, hnone⟩ := exists_of_bind_ok husage
    obtain rfl := Except.ok.inj hnone
    have hdefault := checkDisplay_ok hcheck
    constructor <;> simp_all
  · next hany =>
    obtain ⟨_, hcheck, hnone⟩ := exists_of_bind_ok husage
    obtain rfl := Except.ok.inj hnone
    obtain ⟨hpicture, hdefault, hhome⟩ := checkAny_ok hcheck
    constructor <;> simp_all

end Declaration

/-! ### Sessions -/

theorem Field.Valid.setType {f : Field} (h : f.Valid) : Valid { f with type? := some f.usage } :=
  { h with type := Or.inr rfl }

theorem Field.valid_default : Valid default := by
  constructor <;> simp [default]

/-- All fields are valid, as an invariant of declaring. To look up the right type, the scope has to
be consistent. -/
theorem kept_fieldsValid : Standing.Kept fun st =>
    st.IsSound ∧ ∀ f, (st.globals.field f).Valid where
  step := by
    intro file policy st st' hstep ⟨hsound, hvalid⟩
    refine ⟨kept_sound.step hstep hsound, fun f => ?_⟩
    cases hstep with
    | module name =>
      rw [Globals.addChunk_field, Globals.addModule_field]
      exact hvalid f
    | program _ _ location =>
      rw [Globals.addProgram_field]
      exact hvalid f
    | leave => exact hvalid f
    | field _ hread _ =>
      rw [Globals.addField_field]
      split
      · exact Declaration.valid_readField hread
      · exact hvalid f
    | parameter _ list _ => exact hvalid f
    | usage htype =>
      rw [Globals.field_modifyField]
      split
      · next hsame =>
        -- a usage tag stands for its own usage, so that is the type
        obtain rfl := FieldId.eq_of_index hsame.1
        rw [hsound.1.usage_eq _ _ htype]
        exact (hvalid _).setType
      · exact hvalid f
  forget := fun h => ⟨kept_sound.forget h.1, h.2⟩

namespace Session

/-- However a session came about, and wherever its compilations stopped, every field in its scope is
valid. A field whose picture has a run of 2^32 or more characters is not declared. -/
theorem reachable_fields_valid {s : Session} (h : s.Reachable) :
    ∀ f ∈ s.globals.fields, f.Valid := by
  have hstart : ∀ f, (Globals.initial.field f).Valid := fun f => Field.valid_default
  obtain ⟨-, -, hvalid⟩ :=
    kept_fieldsValid.reachable ⟨⟨Globals.Consistent.initial, fun _ hc => by cases hc⟩, hstart⟩ h
  intro f hf
  obtain ⟨i, hi, rfl⟩ := Array.mem_iff_getElem.mp hf
  have hfield : s.globals.field ⟨i⟩ = s.globals.fields[i] := by simp [Globals.field, hi]
  exact hfield ▸ hvalid ⟨i⟩

open Build

/-- A module with a field of each usage. Its second program has a default that its picture has no
sign for. -/
def priceModule : Node :=
  Build.module "STOCK" [
    program "PRICES" [
      node .dataDivision [
        node .workingStorageSection [
          field 1 "PRICE" [
            leaf (.picture [⟨'S', 1⟩, ⟨'9', 1⟩, ⟨'9', 2⟩, ⟨'V', 1⟩, ⟨'9', 2⟩]),
            leaf (.usage .comp4), leaf (.numberLiteral "-12.5")],
          field 77 "LABEL" [leaf (.picture [⟨'X', 8⟩]), leaf (.stringLiteral "PRICE:")],
          field 5 "RATE" [leaf (.usage .comp2), leaf (.numberLiteral "0.25")]],
        node .linkageSection [field 1 "ITEM" [leaf (.usage .any)]]],
      procedure ["ITEM"] [] []],
    program "STOCKS" [
      node .dataDivision [
        node .workingStorageSection [
          field 1 "COUNT" [
            leaf (.picture [⟨'9', 3⟩]), leaf (.usage .comp4), leaf (.numberLiteral "-1")]]],
      procedure [] [] []]]

/-- The module cannot be compiled, and the fields of its first program stay in the scope. -/
theorem priceModule_fields_valid :
    let s :=
      after (compileSource (fun _ _ _ => .ok priceModule) [] "STOCK.cbl" none) (start {} .empty)
    s.globals.fields.toList.map (fun f => (f.name, f.comp4?)) =
      [("PRICE", some ⟨⟨true, 5, 2⟩, some (-12500)⟩), ("LABEL", none), ("RATE", none),
        ("ITEM", none)] ∧
    ∀ f ∈ s.globals.fields, f.Valid := by
  intro s
  have hs : s.Reachable := .compiled (.start {} .empty) _ [] "STOCK.cbl" none
  exact ⟨by decide +kernel, reachable_fields_valid hs⟩

end Session

end CobolCompiler
