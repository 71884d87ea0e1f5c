import CobolCompiler.Proofs.FieldEntry
import CobolCompiler.Proofs.InitialValues
import CobolCompiler.Proofs.Prototypes

/-!
# Number literals of COMP-2

A number literal becomes a double-precision value on two ways: as the default of a COMP-2 field,
which is checked when the field is declared and converted when its program is opened, and as an
argument for a COMP-2 parameter, which is checked and converted when it is pushed. Both take the
numeral that is left without the blanks around it, so that whatever both accept has one bit pattern.

They do not accept the same texts. An argument may have blanks around it, as may any number; a
default may not.
-/

namespace CobolCompiler

open Text (trim)
open Number Machine

namespace Generation

variable {env : Env} {n : Node} {text : String}

/-! ### Values -/

/-- The initial value of a COMP-2 field is its default. -/
theorem initialValue?_of_spells {field : Field} {numeral : Numeral} (htype : field.type = .comp2)
    (hdefault : field.default? = some (.number text)) (h : numeral.Spells (trim text.toList)) :
    initialValue? field = some (.comp2 (Binary64.ofNumeral numeral)) := by
  rw [initialValue?, htype, hdefault]
  simp [floatValue?_of_spells h]

/-! ### Arguments and fields -/

/-- A literal is pushed as this value: a constant of the module is loaded. The generator may run
into a limit, and into nothing else. -/
def PushedAs (env : Env) (n : Node) (v : Value) : Prop :=
  ∀ site code depth calls g, Inside site code depth calls g → site.inProcedure = true →
    Ensures ((visitor env).enter n) g
      (Emits site code (depth + 1) calls g fun t emitted =>
        ∃ i : UInt16, emitted = [.load i] ∧ t.constants[i.toNat]? = some v)
      (fun e _ => e.IsLimit)

/-- A field starts out with this value: it is stored in the prototype, or among the constants. The
generator may run into a limit, and into nothing else. -/
def StartsWith (env : Env) (id : FieldId) (v : Value) : Prop :=
  ∀ site fields slots linkage g, Inside (Site.framed site fields slots) [] 0 [] g →
    Ensures (placeField env linkage id) g
    (Placed site fields slots g (env.globals.field id).home id v linkage) (fun e _ => e.IsLimit)

/-- In a procedure a number literal is pushed. -/
theorem enter_numberLiteral (hpayload : n.payload = .numberLiteral text) {g : Generator}
    (hinside : g.inProcedure = true) :
    (visitor env).enter n g = pushNumber env n text g := by
  simp only [visitor, hpayload, ifInProcedure, bind_apply, get_apply, hinside]
  rfl

theorem pushedAs_of_spells {numeral : Numeral} (hpayload : n.payload = .numberLiteral text)
    (hparam : env.bindings.param? n = some .comp2) (h : numeral.Spells (trim text.toList)) :
    PushedAs env n (.comp2 (Binary64.ofNumeral numeral)) := by
  intro site code depth calls g hinside hprocedure
  have hpush : pushNumber env n text = pushConstant (.comp2 (Binary64.ofNumeral numeral)) := by
    simp only [pushNumber, hparam, literalValue, floatValue?_of_spells h]
  unfold Ensures
  rw [enter_numberLiteral hpayload (hinside.inProcedure_eq.trans hprocedure), hpush]
  exact ensures_pushConstant hinside _

theorem enter_of_not_number (hpayload : n.payload = .numberLiteral text)
    (hparam : env.bindings.param? n = some .comp2) (h : isNumber text = false) {g : Generator}
    (hprocedure : g.inProcedure = true) :
    (visitor env).enter n g = .error (.fault (.badNumericLiteral text) env.file n.location none)
      g := by
  rw [enter_numberLiteral hpayload hprocedure]
  simp only [pushNumber, hparam, literalValue, floatValue?_eq_none h]
  rfl

end Generation

namespace Declaration

open Generation

/-- A number can be the default if there are no blanks around it. -/
theorem isFloatLiteral_iff {text : String} :
    isFloatLiteral text = true ↔ isNumber text = true ∧ trim text.toList = text.toList := by
  rw [isFloatLiteral, Bool.and_eq_true, decide_eq_true_iff]

section clauses

variable {policy : FractionPolicy} {home : Section} {c : Clauses} {text : String} {place : Location}
  (husage : c.usage = .comp2) (hpicture : c.picture? = none)
  (hdefault : c.default? = some (.number text, place))

include husage hpicture hdefault

theorem checkUsage_of_number : checkUsage policy home c =
    if isFloatLiteral text = true then .ok none else .error ⟨.badNumericLiteral text, place⟩ := by
  simp only [checkUsage, husage, checkComp2, forbidPicture, hpicture, hdefault, bind, Except.bind]
  cases isFloatLiteral text <;> rfl

end clauses

section field

variable {file : String} {policy : FractionPolicy} {n : Node} {text : String} {place : Location}
  {s : State} {owner : ProgramId} (hn : Declares n .comp2 none (some (.number text, place)))
  (howner : s.program? = some owner)

include hn howner

theorem enter_of_isFloatLiteral (hfresh : (s.globals.program owner).field? n.name = none)
    (h : isFloatLiteral text = true) :
    ∃ field : Field, field.usage = .comp2 ∧ field.default? = some (.number text) ∧
      (definer file policy).enter n s = .ok () (s.withField owner n field) := by
  have hread := hn.readField_eq policy (s.home?.getD .workingStorage)
  rw [checkUsage_of_number hn.usage_ofNode hn.picture_ofNode hn.default_ofNode, if_pos h] at hread
  exact ⟨_, rfl, rfl,
    enter_of_field hn.payload (hn.overflows_eq_false (by simp)) howner hread hfresh⟩

theorem enter_of_not_isFloatLiteral (h : isFloatLiteral text ≠ true) :
    (definer file policy).enter n s =
      .error (.fault (.badNumericLiteral text) file place none) s := by
  have hread := hn.readField_eq policy (s.home?.getD .workingStorage)
  rw [checkUsage_of_number hn.usage_ofNode hn.picture_ofNode hn.default_ofNode, if_neg h] at hread
  exact enter_of_mistake hn.payload (hn.overflows_eq_false (by simp)) howner hread

theorem isFloatLiteral_of_enter {t : State} (h : (definer file policy).enter n s = .ok () t) :
    isFloatLiteral text = true := by
  by_contra hnot
  rw [enter_of_not_isFloatLiteral hn howner hnot] at h
  cases h

/-- Once its usage is resolved, the field starts out with its default. -/
theorem exists_startsWith (hfresh : (s.globals.program owner).field? n.name = none) {t : State}
    (h : (definer file policy).enter n s = .ok () t) {numeral : Numeral}
    (hnumeral : numeral.Spells (trim text.toList)) :
    ∃ id, t.bindings.field? n = some id ∧ ∀ env : Env,
      env.globals.field id = { t.globals.field id with type? := some (t.globals.field id).usage } →
        StartsWith env id (.comp2 (Binary64.ofNumeral numeral)) := by
  have hfloat := isFloatLiteral_of_enter hn howner h
  obtain ⟨field, husage, hdefault, hentered⟩ := enter_of_isFloatLiteral hn howner hfresh hfloat
  rw [hentered] at h
  cases h
  have hadded : (s.withField owner n field).globals.field (s.globals.addField owner field).1 =
      field := by
    simp [State.withField, Globals.addField_field]
  refine ⟨(s.globals.addField owner field).1, by simp [State.withField, Bindings.field?_bindField],
    ?_⟩
  intro env henv site fields slots linkage g hinside
  rw [hadded] at henv
  have htype : (env.globals.field (s.globals.addField owner field).1).type = .comp2 := by
    rw [henv, Field.type, husage, Option.getD_some]
  have hinitial := initialValue?_of_spells htype (by rw [henv, hdefault]) hnumeral
  exact ensures_placeField hinitial hinside linkage

end field

/-- The two ways of a COMP-2 number. The field `n` has the text for its default, a valid level, no
picture and a name that is new to the program; the argument `m` has the same text, and its parameter
is COMP-2.

* The field is entered exactly if the text is a number without blanks around it; otherwise the walk
  stops at the default and the scope is what it was.
* The argument is pushed exactly if the text is a number; otherwise the walk stops at the argument.
* A number is pushed as the pattern of the numeral that it spells. If the field was entered, it
  starts out with the same pattern, in whatever scope it has got its usage for its type. -/
theorem comp2_number_paths (file : String) (policy : FractionPolicy) {n m : Node}
    {text : String} {place : Location} {s : State} {owner : ProgramId} {env : Env}
    (hn : Declares n .comp2 none (some (.number text, place)))
    (howner : s.program? = some owner) (hfresh : (s.globals.program owner).field? n.name = none)
    (hm : m.payload = .numberLiteral text) (hparam : env.bindings.param? m = some .comp2) :
    ((∃ t, (definer file policy).enter n s = .ok () t) ↔ isNumber text = true ∧
      trim text.toList = text.toList) ∧
    (¬(isNumber text = true ∧ trim text.toList = text.toList) →
      (definer file policy).enter n s =
        .error (.fault (.badNumericLiteral text) file place none) s) ∧
    (isNumber text = false → ∀ g : Generator, g.inProcedure = true →
      (visitor env).enter m g = .error (.fault (.badNumericLiteral text) env.file m.location none)
        g) ∧
    (isNumber text = true → ∃ numeral : Numeral, numeral.Spells (trim text.toList) ∧
      PushedAs env m (.comp2 (Binary64.ofNumeral numeral)) ∧
      ∀ t, (definer file policy).enter n s = .ok () t → ∃ id, t.bindings.field? n = some id ∧
        ∀ later : Env,
        later.globals.field id =
          { t.globals.field id with type? := some (t.globals.field id).usage } →
          StartsWith later id (.comp2 (Binary64.ofNumeral numeral))) := by
  rw [← isFloatLiteral_iff]
  refine ⟨⟨?_, ?_⟩, enter_of_not_isFloatLiteral hn howner, ?_, ?_⟩
  · intro hentered
    obtain ⟨t, ht⟩ := hentered
    exact isFloatLiteral_of_enter hn howner ht
  · intro h
    obtain ⟨field, -, -, hentered⟩ := enter_of_isFloatLiteral hn howner hfresh h
    exact ⟨_, hentered⟩
  · intro h g hprocedure
    exact enter_of_not_number hm hparam h hprocedure
  · intro h
    obtain ⟨numeral, hnumeral⟩ := isNumber_iff.mp h
    exact ⟨numeral, hnumeral, pushedAs_of_spells hm hparam hnumeral,
      fun t ht => exists_startsWith hn howner hfresh ht hnumeral⟩

/-- A COMP-2 field with a default. -/
def rateField (text : String) : Node :=
  Build.field 5 "RATE" [Build.leaf (.usage .comp2), Build.leaf (.numberLiteral text)]

theorem rateField_declares (text : String) :
    Declares (rateField text) .comp2 none (some (.number text, .none)) where
  payload := rfl
  level := level_field (by decide) _ _
  usage := rfl
  picture := rfl
  default := rfl

/-- What is known while the argument of a COMP-2 parameter is pushed. -/
def rateEnv (argument : Node) : Env where
  file := "RATES.cbl"
  globals := .initial
  chunk? := none
  bindings := Bindings.empty.setParam argument .comp2

theorem rateEnv_param (argument : Node) :
    (rateEnv argument).bindings.param? argument = some .comp2 := by
  simp [rateEnv, Bindings.param?_setParam]

/-- Minus a half has one pattern, as a default and as an argument. -/
theorem rateField_minus_half :
    PushedAs (rateEnv (Build.leaf (.numberLiteral "-.5"))) (Build.leaf (.numberLiteral "-.5"))
      (.comp2 0xBFE0000000000000) ∧
    ∃ t id, (definer "RATES.cbl" .reject).enter (rateField "-.5") (.inProgram "SUM") = .ok () t ∧
      t.bindings.field? (rateField "-.5") = some id ∧ ∀ later : Env,
        later.globals.field id =
          { t.globals.field id with type? := some (t.globals.field id).usage } →
          StartsWith later id (.comp2 0xBFE0000000000000) := by
  have hfresh : ((State.inProgram "SUM").globals.program ⟨0⟩).field? "RATE" = none := by
    decide +kernel
  have hpaths := comp2_number_paths "RATES.cbl" .reject (rateField_declares "-.5") rfl hfresh rfl
    (rateEnv_param (Build.leaf (.numberLiteral "-.5")))
  obtain ⟨t, ht⟩ := hpaths.1.mpr (by decide +kernel)
  obtain ⟨numeral, hspells, hpushed, hstarts⟩ := hpaths.2.2.2 (by decide +kernel)
  have hnumeral : Numeral.parse? "-.5".toList = some ⟨true, [], ['5']⟩ := by decide +kernel
  have hbits : Binary64.ofNumeral ⟨true, [], ['5']⟩ = 0xBFE0000000000000 := by decide +kernel
  obtain rfl : numeral = ⟨true, [], ['5']⟩ :=
    Option.some.inj ((Numeral.parse?_eq_some_iff.mpr hspells).symm.trans hnumeral)
  rw [hbits] at hpushed hstarts
  obtain ⟨id, hid, hlater⟩ := hstarts t ht
  exact ⟨hpushed, t, id, ht, hid, hlater⟩

/-- A blank in front makes a difference: the text is a number and is pushed as one, but no field can
have it. -/
theorem rateField_padded :
    isNumber " 1" = true ∧
    (definer "RATES.cbl" .reject).enter (rateField " 1") (.inProgram "SUM") =
      .error (.fault (.badNumericLiteral " 1") "RATES.cbl" .none none) (.inProgram "SUM") ∧
    PushedAs (rateEnv (Build.leaf (.numberLiteral " 1"))) (Build.leaf (.numberLiteral " 1"))
      (.comp2 0x3FF0000000000000) := by
  have hnumeral : Numeral.parse? " 1".toList = some ⟨false, ['1'], []⟩ := by decide +kernel
  have hbits : Binary64.ofNumeral ⟨false, ['1'], []⟩ = 0x3FF0000000000000 := by decide +kernel
  have hpushed := pushedAs_of_spells rfl (rateEnv_param (Build.leaf (.numberLiteral " 1")))
    (Numeral.parse?_eq_some_iff.mp hnumeral)
  rw [hbits] at hpushed
  exact ⟨by decide +kernel,
    enter_of_not_isFloatLiteral (rateField_declares " 1") rfl (by decide +kernel), hpushed⟩

end Declaration

end CobolCompiler
