import CobolCompiler.Proofs.CodeTyping
import Mathlib.Data.List.Zip

/-!
# Typed programs have typed code

The rules of types, said on the syntax of one program: an argument has a usage that its parameter
accepts, and a result has the usage of the field that it is stored in (`Argument.Typed`,
`Statement.Typed`). The code of a program that obeys them is typed (`typedCode_program`).

The rules for results are stricter than those for arguments. A result that is declared ANY is a
string, so a field that it is stored in must be able to hold strings whatever the program was called
with (`Program.Stores`). A parameter that is declared ANY is no such field, since the caller can
have passed a number.
-/

namespace CobolCompiler

open Machine Machine.Typing Translation

/-! ### The rules of types -/

namespace Syntax

namespace Program

variable (program : Program)

/-- The usage that a field is declared with. -/
def usageOf (name : String) : Usage :=
  (((program.working ++ program.linkage).find? (·.name = name)).getD default).usage

/-- The linkage fields that are neither parameters nor results. -/
def others : List String :=
  (program.linkage.map (·.name)).filter fun name =>
    !program.usings.contains name && !program.returnings.contains name

/-- The declared usages of all fields. -/
def heading : Heading where
  working := program.layout.working.map program.usageOf
  usings := program.usings.map program.usageOf
  results := program.returnings.map program.usageOf
  others := program.others.map program.usageOf

theorem usageOf_of_mem (h : program.WellNamed) {field : Field}
    (hmem : field ∈ program.working ++ program.linkage) :
    program.usageOf field.name = field.usage := by
  have hnodup : ((program.working ++ program.linkage).map (·.name)).Nodup := by
    rw [List.map_append]
    exact h.fields
  rw [usageOf, find?_of_nodup hnodup hmem]
  rfl

theorem declared_heading : program.heading.declared = program.layout.map program.usageOf := by
  show FrameLayout.mk _ _ (program.returnings.map _ ++ program.others.map _) = _
  rw [← List.map_append]
  rfl

/-- A result can be stored in a field. -/
def Stores (name : String) (result : Usage) : Prop :=
  if result = .any then program.usageOf name = .display ∨
    (program.usageOf name = .any ∧ name ∉ program.usings)
  else program.usageOf name = result

end Program

section rules

variable (program : Program) (signature? : Callee → Option Signature)

/-- An argument can be passed to a parameter, and so can all arguments of the calls in it. -/
inductive Argument.Typed : Argument → Usage → Prop
  | field {name : String} {byContent : Bool} {param : Usage}
      (hparam : param.accepts (program.usageOf name) = true) :
      Argument.Typed (.field name byContent) param
  | number {text : String} {param : Usage} (hparam : param ≠ .display) :
      Argument.Typed (.number text) param
  | string {text : String} {param : Usage} (hparam : param.accepts .display = true) :
      Argument.Typed (.string text) param
  | call {callee : Callee} {arguments : List Argument} {signature : Signature}
      {result param : Usage} (hsignature : signature? callee = some signature)
      (hresult : signature.results.head? = some result) (hparam : param.accepts result = true)
      (harguments : ∀ pair ∈ arguments.zip signature.usings, Argument.Typed pair.1 pair.2) :
      Argument.Typed (.call callee arguments) param

/-- The arguments of a statement can be passed, and its results can be stored. -/
inductive Statement.Typed : Statement → Prop
  | call {callee : Callee} {arguments : List Argument} {returnings : List String}
      {signature : Signature} (hsignature : signature? callee = some signature)
      (harguments : ∀ pair ∈ arguments.zip signature.usings,
        Argument.Typed program signature? pair.1 pair.2)
      (hreturnings : ∀ pair ∈ returnings.zip signature.results, program.Stores pair.1 pair.2) :
      Statement.Typed (.call callee arguments returnings)
  | goback : Statement.Typed .goback

/-- All that a program does is typed, and its fields begin with values of their usages. -/
structure Program.Typed : Prop where
  initial : ∀ field ∈ program.working ++ program.linkage, field.initial.usage = settle field.usage
  statements : ∀ statement ∈ program.statements.flatMap Statement.lowered,
    statement.Typed program signature?

end rules

/-- The usages that the values in the fields of a program have while it runs. -/
structure Program.Assigns (program : Program) (usage : String → Usage) : Prop where
  accepts : ∀ name, (program.usageOf name).accepts (usage name) = true
  other : ∀ name, name ∉ program.usings → usage name = settle (program.usageOf name)

end Syntax

open Syntax

namespace Machine.Typing

variable {param : Usage}

theorem accepts_settle_of_accepts {usage : Usage} (h : param.accepts usage = true) :
    param.accepts (settle usage) = true := by
  cases param <;> cases usage <;> first | rfl | cases h

theorem exists_fixedValue {text : String} {value : Value} (hparam : param ≠ .comp2)
    (h : Generation.literalValue (some param) text = .ok value) :
    ∃ x, value = Generation.fixedValue x := by
  unfold Generation.literalValue at h
  split at h
  · next heq => exact absurd (Option.some.inj heq) hparam
  · split at h
    · next x _ => exact ⟨x, (Except.ok.inj h).symm⟩
    · cases h
    · cases h

/-- A number has a usage that its parameter accepts. -/
theorem accepts_literalValue {text : String} {value : Value} (hparam : param ≠ .display)
    (h : Generation.literalValue (some param) text = .ok value) :
    param.accepts value.usage = true := by
  cases param with
  | display => exact absurd rfl hparam
  | comp2 =>
    cases hfloat : Generation.floatValue? text with
    | none => simp [Generation.literalValue, hfloat] at h
    | some v =>
      obtain ⟨numeral, -, rfl⟩ := Option.map_eq_some_iff.mp hfloat
      simp only [Generation.literalValue, hfloat, Except.ok.injEq] at h
      rw [← h]
      rfl
  | comp4 =>
    obtain ⟨x, rfl⟩ := exists_fixedValue (by decide) h
    rfl
  | any => rfl

end Machine.Typing

namespace Syntax.Program

variable {program : Program}

/-- What accepts the field accepts its value. -/
theorem Assigns.accepts_of_accepts {usage : String → Usage} (h : program.Assigns usage)
    {name : String} {param : Usage}
    (hparam : param.accepts (program.usageOf name) = true) : param.accepts (usage name) = true := by
  rcases Usage.accepts_iff.mp hparam with rfl | rfl
  · rfl
  · exact h.accepts name

/-- A field that results are stored in has values of the usage that the results have. -/
theorem Assigns.settle_eq {usage : String → Usage} (h : program.Assigns usage) {name : String}
    {result : Usage} (hstores : program.Stores name result) : settle result = usage name := by
  have haccepts := Usage.accepts_iff.mp (h.accepts name)
  -- a result that is declared ANY is a string, and its field has strings because it is DISPLAY or
  -- no parameter
  unfold Stores at hstores
  split at hstores
  · next hany =>
    subst hany
    rcases hstores with hdisplay | ⟨hany, hname⟩
    · rw [hdisplay] at haccepts
      rcases haccepts with hbad | heq
      · cases hbad
      · exact heq
    · rw [h.other name hname, hany]
  · next hne =>
    rw [hstores] at haccepts
    rcases haccepts with hbad | heq
    · exact absurd hbad hne
    · rw [← heq]
      cases result with
      | any => exact absurd rfl hne
      | _ => rfl

/-- The usages of the values in fields, if those of the arguments are known. -/
def assigned (program : Program) (usages : List Usage) (name : String) : Usage :=
  if name ∈ program.usings then usages[program.usings.idxOf name]?.getD .display
    else settle (program.usageOf name)

section assigned

variable {usages : List Usage}

theorem settled_of_disjoint {names : List String}
    (hdisjoint : ∀ name ∈ names, name ∉ program.usings) :
    names.map (program.assigned usages) = (names.map program.usageOf).map settle := by
  rw [List.map_map]
  apply List.map_congr_left
  intro name hname
  exact if_neg (hdisjoint name hname)

theorem length_of_takes (htakes : program.heading.Takes usages) :
    usages.length = program.usings.length := by
  rw [← List.Forall₂.length_eq htakes]
  exact List.length_map _

variable (hnamed : program.WellNamed) (htakes : program.heading.Takes usages)

include hnamed htakes

theorem assigned_usings : program.usings.map (program.assigned usages) = usages := by
  have hlength := length_of_takes htakes
  have hnodup : program.usings.Nodup := (List.nodup_append.mp hnamed.signature).1
  apply List.ext_getElem
  · rw [List.length_map, hlength]
  · intro k hk hk'
    have hk'' : k < program.usings.length := by omega
    rw [List.getElem_map, assigned, if_pos (List.getElem_mem _), hnodup.idxOf_getElem k hk'',
      List.getElem?_eq_getElem hk']
    rfl

/-- The usages of the values in fields by the places of the fields. -/
theorem map_assigned :
    program.layout.map (program.assigned usages) = program.heading.layout usages := by
  -- only parameters depend on the arguments, and no other field has the name of a parameter
  obtain ⟨hworking, hrest, hdisjoint⟩ := List.nodup_append.mp hnamed.nodup_layout
  obtain ⟨-, -, hlocals⟩ := List.nodup_append.mp hrest
  have hdeclared := congrArg FrameLayout.locals program.declared_heading
  show FrameLayout.mk _ _ _ = FrameLayout.mk _ _ _
  congr 1
  · apply settled_of_disjoint
    intro name hname husing
    exact hdisjoint name hname name (List.mem_append_left _ husing) rfl
  · exact assigned_usings hnamed htakes
  · rw [show program.heading.results ++ program.heading.others =
      program.locals.map program.usageOf from hdeclared]
    apply settled_of_disjoint
    intro name hname husing
    exact hlocals name husing name hname rfl

theorem accepts_assigned (name : String) :
    (program.usageOf name).accepts (program.assigned usages name) = true := by
  by_cases hname : name ∈ program.usings
  · obtain ⟨k, hk, rfl⟩ := List.getElem_of_mem hname
    have hk' : k < usages.length := by
      rw [length_of_takes htakes]
      exact hk
    have hget : program.assigned usages program.usings[k] = usages[k] := by
      have hmap := assigned_usings hnamed htakes
      rw [List.ext_getElem_iff] at hmap
      have hat := hmap.2 k (by simpa using hk) hk'
      rwa [List.getElem_map] at hat
    have haccepts := (List.forall₂_iff_get.mp htakes).2 k (by simpa [heading] using hk) hk'
    rw [hget]
    simpa [heading] using haccepts
  · rw [assigned, if_neg hname]
    exact accepts_settle _

theorem assigns_assigned : program.Assigns (program.assigned usages) where
  accepts := accepts_assigned hnamed htakes
  other _ hname := if_neg hname

end assigned

end Syntax.Program

/-! ### Code -/

namespace Translation

/-- What is known about a stack that has all linkage fields at the bottom. -/
def Grounded (layout : FrameLayout Usage) (stack : List Kind) : Prop :=
  kinds layout.locals <+: stack

namespace Grounded

variable {layout : FrameLayout Usage} {stack : List Kind}

theorem refl (layout : FrameLayout Usage) : Grounded layout (kinds layout.locals) :=
  List.prefix_refl _

theorem append (h : Grounded layout stack) (above : List Kind) : Grounded layout (stack ++ above) :=
  h.trans (List.prefix_append stack above)

theorem framed (h : Grounded layout stack) : Framed layout stack := by
  obtain ⟨above, rfl⟩ := h
  exact framed_append above

theorem full (h : Grounded layout stack) : layout.locals.length ≤ stack.length := by
  have hle := h.length_le
  rwa [length_kinds] at hle

end Grounded

section code

variable {m : Module} {signature? : Machine.Callable → Option Signature}
  {layout : FrameLayout Usage} {stack : List Kind}

theorem typedStep_loadOf (h : Grounded layout stack) {slot : Slot} {usage : Usage}
    (hat : layout.At slot usage) :
    TypedStep m signature? layout stack (loadOf slot) (stack ++ [.value usage]) := by
  cases slot with
  | field i => exact .loadField hat
  | frame s => exact .push hat h.full

theorem typedStep_storeOf (h : Grounded layout stack) {slot : Slot} {usage : Usage}
    (hat : layout.At slot usage) :
    TypedStep m signature? layout (stack ++ [.value usage]) (storeOf slot) stack := by
  cases slot with
  | field i => exact .store hat
  | frame s => exact .replace hat h.full

/-- Instructions that take values off the stack, the last of them first. -/
theorem typedCode_pops {usages : List Usage} {code : List Instruction}
    (hgrounded : Grounded layout stack)
    (h : List.Forall₂ (fun usage i => ∀ stack, Grounded layout stack →
      TypedStep m signature? layout (stack ++ [.value usage]) i stack) usages code) :
    TypedCode m signature? layout (stack ++ kinds usages.reverse) code stack := by
  induction h with
  | nil =>
    rw [List.reverse_nil, show kinds [] = [] from rfl, List.append_nil]
    exact .nil hgrounded.framed
  | @cons usage i usages code hstep _ ih =>
    have hrest := hgrounded.append (kinds usages.reverse)
    rw [List.reverse_cons, kinds_append, ← List.append_assoc]
    exact .cons (hrest.append [.value usage]).framed (hstep _ hrest) ih

end code

section translation

variable {ctx : Context} {program : Program} {usage : String → Usage}
  {signature? : Machine.Callable → Option Signature} {m : Module} {stack : List Kind}

variable (ctx program usage signature?) in
/-- What the code of a program is typed against. -/
structure TypingContext : Prop where
  assigns : program.Assigns usage
  distinct : ctx.programs.Nodup
  interface_eq : ∀ callee signature, signature? (callableOf ctx.programs callee) = some signature →
    ctx.interface callee = ⟨signature.usings, signature.results.length⟩

/-- A usage that an argument can have on the stack: a field has that of its value. -/
def Carries (usage : String → Usage) (argument : Argument) (passed : Usage) : Prop :=
  ∀ name byContent, argument = .field name byContent → passed = usage name

/-- The usage that an argument is passed with, if the argument is paired with its parameter. -/
structure PassedAs (usage : String → Usage) (item : Usage × Argument) (passed : Usage) : Prop where
  accepts : item.1.accepts passed = true
  carries : Carries usage item.2 passed

variable {code : List Instruction} {arguments : List Argument} {callee : Callee}

theorem typedStep_callable (h : TypingContext ctx program usage signature?) {callable : Instruction}
    (hcallable : CallableCode ctx ⟨m.constants, m.imports⟩ callee callable) :
    TypedStep m signature? (ctx.layout.map usage) stack callable
      (stack ++ [.callable (callableOf ctx.programs callee)]) := by
  rcases hcallable.cases_on_callable h.distinct
    with ⟨i, target, rfl, htarget, heq⟩ | ⟨i, rfl, -, -, heq⟩
  · rw [heq]
    exact .imported htarget
  · rw [heq]
    exact .proto

/-- Arguments go back to where they came from. -/
theorem typedStep_takeBack {argument : Argument} {i : Instruction}
    (hback : TakeBackCode ctx argument i) {passed : Usage}
    (hpassed : Carries usage argument passed) (hgrounded : Grounded (ctx.layout.map usage) stack) :
    TypedStep m signature? (ctx.layout.map usage) (stack ++ [.value passed]) i stack := by
  cases hback with
  | reference hat =>
    rw [hpassed _ _ rfl]
    exact typedStep_storeOf hgrounded (hat.map usage)
  | dropped _ => exact .pop

/-- The usages of arguments that are paired with their parameters. -/
theorem split_passed {usings passed : List Usage}
    (h : List.Forall₂ (PassedAs usage) (usings.zip arguments).reverse passed)
    (hlength : arguments.length = usings.length) :
    List.Forall₂ (fun param passed => param.accepts passed = true) usings passed.reverse ∧
      List.Forall₂ (Carries usage) arguments passed.reverse := by
  have hpairs : List.Forall₂ (PassedAs usage) (usings.zip arguments) passed.reverse := by
    have hreverse := List.forall₂_reverse_iff.mpr h
    rwa [List.reverse_reverse] at hreverse
  have hfst : List.Forall₂ (fun param passed => param.accepts passed = true)
      ((usings.zip arguments).map Prod.fst) passed.reverse :=
    List.forall₂_map_left_iff.mpr (hpairs.imp fun _ _ hitem => hitem.accepts)
  have hsnd : List.Forall₂ (Carries usage) ((usings.zip arguments).map Prod.snd) passed.reverse :=
    List.forall₂_map_left_iff.mpr (hpairs.imp fun _ _ hitem => hitem.carries)
  rw [List.map_fst_zip (by omega)] at hfst
  rw [List.map_snd_zip (by omega)] at hsnd
  exact ⟨hfst, hsnd⟩

/-- The arguments of a call are typed in the order in which they are pushed. -/
theorem typed_passed {rules? : Callee → Option Signature} {signature : Signature}
    (hinterface : ctx.interface callee = ⟨signature.usings, signature.results.length⟩)
    (h : ∀ pair ∈ arguments.zip signature.usings, pair.1.Typed program rules? pair.2) :
    ∀ item ∈ ctx.passed callee arguments, item.2.Typed program rules? item.1 := by
  intro item hitem
  rw [Context.passed, hinterface, List.mem_reverse, ← List.zip_swap] at hitem
  obtain ⟨pair, hpair, rfl⟩ := List.mem_map.mp hitem
  exact h pair hpair

/-- The code of a call up to the call itself. Then the arguments lie on the stack, and above them
the results. -/
theorem typedCode_call (h : TypingContext ctx program usage signature?) {signature : Signature}
    (hsignature : signature? (callableOf ctx.programs callee) = some signature)
    {callable : Instruction} (hcallable : CallableCode ctx ⟨m.constants, m.imports⟩ callee callable)
    (hlength : arguments.length = (ctx.interface callee).usages.length) {count requested : UInt8}
    (hcount : count.toNat = arguments.length)
    (hrequested : requested.toNat ≤ (ctx.interface callee).results)
    (hgrounded : Grounded (ctx.layout.map usage) stack) {inner : List Instruction}
    (hinner : ∃ passed, List.Forall₂ (PassedAs usage) (ctx.passed callee arguments) passed ∧
      TypedCode m signature? (ctx.layout.map usage)
      (stack ++ [.callable (callableOf ctx.programs callee)]) inner
      (stack ++ [.callable (callableOf ctx.programs callee)] ++ kinds passed)) :
    ∃ passed, List.Forall₂ (Carries usage) arguments passed ∧
      ∀ rest final, TypedCode m signature? (ctx.layout.map usage)
        (stack ++ [.callable (callableOf ctx.programs callee)] ++ kinds passed.reverse ++
          kinds ((signature.results.take requested.toNat).map settle)) rest final →
        TypedCode m signature? (ctx.layout.map usage) stack
          (callable :: (inner ++ .call count requested :: rest)) final := by
  have hinterface := h.interface_eq callee signature hsignature
  rw [hinterface] at hlength hrequested
  obtain ⟨passed, hpassed, htyped⟩ := hinner
  -- arguments are passed in reverse, and the results come on top of them
  rw [Context.passed, hinterface] at hpassed
  obtain ⟨hfits, hback⟩ := split_passed hpassed hlength
  refine ⟨passed.reverse, hback, ?_⟩
  intro rest final hrest
  have hpushed := hgrounded.append [.callable (callableOf ctx.programs callee)]
  have hcalls : TypedStep m signature? (ctx.layout.map usage)
      (stack ++ [.callable (callableOf ctx.programs callee)] ++ kinds passed)
      (.call count requested) (stack ++ [.callable (callableOf ctx.programs callee)] ++ kinds
        passed.reverse.reverse ++ kinds ((signature.results.take requested.toNat).map settle)) := by
    have hlengths : passed.length = count.toNat := by
      rw [hcount, ← List.length_reverse, ← hback.length_eq]
    have hstep : TypedStep m signature? (ctx.layout.map usage)
        (stack ++ .callable (callableOf ctx.programs callee) :: kinds passed)
        (.call count requested) (stack ++ .callable (callableOf ctx.programs callee) ::
          kinds (passed ++ (signature.results.take requested.toNat).map settle)) :=
      .call hsignature hlengths hfits hrequested
    simpa using hstep
  exact .cons hgrounded.framed (typedStep_callable h hcallable)
    (htyped.append (.cons (hpushed.append _).framed hcalls hrest))

/-- One value is pushed, and then those of the other arguments. -/
theorem exists_passed_cons {i : Instruction} {item : Usage × Argument}
    {items : List (Usage × Argument)} {value : Usage}
    (hgrounded : Grounded (ctx.layout.map usage) stack)
    (hstep : TypedStep m signature? (ctx.layout.map usage) stack i (stack ++ [.value value]))
    (hitem : PassedAs usage item value)
    (hrest : ∃ passed, List.Forall₂ (PassedAs usage) items passed ∧
      TypedCode m signature? (ctx.layout.map usage) (stack ++ [.value value]) code
      (stack ++ [.value value] ++ kinds passed)) :
    ∃ passed, List.Forall₂ (PassedAs usage) (item :: items) passed ∧
      TypedCode m signature? (ctx.layout.map usage) stack (i :: code) (stack ++ kinds passed) := by
  obtain ⟨passed, hpassed, hcode⟩ := hrest
  refine ⟨value :: passed, .cons hitem hpassed, ?_⟩
  rw [List.append_assoc] at hcode
  exact .cons hgrounded.framed hstep hcode

/-- All arguments of a call go back. -/
theorem typedCode_takeBacks {backs : List Instruction} {passed : List Usage}
    (hbacks : List.Forall₂ (TakeBackCode ctx) arguments backs)
    (hpassed : List.Forall₂ (Carries usage) arguments passed)
    (hgrounded : Grounded (ctx.layout.map usage) stack) :
    TypedCode m signature? (ctx.layout.map usage) (stack ++ kinds passed.reverse) backs stack := by
  apply typedCode_pops hgrounded
  induction hbacks generalizing passed with
  | nil =>
    cases hpassed
    exact .nil
  | cons hback _ ih =>
    cases hpassed with
    | cons hfirst hrest => exact .cons (fun _ => typedStep_takeBack hback hfirst) (ih hrest)

/-- The values of arguments are pushed. -/
theorem typedCode_arguments (h : TypingContext ctx program usage signature?) {depth : Nat}
    {items : List (Usage × Argument)}
    (hcode : ArgumentsCode ctx ⟨m.constants, m.imports⟩ depth items code) (htyped : ∀ item ∈ items,
      item.2.Typed program (fun callee => signature? (callableOf ctx.programs callee)) item.1)
    (hgrounded : Grounded (ctx.layout.map usage) stack) (hdepth : stack.length = depth) :
    ∃ passed, List.Forall₂ (PassedAs usage) items passed ∧
      TypedCode m signature? (ctx.layout.map usage) stack code (stack ++ kinds passed) := by
  -- the depth at which the code is generated is the length of the stack, so that a nested call
  -- finds its callable again
  induction hcode generalizing stack with
  | nil depth =>
    refine ⟨[], .nil, ?_⟩
    rw [show kinds [] = [] from rfl, List.append_nil]
    exact .nil hgrounded.framed
  | field hslot _ ih =>
    obtain ⟨hfirst, hothers⟩ := List.forall_mem_cons.mp htyped
    have hrest := fun value => ih hothers (hgrounded.append [.value value]) (by simp [hdepth])
    apply exists_passed_cons hgrounded (typedStep_loadOf hgrounded (hslot.map usage)) _ (hrest _)
    cases hfirst with
    | field hparam => exact ⟨h.assigns.accepts_of_accepts hparam, fun _ _ heq => by cases heq; rfl⟩
  | number hvalue hi _ ih =>
    obtain ⟨hfirst, hothers⟩ := List.forall_mem_cons.mp htyped
    have hrest := fun value => ih hothers (hgrounded.append [.value value]) (by simp [hdepth])
    apply exists_passed_cons hgrounded (.load hi) _ (hrest _)
    cases hfirst with
    | number hparam => exact ⟨accepts_literalValue hparam hvalue, fun _ _ heq => by cases heq⟩
  | string hi _ ih =>
    obtain ⟨hfirst, hothers⟩ := List.forall_mem_cons.mp htyped
    have hrest := fun value => ih hothers (hgrounded.append [.value value]) (by simp [hdepth])
    apply exists_passed_cons hgrounded (.load hi) _ (hrest _)
    cases hfirst with
    | string hparam => exact ⟨hparam, fun _ _ heq => by cases heq⟩
  | @call depth param callee arguments callable count slot inner backs rest code hcallable hlength
    hresult hcount hslot _ _ hbacks _ ihInner ihRest =>
    obtain ⟨hfirst, hothers⟩ := List.forall_mem_cons.mp htyped
    cases hfirst with
    | @call _ _ signature result _ hsignature hresults hparam harguments =>
    have hinterface := h.interface_eq callee signature hsignature
    have hpushed := hgrounded.append [.callable (callableOf ctx.programs callee)]
    have hinner := ihInner (typed_passed hinterface harguments) hpushed (by simp [hdepth])
    obtain ⟨passed, hpassed, hcall⟩ := typedCode_call h hsignature hcallable hlength hcount
      (show (1 : UInt8).toNat ≤ _ from hresult) hgrounded hinner
    -- the result takes the place of the callable, and then the arguments above it are taken back
    have hvalue := hgrounded.append [.value (settle result)]
    have hresult' : (signature.results.take 1).map settle = [settle result] := by
      rw [List.take_one, hresults]
      rfl
    obtain ⟨others, hothers, hrest⟩ := ihRest hothers hvalue (by simp [hdepth])
    refine ⟨settle result :: others,
      .cons ⟨accepts_settle_of_accepts hparam, fun _ _ heq => by cases heq⟩ hothers, ?_⟩
    apply hcall
    rw [show (1 : UInt8).toNat = 1 from rfl, hresult']
    have hreplace : TypedStep m signature? (ctx.layout.map usage)
        (stack ++ [.callable (callableOf ctx.programs callee)] ++ kinds passed.reverse ++
          kinds [settle result])
        (.replace slot) (stack ++ [.value (settle result)] ++ kinds passed.reverse) := by
      have hstep : TypedStep m signature? (ctx.layout.map usage) (stack ++ .callable
          (callableOf ctx.programs callee) :: (kinds passed.reverse ++ [.value (settle result)]))
          (.replace slot) (stack ++ .value (settle result) :: kinds passed.reverse) :=
        .replaceCallable (by rw [hslot, hdepth])
      simpa [kinds] using hstep
    rw [List.append_assoc] at hrest
    exact .cons ((hpushed.append _).append _).framed hreplace
      ((typedCode_takeBacks hbacks hpassed hvalue).append hrest)

/-- The results of a call have the usages of the fields that they are stored in. -/
theorem settle_results (h : program.Assigns usage) {returnings : List String} {results : List Usage}
    (hstores : ∀ pair ∈ returnings.zip results, program.Stores pair.1 pair.2)
    (hle : returnings.length ≤ results.length) :
    (results.take returnings.length).map settle = returnings.map usage := by
  induction returnings generalizing results with
  | nil => rfl
  | cons name returnings ih =>
    cases results with
    | nil => simp at hle
    | cons result results =>
      have hrest :=
        ih (fun pair hpair => hstores pair (List.mem_cons_of_mem _ hpair)) (by simpa using hle)
      rw [List.length_cons, List.take_succ_cons, List.map_cons, List.map_cons, hrest,
        h.settle_eq (hstores (name, result) List.mem_cons_self)]

/-- A statement leaves the stack as it was. -/
theorem typedCode_statement (h : TypingContext ctx program usage signature?) {statement : Statement}
    (hcode : StatementCode ctx ⟨m.constants, m.imports⟩ statement code)
    (htyped : statement.Typed program fun callee => signature? (callableOf ctx.programs callee)) :
    TypedCode m signature? (ctx.layout.map usage) (kinds (ctx.layout.map usage).locals) code
      (kinds (ctx.layout.map usage).locals) := by
  have hgrounded := Grounded.refl (ctx.layout.map usage)
  cases hcode with
  | @call callee arguments returnings callable count requested inner stores backs hcallable hlength
    hresults hcount hrequested _ hinner hstores hbacks =>
    cases htyped with
    | @call _ _ _ signature hsignature harguments hreturnings =>
    have hinterface := h.interface_eq callee signature hsignature
    have hpushed := hgrounded.append [.callable (callableOf ctx.programs callee)]
    have hinner' := typedCode_arguments h hinner (typed_passed hinterface harguments) hpushed
      (by simp [FrameLayout.map, kinds])
    obtain ⟨passed, hpassed, hcall⟩ := typedCode_call h hsignature hcallable hlength hcount
      (by rw [hrequested]; exact hresults) hgrounded hinner'
    rw [hinterface] at hresults
    have hstored : (signature.results.take requested.toNat).map settle =
        (returnings.reverse.map usage).reverse := by
      rw [hrequested, settle_results h.assigns hreturnings hresults, List.map_reverse,
        List.reverse_reverse]
    apply hcall
    rw [hstored]
    have hpops : List.Forall₂ (fun usage' i => ∀ stack, Grounded (ctx.layout.map usage) stack →
        TypedStep m signature? (ctx.layout.map usage) (stack ++ [.value usage']) i stack)
        (returnings.reverse.map usage) stores := by
      apply List.forall₂_map_left_iff.mpr
      apply hstores.imp
      intro name i hstore stack hstack
      cases hstore with
      | intro hat => exact typedStep_storeOf hstack (hat.map usage)
    -- the results are stored, the last one first, then the arguments go back, and then the callable
    -- is dropped
    exact (typedCode_pops (hpushed.append _) hpops).append
      ((typedCode_takeBacks hbacks hpassed hpushed).append
        (.cons hpushed.framed .pop (.nil hgrounded.framed)))
  | goback => exact .cons hgrounded.framed (.ret hgrounded.full) (.nil hgrounded.framed)

theorem typedCode_statements (h : TypingContext ctx program usage signature?)
    {statements : List Statement} {codes : List (List Instruction)}
    (hcodes : List.Forall₂ (StatementCode ctx ⟨m.constants, m.imports⟩) statements codes)
    (htyped : ∀ statement ∈ statements,
      statement.Typed program fun callee => signature? (callableOf ctx.programs callee)) :
    TypedCode m signature? (ctx.layout.map usage) (kinds (ctx.layout.map usage).locals)
      codes.flatten (kinds (ctx.layout.map usage).locals) := by
  induction hcodes with
  | nil => exact .nil (Grounded.refl _).framed
  | cons hstatement _ ih =>
    have hfirst := typedCode_statement h hstatement (htyped _ List.mem_cons_self)
    exact hfirst.append (ih fun statement hmem => htyped statement (List.mem_cons_of_mem _ hmem))

/-- On entry the linkage fields are pushed. -/
theorem typedCode_locals {layout : FrameLayout Usage} {values : List Value}
    (hcode : List.Forall₂ (LocalCode ⟨m.constants, m.imports⟩) values code) {pushed : List Usage}
    (hlocals : pushed ++ values.map Value.usage = layout.locals) :
    TypedCode m signature? layout (kinds pushed) code (kinds layout.locals) := by
  have hframed : ∀ {pushed rest : List Usage}, pushed ++ rest = layout.locals →
      Framed layout (kinds pushed) := by
    intro pushed rest heq
    unfold Framed
    rw [← heq, kinds_append, length_kinds, List.take_of_length_le (by simp), ← length_kinds pushed,
      List.take_left]
  induction hcode generalizing pushed with
  | nil =>
    have heq : pushed = layout.locals := by simpa using hlocals
    rw [heq]
    exact .nil (hframed (List.append_nil _))
  | @cons value i values code hvalue _ ih =>
    cases hvalue with
    | intro i hi =>
    have hlocals' : (pushed ++ [value.usage]) ++ values.map Value.usage = layout.locals := by
      rw [← hlocals]
      simp
    have hrest := ih hlocals'
    rw [kinds_append] at hrest
    exact .cons (hframed hlocals) (.load hi) hrest

/-- The values that the linkage fields begin with have their usages. -/
theorem usages_initials (h : program.Assigns usage) (hnamed : program.WellNamed)
    (hinitial : ∀ field ∈ program.working ++ program.linkage,
      field.initial.usage = settle field.usage) :
    program.initials.map Value.usage = program.locals.map usage := by
  rw [Program.initials, List.map_map]
  apply List.map_congr_left
  intro name hname
  obtain ⟨hlinkage, husing⟩ := List.mem_filter.mp (hnamed.perm_locals.mem_iff.mp hname)
  obtain ⟨field, hfield, rfl⟩ := List.mem_map.mp hlinkage
  have hnodup : (program.linkage.map (·.name)).Nodup := (List.nodup_append.mp hnamed.fields).2.1
  have hfound : program.linkageField field.name = field := by
    rw [Program.linkageField, find?_of_nodup hnodup hfield]
    rfl
  have hmem : field ∈ program.working ++ program.linkage := List.mem_append_right _ hfield
  rw [Function.comp_apply, hfound, hinitial field hmem, h.other field.name (by simpa using husing),
    program.usageOf_of_mem hnamed hmem]

/-- The code of a typed program is typed, for all arguments that the program takes. -/
theorem typedCode_program {names : List String} {interface : Callee → Interface}
    (hnamed : program.WellNamed)
    (htyped : program.Typed fun callee => signature? (callableOf names callee))
    (hdistinct : names.Nodup)
    (hinterface : ∀ callee signature, signature? (callableOf names callee) = some signature →
      interface callee = ⟨signature.usings, signature.results.length⟩)
    (hcode : ProgramCode ⟨program.layout, names, interface⟩ ⟨m.constants, m.imports⟩
      program.initials (program.statements.flatMap Statement.lowered) code)
    {usages : List Usage} (htakes : program.heading.Takes usages) :
    ∃ stack, TypedCode m signature? (program.heading.layout usages) [] code stack := by
  have hassigns := Program.assigns_assigned hnamed htakes
  have h : TypingContext ⟨program.layout, names, interface⟩ program (program.assigned usages)
      signature? :=
    ⟨hassigns, hdistinct, hinterface⟩
  have hgrounded := Grounded.refl (program.layout.map (program.assigned usages))
  obtain ⟨locals, codes, ending, rfl, hlocals, hcodes, hending, -⟩ := hcode.parts
  have hbegin :
      TypedCode m signature? (program.layout.map (program.assigned usages)) (kinds []) locals _ :=
    typedCode_locals hlocals (usages_initials hassigns hnamed htyped.initial)
  have hbody := typedCode_statements h hcodes htyped.statements
  have hend : TypedCode m signature? (program.layout.map (program.assigned usages))
      (kinds (program.layout.map (program.assigned usages)).locals) ending
      (kinds (program.layout.map (program.assigned usages)).locals) := by
    rcases hending with rfl | rfl
    · exact .nil hgrounded.framed
    · exact .cons hgrounded.framed (.ret hgrounded.full) (.nil hgrounded.framed)
  rw [← Program.map_assigned hnamed htakes]
  exact ⟨_, hbegin.append (hbody.append hend)⟩

end translation

end Translation

end CobolCompiler
