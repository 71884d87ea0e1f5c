import CobolCompiler.Proofs.StackMachine
import CobolCompiler.Proofs.Syntax
import Mathlib.Data.List.Forall2

/-!
# Code of a program

What it means that instructions are the code of some syntax, said without the generator. The code of
a call is its callable, the code of its arguments from the last to the first, the call instruction,
and what takes results and arguments off the stack again.

* `FrameLayout`: where the fields of a program lie at run time.
* `ArgumentsCode`: the code of arguments, in the order in which they are pushed. A list with one
  argument is the code of that argument, so that there is one induction for all.
* `StatementCode` and `ProgramCode`: the code of a statement, and of a whole program.

The code refers to tables of constants and imports. It stays what it is when the tables grow
(`ArgumentsCode.mono`).
-/

namespace CobolCompiler

open Machine Syntax

namespace Translation

/-! ### Places -/

/-- A program's fields by the place they have at run time. Fields are known by their numbers while
code is generated, and by their names otherwise. -/
structure FrameLayout (α : Type) where
  /-- The fields of the prototype. -/
  working : List α
  /-- The parameters, which lie below the frame. -/
  usings : List α
  /-- The other linkage fields, which are pushed on entry: the results come first. -/
  locals : List α

/-- A slot holds a field. -/
inductive FrameLayout.At {α : Type} (l : FrameLayout α) : Slot → α → Prop
  | working {field : α} (i : UInt16) (h : l.working[i.toNat]? = some field) : l.At (.field i) field
  | parameter {field : α} (s : Int16) (k : Nat) (hs : s.toInt = -((k : Int) + 1))
      (h : l.usings[k]? = some field) : l.At (.frame s) field
  | pushed {field : α} (s : Int16) (k : Nat) (hs : s.toInt = k) (h : l.locals[k]? = some field) :
      l.At (.frame s) field

/-- The same places for fields that are known in another way. -/
def FrameLayout.map {α β : Type} (l : FrameLayout α) (f : α → β) : FrameLayout β :=
  ⟨l.working.map f, l.usings.map f, l.locals.map f⟩

theorem FrameLayout.At.map {α β : Type} {l : FrameLayout α} {slot : Slot} {field : α}
    (h : l.At slot field) (f : α → β) :
    (l.map f).At slot (f field) := by
  cases h with
  | working i h => exact .working i (by simp [FrameLayout.map, h])
  | parameter s k hs h => exact .parameter s k hs (by simp [FrameLayout.map, h])
  | pushed s k hs h => exact .pushed s k hs (by simp [FrameLayout.map, h])

/-- In a list without repeated keys an item is found by its key. -/
theorem find?_of_nodup {α : Type} {key : α → String} {items : List α}
    (hnodup : (items.map key).Nodup) {item : α}
    (hmem : item ∈ items) : items.find? (fun other => key other = key item) = some item := by
  induction items with
  | nil => cases hmem
  | cons first rest ih =>
    rw [List.map_cons, List.nodup_cons] at hnodup
    rcases List.mem_cons.mp hmem with rfl | hrest
    · simp
    · have hne : key first ≠ key item := fun heq => hnodup.1 (heq ▸ List.mem_map_of_mem hrest)
      rw [List.find?_cons_of_neg (by simpa using hne)]
      exact ih hnodup.2 hrest

end Translation

namespace Syntax.Program

/-- A linkage field of a program. -/
def linkageField (program : Program) (name : String) : Field :=
  (program.linkage.find? (·.name = name)).getD default

/-- The linkage fields that are not parameters, in the order in which they are pushed: the results
come first. -/
def locals (program : Program) : List String :=
  program.returnings ++ (program.linkage.map (·.name)).filter fun name =>
    !program.usings.contains name && !program.returnings.contains name

/-- Where the fields of a program lie. -/
def layout (program : Program) : Translation.FrameLayout String :=
  ⟨program.working.map (·.name), program.usings, program.locals⟩

/-- The values that the pushed fields start with. -/
def initials (program : Program) : List Machine.Value :=
  program.locals.map fun name => (program.linkageField name).initial

/-- The usages of the parameters. -/
def usages (program : Program) : List Usage :=
  program.usings.map fun name => (program.linkageField name).usage

/-- The fields of a program have names of their own, and its parameters and results are linkage
fields. -/
structure WellNamed (program : Program) : Prop where
  fields : (program.working.map (·.name) ++ program.linkage.map (·.name)).Nodup
  signature : (program.usings ++ program.returnings).Nodup
  linkage : ∀ name ∈ program.usings ++ program.returnings, name ∈ program.linkage.map (·.name)

namespace WellNamed

variable {program : Program} (h : program.WellNamed)

include h

/-- The fields that are pushed are the linkage fields that are not parameters. -/
theorem perm_locals :
    program.locals.Perm
      ((program.linkage.map (·.name)).filter fun name => !program.usings.contains name) := by
  obtain ⟨-, hlinkage, -⟩ := List.nodup_append.mp h.fields
  obtain ⟨-, hreturnings, hdisjoint⟩ := List.nodup_append.mp h.signature
  have hlocals : program.locals.Nodup := by
    rw [locals, List.nodup_append]
    refine ⟨hreturnings, hlinkage.filter _, ?_⟩
    intro name hname other hother heq
    have hconditions := (List.mem_filter.mp hother).2
    subst heq
    simp [hname] at hconditions
  -- neither list repeats a name, so it is enough to compare their members
  apply (List.perm_ext_iff_of_nodup hlocals (hlinkage.filter _)).mpr
  intro name
  rw [locals, List.mem_append, List.mem_filter, List.mem_filter]
  constructor
  · rintro (hname | ⟨hname, hconditions⟩)
    · refine ⟨h.linkage name (List.mem_append_right _ hname), ?_⟩
      have husing : name ∉ program.usings := fun husing => hdisjoint name husing name hname rfl
      simpa using husing
    · simp only [Bool.and_eq_true] at hconditions
      exact ⟨hname, hconditions.1⟩
  · intro hname
    by_cases hreturning : name ∈ program.returnings
    · exact Or.inl hreturning
    · exact Or.inr ⟨hname.1, by simp_all⟩

theorem length_locals :
    program.locals.length =
      (program.linkage.filter fun field => !program.usings.contains field.name).length := by
  rw [h.perm_locals.length_eq, List.filter_map, List.length_map]
  rfl

/-- No two fields of a program share a place. -/
theorem nodup_layout :
    (program.layout.working ++ (program.layout.usings ++ program.layout.locals)).Nodup := by
  obtain ⟨hworking, hlinkage, hdisjoint⟩ := List.nodup_append.mp h.fields
  obtain ⟨husings, -, -⟩ := List.nodup_append.mp h.signature
  have hpushed : ∀ name ∈ program.locals, name ∈ program.linkage.map (·.name) ∧
      name ∉ program.usings := by
    intro name hname
    have hmem := List.mem_filter.mp (h.perm_locals.mem_iff.mp hname)
    exact ⟨hmem.1, by simpa using hmem.2⟩
  have hlocals : program.locals.Nodup := h.perm_locals.nodup_iff.mpr (hlinkage.filter _)
  rw [layout, List.nodup_append, List.nodup_append]
  refine ⟨hworking, ⟨husings, hlocals, ?_⟩, ?_⟩
  · rintro name husing _ hlocal rfl
    exact (hpushed name hlocal).2 husing
  · rintro name hname other hother rfl
    rcases List.mem_append.mp hother with hother | hother
    · exact hdisjoint name hname name (h.linkage name (List.mem_append_left _ hother)) rfl
    · exact hdisjoint name hname name (hpushed name hother).1 rfl

end WellNamed

end Syntax.Program

namespace Translation

/-- The instruction that pushes what is in a slot. -/
def loadOf : Slot → Instruction
  | .field i => .loadField i
  | .frame s => .push s

/-- The instruction that pops into a slot. -/
def storeOf : Slot → Instruction
  | .field i => .store i
  | .frame s => .replace s

/-- The constants and the imports that code refers to. -/
structure Tables where
  constants : Array Value
  imports : Array Import

/-- What one of the tables has, the other has in the same place. -/
structure Tables.Le (t t' : Tables) : Prop where
  constants : ∀ (i : Nat) (v : Value), t.constants[i]? = some v → t'.constants[i]? = some v
  imports : ∀ (i : Nat) (v : Import), t.imports[i]? = some v → t'.imports[i]? = some v

theorem Tables.Le.refl (t : Tables) : t.Le t :=
  ⟨fun _ _ h => h, fun _ _ h => h⟩

theorem Tables.Le.trans {t t' t'' : Tables} (h : t.Le t') (h' : t'.Le t'') : t.Le t'' :=
  ⟨fun i v hv => h'.constants i v (h.constants i v hv),
    fun i v hv => h'.imports i v (h.imports i v hv)⟩

/-! ### Calls -/

/-- What callers know about a program. -/
structure Interface where
  /-- The usages of its parameters. -/
  usages : List Usage
  /-- The number of its results. -/
  results : Nat

/-- What the code of a program is translated against. -/
structure Context where
  layout : FrameLayout String
  /-- The names of the programs of the file. -/
  programs : List String
  interface : Callee → Interface

variable (ctx : Context) (t : Tables)

/-- The arguments of a call with the usages of their parameters, in the order in which they are
pushed. -/
def Context.passed (callee : Callee) (arguments : List Argument) : List (Usage × Argument) :=
  ((ctx.interface callee).usages.zip arguments).reverse

theorem Context.flatMap_passed {α : Type} {ctx : Context} {callee : Callee}
    {arguments : List Argument}
    (hlength : arguments.length = (ctx.interface callee).usages.length) (f : Argument → List α) :
    (ctx.passed callee arguments).flatMap (fun item => f item.2) = arguments.reverse.flatMap f := by
  have hzip : ((ctx.interface callee).usages.zip arguments).map Prod.snd = arguments :=
    List.map_snd_zip (by omega)
  rw [← List.flatMap_map, Context.passed, List.map_reverse, hzip]

/-- The instruction that pushes a program. -/
inductive CallableCode : Callee → Instruction → Prop
  | imported {owner program : String} (i : UInt16)
      (h : t.imports[i.toNat]? = some ⟨owner, program⟩) :
      CallableCode ⟨some owner, program⟩ (.imported i)
  | own {program : String} (i : UInt16) (h : ctx.programs[i.toNat]? = some program) :
      CallableCode ⟨none, program⟩ (.proto i)

/-- The instruction that takes an argument off the stack, back to its field if it was passed by
reference. -/
inductive TakeBackCode : Argument → Instruction → Prop
  | reference {name : String} {slot : Slot} (h : ctx.layout.At slot name) :
      TakeBackCode (.field name false) (storeOf slot)
  | dropped {argument : Argument} (h : argument.referenceName? = none) : TakeBackCode argument .pop

/-- The instruction that takes a result off the stack. -/
inductive StoreCode : String → Instruction → Prop
  | intro {name : String} {slot : Slot} (h : ctx.layout.At slot name) :
      StoreCode name (storeOf slot)

/-- The code of arguments, pushed one after the other when there are `depth` entries above the
frame. -/
inductive ArgumentsCode : Nat → List (Usage × Argument) → List Instruction → Prop
  | nil (depth : Nat) : ArgumentsCode depth [] []
  | field {depth : Nat} {usage : Usage} {name : String} {byContent : Bool} {slot : Slot}
      {rest : List (Usage × Argument)} {code : List Instruction} (hslot : ctx.layout.At slot name)
      (hrest : ArgumentsCode (depth + 1) rest code) :
      ArgumentsCode depth ((usage, .field name byContent) :: rest) (loadOf slot :: code)
  | number {depth : Nat} {usage : Usage} {text : String} {value : Value} {i : UInt16}
      {rest : List (Usage × Argument)} {code : List Instruction}
      (hvalue : Generation.literalValue (some usage) text = .ok value)
      (hi : t.constants[i.toNat]? = some value) (hrest : ArgumentsCode (depth + 1) rest code) :
      ArgumentsCode depth ((usage, .number text) :: rest) (.load i :: code)
  | string {depth : Nat} {usage : Usage} {text : String} {i : UInt16}
      {rest : List (Usage × Argument)}
      {code : List Instruction} (hi : t.constants[i.toNat]? = some (.display text))
      (hrest : ArgumentsCode (depth + 1) rest code) :
      ArgumentsCode depth ((usage, .string text) :: rest) (.load i :: code)
  | call {depth : Nat} {usage : Usage} {callee : Callee} {arguments : List Argument}
      {callable : Instruction} {count : UInt8} {slot : Int16} {inner backs : List Instruction}
      {rest : List (Usage × Argument)}
      {code : List Instruction} (hcallable : CallableCode ctx t callee callable)
      (hlength : arguments.length = (ctx.interface callee).usages.length)
      (hresult : 1 ≤ (ctx.interface callee).results) (hcount : count.toNat = arguments.length)
      (hslot : slot.toInt = depth) (hdistinct : (arguments.filterMap Argument.referenceName?).Nodup)
      (hinner : ArgumentsCode (depth + 1) (ctx.passed callee arguments) inner)
      (hbacks : List.Forall₂ (TakeBackCode ctx) arguments backs)
      (hrest : ArgumentsCode (depth + 1) rest code) :
      ArgumentsCode depth ((usage, .call callee arguments) :: rest)
      (callable :: (inner ++ .call count 1 :: .replace slot :: (backs ++ code)))

/-- The code of a statement other than DISPLAY. It begins and ends with the linkage fields on the
stack. -/
inductive StatementCode : Statement → List Instruction → Prop
  | call {callee : Callee} {arguments : List Argument} {returnings : List String}
      {callable : Instruction} {count results : UInt8} {inner stores backs : List Instruction}
      (hcallable : CallableCode ctx t callee callable)
      (hlength : arguments.length = (ctx.interface callee).usages.length)
      (hresults : returnings.length ≤ (ctx.interface callee).results)
      (hcount : count.toNat = arguments.length) (hrequested : results.toNat = returnings.length)
      (hdistinct : (arguments.filterMap Argument.referenceName? ++ returnings).Nodup)
      (hinner : ArgumentsCode ctx t (ctx.layout.locals.length + 1)
        (ctx.passed callee arguments) inner)
      (hstores : List.Forall₂ (StoreCode ctx) returnings.reverse stores)
      (hbacks : List.Forall₂ (TakeBackCode ctx) arguments backs) :
      StatementCode (.call callee arguments returnings)
      (callable :: (inner ++ .call count results :: (stores ++ (backs ++ [.pop]))))
  | goback : StatementCode .goback [.ret]

/-- The instruction that pushes a linkage field with its initial value. -/
inductive LocalCode : Value → Instruction → Prop
  | intro {value : Value} (i : UInt16) (h : t.constants[i.toNat]? = some value) :
      LocalCode value (.load i)

/-- The code of a program: its linkage fields are pushed, its statements run, and it returns. -/
structure ProgramCode (initials : List Value) (statements : List Statement)
    (code : List Instruction) : Prop where
  intro ::
  parts :
    ∃ (locals : List Instruction) (codes : List (List Instruction)) (ending : List Instruction),
    code = locals ++ (codes.flatten ++ ending) ∧ List.Forall₂ (LocalCode t) initials locals ∧
    List.Forall₂ (StatementCode ctx t) statements codes ∧ (ending = [] ∨ ending = [.ret]) ∧
    code.getLast? = some .ret

/-- A prototype is that of a program: it has its counts, its working-storage fields and its code. -/
structure CompiledProgram (programs : List String) (interface : Callee → Interface)
    (program : Program) (prototype : Prototype) : Prop where
  wellNamed : program.WellNamed
  usings_eq : prototype.usings.toNat = program.usings.length
  returnings_eq : prototype.returnings.toNat = program.returnings.length
  fields_eq : prototype.fields.toList = program.working.map (·.initial)
  code : ProgramCode ⟨program.layout, programs, interface⟩ t program.initials
    (program.statements.flatMap Statement.lowered) prototype.code.toList

/-- A module is that of some programs. Calls among them agree with what the programs declare. -/
structure CompiledModule (interface : Callee → Interface) (programs : List Program)
    (product : Module) : Prop where
  distinct : (programs.map (·.name)).Nodup
  own : ∀ program ∈ programs, interface ⟨none, program.name⟩ =
    ⟨program.usages, program.returnings.length⟩
  prototypes : List.Forall₂
    (CompiledProgram ⟨product.constants, product.imports⟩ (programs.map (·.name)) interface)
    programs product.prototypes.toList

/-! ### Callables -/

/-- What a call of a program pushes: programs of the file go by their places. -/
def callableOf (programs : List String) : Callee → Callable
  | ⟨some owner, program⟩ => .imported ⟨owner, program⟩
  | ⟨none, program⟩ => .proto (programs.idxOf program)

/-- The two instructions that push a callable. -/
theorem CallableCode.cases_on_callable {ctx : Context} {t : Tables} (hdistinct : ctx.programs.Nodup)
    {callee : Callee} {instruction : Instruction} (h : CallableCode ctx t callee instruction) :
    (∃ (i : UInt16) (target : Import), instruction = .imported i ∧
      t.imports[i.toNat]? = some target ∧ callableOf ctx.programs callee = .imported target) ∨
    (∃ i : UInt16, instruction = .proto i ∧ callee = ⟨none, callee.program⟩ ∧
      ctx.programs[i.toNat]? = some callee.program ∧
        callableOf ctx.programs callee = .proto i.toNat) := by
  cases h with
  | imported i h => exact Or.inl ⟨i, _, rfl, h, rfl⟩
  | @own program i h =>
    obtain ⟨hlt, rfl⟩ := List.getElem?_eq_some_iff.mp h
    have hindex : ctx.programs.idxOf ctx.programs[i.toNat] = i.toNat :=
      hdistinct.idxOf_getElem i.toNat hlt
    exact Or.inr ⟨i, rfl, rfl, h, congrArg Callable.proto hindex⟩

/-- A program of the file that is called has a prototype, which agrees with what callers know about
it. -/
theorem CompiledModule.exists_prototype {interface : Callee → Interface} {programs : List Program}
    {product : Module} (h : CompiledModule interface programs product) {i : Nat} {name : String}
    (hi : (programs.map (·.name))[i]? = some name) :
    ∃ q, product.prototypes[i]? = some q ∧ q.usings.toNat = (interface ⟨none, name⟩).usages.length ∧
      q.returnings.toNat = (interface ⟨none, name⟩).results := by
  rw [List.getElem?_map] at hi
  obtain ⟨program, hprogram, rfl⟩ := Option.map_eq_some_iff.mp hi
  obtain ⟨hlt, rfl⟩ := List.getElem?_eq_some_iff.mp hprogram
  have hlt' : i < product.prototypes.toList.length := h.prototypes.length_eq ▸ hlt
  have hcompiled := h.prototypes.get hlt hlt'
  refine ⟨product.prototypes.toList[i], ?_, ?_, ?_⟩
  · rw [← Array.getElem?_toList, List.getElem?_eq_getElem hlt']
  · rw [h.own _ (List.getElem_mem hlt), Program.usages, List.length_map]
    exact hcompiled.usings_eq
  · rw [h.own _ (List.getElem_mem hlt)]
    exact hcompiled.returnings_eq

/-! ### Tables may grow -/

section growth

variable {ctx t} {t' : Tables}

theorem CallableCode.mono (hle : t.Le t') {callee : Callee} {i : Instruction}
    (h : CallableCode ctx t callee i) :
    CallableCode ctx t' callee i := by
  cases h with
  | imported i h => exact .imported i (hle.imports _ _ h)
  | own i h => exact .own i h

variable {code : List Instruction}

theorem ArgumentsCode.mono (hle : t.Le t') {depth : Nat} {items : List (Usage × Argument)}
    (h : ArgumentsCode ctx t depth items code) : ArgumentsCode ctx t' depth items code := by
  induction h with
  | nil depth => exact .nil depth
  | field hslot _ ih => exact .field hslot ih
  | number hvalue hi _ ih => exact .number hvalue (hle.constants _ _ hi) ih
  | string hi _ ih => exact .string (hle.constants _ _ hi) ih
  | call hcallable hlength hresult hcount hslot hdistinct _ hbacks _ ihinner ihrest =>
    exact .call (hcallable.mono hle) hlength hresult hcount hslot hdistinct ihinner hbacks ihrest

theorem StatementCode.mono (hle : t.Le t') {statement : Statement}
    (h : StatementCode ctx t statement code) : StatementCode ctx t' statement code := by
  cases h with
  | call hcallable hlength hresults hcount hrequested hdistinct hinner hstores hbacks =>
    exact .call (hcallable.mono hle) hlength hresults hcount hrequested hdistinct (hinner.mono hle)
      hstores hbacks
  | goback => exact .goback

theorem ProgramCode.mono (hle : t.Le t') {initials : List Value} {statements : List Statement}
    (h : ProgramCode ctx t initials statements code) :
    ProgramCode ctx t' initials statements code := by
  obtain ⟨locals, codes, ending, hcode, hlocals, hcodes, hending, hlast⟩ := h.parts
  refine ⟨locals, codes, ending, hcode, ?_, ?_, hending, hlast⟩
  · exact hlocals.imp fun v i hi => by
      cases hi with | intro i h => exact .intro i (hle.constants _ _ h)
  · exact hcodes.imp fun s c hc => hc.mono hle

theorem CompiledProgram.mono (hle : t.Le t') {programs : List String}
    {interface : Callee → Interface} {program : Program} {prototype : Prototype}
    (h : CompiledProgram t programs interface program prototype) :
    CompiledProgram t' programs interface program prototype :=
  { h with code := h.code.mono hle }

/-- Code of some arguments and code of more of them. -/
theorem ArgumentsCode.append {depth : Nat} {items more : List (Usage × Argument)}
    {rest : List Instruction} (h : ArgumentsCode ctx t depth items code)
    (hmore : ArgumentsCode ctx t (depth + items.length) more rest) :
    ArgumentsCode ctx t depth (items ++ more) (code ++ rest) := by
  induction h with
  | nil depth => exact hmore
  | @field depth usage name byContent slot items code hslot _ ih =>
    have hshift : depth + 1 + items.length = depth + (items.length + 1) := by omega
    exact .field hslot (ih (by rwa [hshift]))
  | @number depth usage text value i items code hvalue hi _ ih =>
    have hshift : depth + 1 + items.length = depth + (items.length + 1) := by omega
    exact .number hvalue hi (ih (by rwa [hshift]))
  | @string depth usage text i items code hi _ ih =>
    have hshift : depth + 1 + items.length = depth + (items.length + 1) := by omega
    exact .string hi (ih (by rwa [hshift]))
  | @call depth _ _ _ _ _ _ inner backs items code hcallable hlength hresult hcount hslot hdistinct
    hinner hbacks _ _ ih =>
    have hshift : depth + 1 + items.length = depth + (items.length + 1) := by omega
    simp only [List.cons_append, List.append_assoc]
    exact .call hcallable hlength hresult hcount hslot hdistinct hinner hbacks
      (ih (by rwa [hshift]))

end growth

end Translation

end CobolCompiler
