import CobolCompiler.Proofs.StackMachine
import Mathlib.Logic.Function.Basic
import Mathlib.Logic.Relation

/-!
# Running modules together

The machine of one program leaves its calls to an interpretation. Here calls are carried out:
several modules are linked, and a call starts the prototype that its callable stands for. Callers
wait in a list of activations until the program that they called returns.

* `Image`: modules with a choice of prototypes for their imports.
* `Configuration`: the working storage of all prototypes, and the programs that run.
* `Step` and `Image.Reaches`: what can happen from one moment to the next, and from the beginning.
* `Image.next?` and `Image.run?`: steps that are computed.

Working storage belongs to a prototype and keeps its values between calls, also when a program calls
itself. The arguments of a call are copied to the activation that it starts, and copied back when
this returns.
-/

namespace CobolCompiler.Machine

/-! ### Images -/

/-- The place of a prototype among several modules. -/
structure Address where
  unit : Nat
  prototype : Nat
  deriving DecidableEq, Repr

/-- Modules that are linked. -/
structure Image where
  modules : List Module
  /-- The prototype that an import of a module is bound to. -/
  Binds : Nat → Import → Address → Prop

namespace Image

def prototype? (image : Image) (address : Address) : Option Prototype :=
  image.modules[address.unit]?.bind fun m => m.prototypes[address.prototype]?

/-- The prototype that a callable of a module stands for. -/
inductive Target (image : Image) (unit : Nat) : Callable → Address → Prop
  | proto (i : Nat) : image.Target unit (.proto i) ⟨unit, i⟩
  | imported {target : Import} {address : Address} (h : image.Binds unit target address) :
      image.Target unit (.imported target) address

end Image

/-! ### Configurations -/

/-- A program that was started and has not returned. -/
structure Activation where
  home : Address
  /-- The arguments, as the program has changed them. -/
  usings : List Value
  stack : List Entry
  /-- The instructions that are still to come. -/
  code : List Instruction
  /-- The number of results that the caller asked for. -/
  requested : Nat
  deriving DecidableEq, Repr

/-- The activation in which a prototype starts. -/
def Activation.start (address : Address) (prototype : Prototype) (arguments : List Value)
    (requested : Nat) : Activation :=
  ⟨address, arguments, [], prototype.code.toList, requested⟩

/-- The state of a machine that runs several modules. -/
structure Configuration where
  /-- The working-storage fields of each prototype. -/
  storage : Address → List Value
  /-- The activations, the one that runs first and then its callers. -/
  activations : List Activation

/-- Working storage before anything has run. -/
def Image.initial (image : Image) : Configuration where
  storage := fun address => (image.prototype? address).elim [] (·.fields.toList)
  activations := []

/-- The frame of an activation. -/
def Activation.frame (a : Activation) (storage : Address → List Value) : Frame :=
  ⟨storage a.home, a.usings, a.stack, []⟩

/-- Calls that give back what they were given. -/
def Interpretation.idle : Interpretation where
  respond := fun _ requested arguments => (arguments, List.replicate requested default)
  length_arguments := fun _ _ _ => rfl
  length_results := fun _ _ _ => Nat.le_of_eq List.length_replicate.symm

/-- What an instruction does that neither calls nor returns. -/
def Frame.advance (m : Module) (f : Frame) (i : Instruction) : Option Frame :=
  match i with
  | .call _ _ => none
  | i => f.step .idle m i

/-! ### Steps -/

/-- What can happen next, if programs are entered from outside with arguments that `Admits`
allows. -/
inductive Step (image : Image) (Admits : Address → List Value → Prop) :
    Configuration → Configuration → Prop
  /-- A program is started from outside. -/
  | enter {storage : Address → List Value} {address : Address} {prototype : Prototype}
      {arguments : List Value} (hprototype : image.prototype? address = some prototype)
      (harguments : Admits address arguments) :
      Step image Admits ⟨storage, []⟩ ⟨storage, [.start address prototype arguments 0]⟩
  | advance {storage : Address → List Value} {a : Activation}
      {rest : List Activation} {i : Instruction} {code : List Instruction} {m : Module}
      {f : Frame} (hcode : a.code = i :: code) (hmodule : image.modules[a.home.unit]? = some m)
      (hstep : (a.frame storage).advance m i = some f) :
      Step image Admits ⟨storage, a :: rest⟩ ⟨Function.update storage a.home f.fields,
        { a with usings := f.usings, stack := f.stack, code } :: rest⟩
  /-- A call takes the arguments off the stack of the caller, which keeps the callable on top. -/
  | call {storage : Address → List Value} {a : Activation} {rest : List Activation}
      {count requested : UInt8} {code : List Instruction} {below top : List Entry}
      {callable : Callable} {arguments : List Value}
      {address : Address} {prototype : Prototype} (hcode : a.code = .call count requested :: code)
      (hstack : splitCall? count.toNat a.stack = some (below, .callable callable, top))
      (harguments : top.reverse.mapM Entry.value? = some arguments)
      (htarget : image.Target a.home.unit callable address)
      (hprototype : image.prototype? address = some prototype) :
      Step image Admits ⟨storage, a :: rest⟩
        ⟨storage, .start address prototype arguments requested.toNat ::
          { a with stack := below ++ [.callable callable], code } :: rest⟩
  /-- A program that returns gives its arguments back, with its results above them. -/
  | ret {storage : Address → List Value} {a caller : Activation} {rest : List Activation}
      {code : List Instruction} {results : List Value} (hcode : a.code = .ret :: code)
      (hresults : (a.stack.take a.requested).mapM Entry.value? = some results)
      (hlength : results.length = a.requested) :
      Step image Admits ⟨storage, a :: caller :: rest⟩ ⟨storage,
        { caller with stack := caller.stack ++ (a.usings.reverse ++ results).map .value } :: rest⟩
  /-- The program that was started from outside returns. -/
  | leave {storage : Address → List Value} {a : Activation} {code : List Instruction}
      (hcode : a.code = .ret :: code) : Step image Admits ⟨storage, [a]⟩ ⟨storage, []⟩

/-- A configuration that can come about. -/
def Image.Reaches (image : Image) (Admits : Address → List Value → Prop) : Configuration → Prop :=
  Relation.ReflTransGen (Step image Admits) image.initial

theorem Step.mono {image : Image} {Admits Admits' : Address → List Value → Prop}
    (hadmits : ∀ address arguments, Admits address arguments → Admits' address arguments)
    {c c' : Configuration} (h : Step image Admits c c') : Step image Admits' c c' := by
  cases h with
  | enter hprototype harguments => exact .enter hprototype (hadmits _ _ harguments)
  | advance hcode hmodule hstep => exact .advance hcode hmodule hstep
  | call hcode hstack harguments htarget hprototype =>
    exact .call hcode hstack harguments htarget hprototype
  | ret hcode hresults hlength => exact .ret hcode hresults hlength
  | leave hcode => exact .leave hcode

theorem Image.Reaches.mono {image : Image} {Admits Admits' : Address → List Value → Prop}
    (hadmits : ∀ address arguments, Admits address arguments → Admits' address arguments)
    {c : Configuration} (h : image.Reaches Admits c) : image.Reaches Admits' c := by
  induction h with
  | refl => exact .refl
  | tail _ hstep ih => exact ih.tail (hstep.mono hadmits)

/-! ### Evaluation -/

/-- The callable that an entry is. -/
def Entry.callable? : Entry → Option Callable
  | .value _ => none
  | .callable c => some c

namespace Image

variable (image : Image) (bind? : Nat → Import → Option Address)

/-- The prototype that a callable of a module stands for, if a function chooses those of imports. -/
def target? (unit : Nat) : Callable → Option Address
  | .proto i => some ⟨unit, i⟩
  | .imported target => bind? unit target

section single

variable (storage : Address → List Value) (a : Activation) (rest : List Activation)

/-- A call is carried out. -/
def call? (count requested : UInt8) (code : List Instruction) : Option Configuration := do
  let (below, entry, top) ← splitCall? count.toNat a.stack
  let callable ← entry.callable?
  let arguments ← top.reverse.mapM Entry.value?
  let address ← target? bind? a.home.unit callable
  let prototype ← image.prototype? address
  return ⟨storage, .start address prototype arguments requested.toNat ::
    { a with stack := below ++ [.callable callable], code } :: rest⟩

/-- An instruction is carried out that neither calls nor returns. -/
def advance? (i : Instruction) (code : List Instruction) : Option Configuration := do
  let m ← image.modules[a.home.unit]?
  let f ← (a.frame storage).advance m i
  return ⟨Function.update storage a.home f.fields,
    { a with usings := f.usings, stack := f.stack, code } :: rest⟩

/-- A program returns, to its caller or to where it was started from outside. -/
def ret? : List Activation → Option Configuration
  | [] => some ⟨storage, []⟩
  | caller :: rest => do
    let results ← (a.stack.take a.requested).mapM Entry.value?
    if results.length = a.requested then
      some ⟨storage,
        { caller with stack := caller.stack ++ (a.usings.reverse ++ results).map .value } :: rest⟩
    else none

end single

/-- What the activation that runs does next. -/
def next? (c : Configuration) : Option Configuration := do
  let a ← c.activations.head?
  let i ← a.code.head?
  match i with
  | .call count requested =>
    image.call? bind? c.storage a c.activations.tail count requested a.code.tail
  | .ret => ret? c.storage a c.activations.tail
  | i => image.advance? c.storage a c.activations.tail i a.code.tail

/-- A program is started from outside, before anything else has run. -/
def enter? (address : Address) (arguments : List Value) : Option Configuration :=
  (image.prototype? address).map fun prototype =>
    ⟨image.initial.storage, [.start address prototype arguments 0]⟩

/-- A number of steps. -/
def run? : Nat → Configuration → Option Configuration
  | 0, c => some c
  | n + 1, c => (image.next? bind? c).bind (run? n)

variable {image bind?} {Admits : Address → List Value → Prop}

theorem reaches_of_enter? {address : Address} {arguments : List Value}
    (harguments : Admits address arguments)
    {c : Configuration} (h : image.enter? address arguments = some c) : image.Reaches Admits c := by
  obtain ⟨prototype, hprototype, rfl⟩ := Option.map_eq_some_iff.mp h
  exact .single (.enter hprototype harguments)

variable (hbind : ∀ unit target address, bind? unit target = some address →
    image.Binds unit target address)

include hbind

theorem target_of_target? {unit : Nat} {c : Callable} {address : Address}
    (h : target? bind? unit c = some address) : image.Target unit c address := by
  cases c with
  | proto i =>
    obtain rfl := Option.some.inj h
    exact .proto i
  | imported target => exact .imported (hbind unit target address h)

section single

variable {storage : Address → List Value} {a : Activation} {rest : List Activation}
  {code : List Instruction} {c : Configuration}

theorem step_of_call? {count requested : UInt8} (hcode : a.code = .call count requested :: code)
    (h : image.call? bind? storage a rest count requested code = some c) :
    Step image Admits ⟨storage, a :: rest⟩ c := by
  obtain ⟨⟨below, entry, top⟩, hstack, h⟩ := Option.bind_eq_some_iff.mp h
  obtain ⟨callable, hcallable, h⟩ := Option.bind_eq_some_iff.mp h
  obtain ⟨arguments, harguments, h⟩ := Option.bind_eq_some_iff.mp h
  obtain ⟨address, haddress, h⟩ := Option.bind_eq_some_iff.mp h
  obtain ⟨prototype, hprototype, h⟩ := Option.bind_eq_some_iff.mp h
  obtain rfl := Option.some.inj h
  cases entry with
  | value v => cases hcallable
  | callable c =>
    obtain rfl := Option.some.inj hcallable
    exact .call hcode hstack harguments (target_of_target? hbind haddress) hprototype

omit hbind in
theorem step_of_advance? {i : Instruction} (hcode : a.code = i :: code)
    (h : image.advance? storage a rest i code = some c) :
    Step image Admits ⟨storage, a :: rest⟩ c := by
  obtain ⟨m, hmodule, h⟩ := Option.bind_eq_some_iff.mp h
  obtain ⟨f, hf, h⟩ := Option.bind_eq_some_iff.mp h
  obtain rfl := Option.some.inj h
  exact .advance hcode hmodule hf

omit hbind in
theorem step_of_ret? (hcode : a.code = .ret :: code) (h : ret? storage a rest = some c) :
    Step image Admits ⟨storage, a :: rest⟩ c := by
  cases rest with
  | nil =>
    obtain rfl := Option.some.inj h
    exact .leave hcode
  | cons caller rest =>
    obtain ⟨results, hresults, h⟩ := Option.bind_eq_some_iff.mp h
    by_cases hlength : results.length = a.requested
    · rw [if_pos hlength] at h
      obtain rfl := Option.some.inj h
      exact .ret hcode hresults hlength
    · rw [if_neg hlength] at h
      cases h

end single

/-- What is computed can happen. -/
theorem step_of_next? {c c' : Configuration} (h : image.next? bind? c = some c') :
    Step image Admits c c' := by
  obtain ⟨storage, activations⟩ := c
  obtain ⟨a, ha, h⟩ := Option.bind_eq_some_iff.mp h
  obtain ⟨i, hi, h⟩ := Option.bind_eq_some_iff.mp h
  obtain ⟨rest, rfl⟩ := List.head?_eq_some_iff.mp ha
  obtain ⟨code, hcode⟩ := List.head?_eq_some_iff.mp hi
  rw [hcode] at h
  cases i with
  | call count requested => exact step_of_call? hbind hcode h
  | ret => exact step_of_ret? hcode h
  | _ => exact step_of_advance? hcode h

theorem reaches_of_run? {n : Nat} {c c' : Configuration} (hreaches : image.Reaches Admits c)
    (h : run? image bind? n c = some c') : image.Reaches Admits c' := by
  induction n generalizing c with
  | zero =>
    obtain rfl := Option.some.inj h
    exact hreaches
  | succ n ih =>
    obtain ⟨next, hnext, hrest⟩ := Option.bind_eq_some_iff.mp h
    exact ih (hreaches.tail (step_of_next? hbind hnext)) hrest

end Image

end CobolCompiler.Machine
