import CobolCompiler.Machine.Module
import Mathlib.Data.List.Basic

/-!
# Running code

A machine for the code of one program. The callee of a call is not run: what it does to its
arguments and which results it has is said by an interpretation, which is a parameter.

Code has no jumps, so a run goes down the list of instructions, to the first return. The machine
gets stuck where an instruction does not find what it needs, and where code ends without a return.

Stacks are lists with the top at the end, so that the slots of a frame are the first entries.
-/

namespace CobolCompiler.Machine

/-- A program that code can call. -/
inductive Callable
  /-- A program of another module. -/
  | imported (target : Import)
  /-- A program of the same module. -/
  | proto (index : Nat)
  deriving DecidableEq, Repr

/-! ### Stacks -/

section operands

variable {α : Type}

/-- The top of a stack, and what is under it. -/
def pop? (stack : List α) : Option (List α × α) :=
  stack.getLast?.map fun top => (stack.dropLast, top)

/-- The top entries of a stack, the entry under them, and what is under that. -/
def splitCall? (count : Nat) (stack : List α) : Option (List α × α × List α) :=
  let depth := stack.length - (count + 1)
  match stack.drop depth with
  | [] => none
  | under :: top => if top.length = count then some (stack.take depth, under, top) else none

@[simp] theorem pop?_append (stack : List α) (top : α) :
    pop? (stack ++ [top]) = some (stack, top) := by
  simp [pop?]

theorem splitCall?_append (below : List α) (under : α) (top : List α) :
    splitCall? top.length (below ++ under :: top) = some (below, under, top) := by
  have hdepth : (below ++ under :: top).length - (top.length + 1) = below.length := by simp
  rw [splitCall?, hdepth, List.drop_left, List.take_left]
  simp

theorem eq_of_pop? {stack rest : List α} {top : α} (h : pop? stack = some (rest, top)) :
    stack = rest ++ [top] := by
  obtain ⟨last, hlast, heq⟩ := Option.map_eq_some_iff.mp h
  obtain ⟨rfl, rfl⟩ := Prod.ext_iff.mp heq
  exact (List.dropLast_append_getLast? _ hlast).symm

theorem eq_of_splitCall? {stack below top : List α} {under : α} {count : Nat}
    (h : splitCall? count stack = some (below, under, top)) :
    stack = below ++ under :: top ∧ top.length = count := by
  rw [splitCall?] at h
  split at h
  · cases h
  · next under' top' hdrop =>
    split at h
    · next hlength =>
      cases h
      refine ⟨?_, hlength⟩
      rw [← hdrop, List.take_append_drop]
    · cases h

end operands

/-! ### Runs -/

/-- An entry of the stack. -/
inductive Entry
  | value (v : Value)
  | callable (c : Callable)
  deriving DecidableEq, Repr

/-- The value that an entry is. -/
def Entry.value? : Entry → Option Value
  | .value v => some v
  | .callable _ => none

/-- A call that was made. -/
structure Performed where
  callable : Callable
  arguments : List Value
  /-- The number of results that were asked for. -/
  requested : Nat
  deriving DecidableEq, Repr

/-- What callables do: a call gives back its arguments, possibly modified, and at least as many
results as it was asked for. -/
structure Interpretation where
  respond : Callable → Nat → List Value → List Value × List Value
  length_arguments : ∀ callable requested arguments,
    (respond callable requested arguments).1.length = arguments.length
  length_results : ∀ callable requested arguments,
    requested ≤ (respond callable requested arguments).2.length

/-- The state of a program that runs. -/
structure Frame where
  /-- The working-storage fields. -/
  fields : List Value
  /-- The arguments of the program, which lie below the frame: the first one at -1, the second one
  at -2. -/
  usings : List Value
  stack : List Entry
  /-- The calls made so far. -/
  calls : List Performed
  deriving DecidableEq, Repr

namespace Frame

def push (f : Frame) (entry : Entry) : Frame :=
  { f with stack := f.stack ++ [entry] }

/-- The value in a slot of the frame. -/
def slot? (f : Frame) (slot : Int16) : Option Value :=
  match slot.toInt with
  | .ofNat k => f.stack[k]?.bind Entry.value?
  | .negSucc k => f.usings[k]?

/-- Put a value into a slot of the frame. -/
def setSlot? (f : Frame) (slot : Int16) (v : Value) : Option Frame :=
  match slot.toInt with
  | .ofNat k =>
    if k < f.stack.length then some { f with stack := f.stack.set k (.value v) } else none
  | .negSucc k => if k < f.usings.length then some { f with usings := f.usings.set k v } else none

/-- Take a value off the stack. -/
def popValue? (f : Frame) : Option (Frame × Value) := do
  let (stack, top) ← pop? f.stack
  return ({ f with stack }, ← top.value?)

variable (interpretation : Interpretation) (m : Module)

/-- What one instruction does, other than to return. -/
def step (f : Frame) : Instruction → Option Frame
  | .load i => m.constants[i.toNat]?.map fun v => f.push (.value v)
  | .loadField i => f.fields[i.toNat]?.map fun v => f.push (.value v)
  | .store i => do
    let (f, v) ← f.popValue?
    if i.toNat < f.fields.length then some { f with fields := f.fields.set i.toNat v } else none
  | .push slot => (f.slot? slot).map fun v => f.push (.value v)
  | .replace slot => do
    let (f, v) ← f.popValue?
    f.setSlot? slot v
  | .pop => (pop? f.stack).map fun popped => { f with stack := popped.1 }
  | .imported i => m.imports[i.toNat]?.map fun target => f.push (.callable (.imported target))
  | .proto i =>
    if i.toNat < m.prototypes.size then some (f.push (.callable (.proto i.toNat))) else none
  | .call usings returnings =>
    match splitCall? usings.toNat f.stack with
    | some (below, .callable callable, top) => do
      -- the first argument lies on top
      let arguments ← top.reverse.mapM Entry.value?
      let (modified, results) := interpretation.respond callable returnings.toNat arguments
      return { f with
        stack := below ++ .callable callable ::
          (modified.reverse ++ results.take returnings.toNat).map .value
        calls := f.calls ++ [⟨callable, arguments, returnings.toNat⟩] }
    | _ => none
  | .ret => none

/-- What instructions do, none of which returns. -/
def exec (code : List Instruction) (f : Frame) : Option Frame :=
  code.foldlM (step interpretation m) f

/-- The state in which code returns. -/
def run : List Instruction → Frame → Option Frame
  | [], _ => none
  | .ret :: _, f => some f
  | i :: rest, f => (f.step interpretation m i).bind (run rest)

variable {interpretation m}

/-- A run goes on behind code that does not return. -/
theorem run_append {code rest : List Instruction} {f f' : Frame}
    (h : f.exec interpretation m code = some f') :
    f.run interpretation m (code ++ rest) = f'.run interpretation m rest := by
  induction code generalizing f with
  | nil =>
    obtain rfl := Option.some.inj h
    rfl
  | cons i code ih =>
    rw [exec, List.foldlM_cons] at h
    obtain ⟨next, hnext, hrest⟩ := Option.bind_eq_some_iff.mp h
    have hrun : f.run interpretation m (i :: (code ++ rest)) =
        (f.step interpretation m i).bind (run interpretation m (code ++ rest)) := by
      cases i with
      | ret => cases hnext
      | _ => rfl
    rw [List.cons_append, hrun, hnext]
    exact ih hrest

end Frame

end CobolCompiler.Machine
