import CobolCompiler.Proofs.Safety
import CobolCompiler.Proofs.StackMachine
import Mathlib.Algebra.Ring.Int.Defs

/-!
# Verification of code

A verifier for the code of a prototype. It reads the code from top to bottom and only knows of each
entry of the stack whether it is a value, a callable that was not called yet, or one that was
(`Verifier.Entry`). A callable can be used up by one call only, and nothing but a call can use it
up, so that every call is matched with the instruction that pushed its callable.

* `Verifier.step` says what one instruction needs and leaves; `Verifier.check` reads a list of them.
* `Verified` says what it means that code passes the verifier, in terms of the depth of the stack.
* `compiled_code_verified`: the code of every program of a compiled module passes, statement by
  statement, and makes the calls that the syntax of the program asks for.
-/

namespace CobolCompiler.Machine

namespace Verifier

variable {slot : Int16}

/-- What is known of an entry of the stack. -/
inductive Entry
  | value
  /-- A callable that waits for its call. -/
  | callable (c : Callable)
  /-- A callable that was called. -/
  | spent
  deriving DecidableEq, Repr

/-- A call as the verifier sees it. -/
structure CallShape where
  callable : Callable
  usings : Nat
  returnings : Nat
  deriving DecidableEq, Repr

/-- What is known at one point of the code. -/
structure State where
  stack : List Entry
  /-- The calls so far. -/
  calls : List CallShape
  deriving DecidableEq, Repr

variable (m : Module) (p : Prototype) (floor : Nat)

/-- Whether a call agrees with the program that it calls, if that is one of the module. -/
def agrees (call : CallShape) : Bool :=
  match call.callable with
  | .imported _ => true
  | .proto i =>
    m.prototypes[i]?.any fun q => call.usings = q.usings.toNat && call.returnings ≤
      q.returnings.toNat

/-- Whether a slot is that of a linkage field: a parameter, or one of the entries that are pushed
first. -/
def isLinkage (slot : Int16) : Bool :=
  match slot.toInt with
  | .ofNat k => k < floor
  | .negSucc k => k < p.usings.toNat

/-- Take an entry off the stack, above the linkage fields. -/
def popAbove? (stack : List Entry) : Option (List Entry × Entry) :=
  if floor < stack.length then pop? stack else none

/-- Put a value into a slot: that of a linkage field, or of a callable that was called. -/
def replace? (stack : List Entry) (slot : Int16) : Option (List Entry) :=
  if isLinkage p floor slot then some stack
  else match slot.toInt with
    | .ofNat k => if stack[k]? = some .spent then some (stack.set k .value) else none
    | .negSucc _ => none

/-- What an instruction needs, and what is known after it. -/
def step (s : State) : Instruction → Option State
  | .load i =>
    if i.toNat < m.constants.size then some { s with stack := s.stack ++ [.value] } else none
  | .loadField i =>
    if i.toNat < p.fields.size then some { s with stack := s.stack ++ [.value] } else none
  | .push slot =>
    if isLinkage p floor slot ∧ floor ≤ s.stack.length
      then some { s with stack := s.stack ++ [.value] } else none
  | .imported i =>
    m.imports[i.toNat]?.map fun target =>
      { s with stack := s.stack ++ [.callable (.imported target)] }
  | .proto i =>
    if i.toNat < m.prototypes.size
      then some { s with stack := s.stack ++ [.callable (.proto i.toNat)] } else none
  | .store i =>
    match popAbove? floor s.stack with
    | some (stack, .value) => if i.toNat < p.fields.size then some { s with stack } else none
    | _ => none
  | .replace slot =>
    match popAbove? floor s.stack with
    | some (stack, .value) => (replace? p floor stack slot).map fun stack => { s with stack }
    | _ => none
  | .pop =>
    match popAbove? floor s.stack with
    | some (stack, .value) => some { s with stack }
    | some (stack, .spent) => some { s with stack }
    | _ => none
  | .call usings returnings =>
    match splitCall? usings.toNat s.stack with
    | some (below, .callable c, top) =>
      if top = List.replicate usings.toNat .value ∧ agrees m ⟨c, usings.toNat, returnings.toNat⟩
        then
        some ⟨below ++ .spent :: (top ++ List.replicate returnings.toNat .value),
          s.calls ++ [⟨c, usings.toNat, returnings.toNat⟩]⟩
      else none
    | _ => none
  | .ret => if s.stack = List.replicate floor .value then some s else none

/-- What is known after some code. -/
def check (code : List Instruction) (s : State) : Option State :=
  code.foldlM (step m p floor) s

/-- How an instruction changes the depth of the stack. -/
def effect : Instruction → Int
  | .load _ | .loadField _ | .push _ | .imported _ | .proto _ => 1
  | .store _ | .replace _ | .pop => -1
  | .call _ returnings => returnings.toNat
  | .ret => 0

/-- The depth of the stack after some code. -/
def depth (code : List Instruction) : Int :=
  (code.map effect).sum

/-- The indexes in an instruction are those of something that is there, when the stack has some
depth. -/
def InBounds (depth : Int) : Instruction → Prop
  | .load i => i.toNat < m.constants.size
  | .loadField i | .store i => i.toNat < p.fields.size
  | .imported i => i.toNat < m.imports.size
  | .proto i => i.toNat < m.prototypes.size
  | .push slot => -(p.usings.toNat : Int) ≤ slot.toInt ∧ slot.toInt < depth
  | .replace slot => -(p.usings.toNat : Int) ≤ slot.toInt ∧ slot.toInt < depth - 1
  | .pop | .call .. | .ret => True

/-! ### What passing means -/

section meaning

variable {m p floor}
variable {code : List Instruction} {i : Instruction} {s s' : State}

theorem isLinkage_iff :
    isLinkage p floor slot = true ↔ -(p.usings.toNat : Int) ≤ slot.toInt ∧ slot.toInt < floor := by
  unfold isLinkage
  split
  · next k hk =>
    have hslot : slot.toInt = k := hk
    rw [decide_eq_true_eq]
    omega
  · next k hk =>
    rw [decide_eq_true_eq]
    omega

theorem length_push (stack : List Entry) (top : Entry) :
    ((stack ++ [top]).length : Int) = stack.length + 1 := by
  rw [List.length_append, List.length_singleton]
  omega

theorem le_length_push {stack : List Entry} (top : Entry) (h : floor ≤ stack.length) :
    floor ≤ (stack ++ [top]).length := by
  rw [List.length_append]
  omega

theorem length_of_popAbove? {stack rest : List Entry} {top : Entry}
    (h : popAbove? floor stack = some (rest, top)) :
    (rest.length : Int) = stack.length + -1 ∧ floor ≤ rest.length := by
  unfold popAbove? at h
  split at h
  · next hlt =>
    rw [eq_of_pop? h, List.length_append, List.length_singleton] at hlt ⊢
    omega
  · cases h

theorem replace?_eq_some {stack stack' : List Entry} (hfloor : floor ≤ stack.length)
    (h : replace? p floor stack slot = some stack') :
    stack'.length = stack.length ∧ -(p.usings.toNat : Int) ≤ slot.toInt ∧
      slot.toInt < stack.length := by
  unfold replace? at h
  split at h
  · next hlinkage =>
    obtain ⟨hlow, hhigh⟩ := isLinkage_iff.mp hlinkage
    obtain rfl := Option.some.inj h
    exact ⟨rfl, hlow, by omega⟩
  · split at h
    · next k hk =>
      split at h
      · next hspent =>
        obtain ⟨hlt, -⟩ := List.getElem?_eq_some_iff.mp hspent
        obtain rfl := Option.some.inj h
        have hslot : slot.toInt = k := hk
        exact ⟨List.length_set, by omega, by omega⟩
      · cases h
    · cases h

/-- What an instruction that passes tells: how deep the stack is after it, that it does not reach
into the linkage fields, and that its indexes are right. -/
theorem step_eq_some (h : step m p floor s i = some s') :
    (s'.stack.length : Int) = s.stack.length + effect i ∧
      (floor ≤ s.stack.length → floor ≤ s'.stack.length) ∧ InBounds m p s.stack.length i := by
  cases i with
  | load c =>
    simp only [step, Option.ite_none_right_eq_some, Option.some.injEq] at h
    obtain ⟨hlt, rfl⟩ := h
    exact ⟨length_push _ _, le_length_push _, hlt⟩
  | loadField f =>
    simp only [step, Option.ite_none_right_eq_some, Option.some.injEq] at h
    obtain ⟨hlt, rfl⟩ := h
    exact ⟨length_push _ _, le_length_push _, hlt⟩
  | push slot =>
    simp only [step, Option.ite_none_right_eq_some, Option.some.injEq] at h
    obtain ⟨⟨hlinkage, hfloor⟩, rfl⟩ := h
    obtain ⟨hlow, hhigh⟩ := isLinkage_iff.mp hlinkage
    exact ⟨length_push _ _, le_length_push _, hlow, by omega⟩
  | imported i =>
    simp only [step, Option.map_eq_some_iff] at h
    obtain ⟨target, htarget, rfl⟩ := h
    obtain ⟨hlt, -⟩ := Array.getElem?_eq_some_iff.mp htarget
    exact ⟨length_push _ _, le_length_push _, hlt⟩
  | proto i =>
    simp only [step, Option.ite_none_right_eq_some, Option.some.injEq] at h
    obtain ⟨hlt, rfl⟩ := h
    exact ⟨length_push _ _, le_length_push _, hlt⟩
  | store f =>
    simp only [step] at h
    split at h
    · next rest hpop =>
      simp only [Option.ite_none_right_eq_some, Option.some.injEq] at h
      obtain ⟨hlt, rfl⟩ := h
      obtain ⟨hdepth, hfloor⟩ := length_of_popAbove? hpop
      exact ⟨hdepth, fun _ => hfloor, hlt⟩
    · cases h
  | replace slot =>
    simp only [step] at h
    split at h
    · next rest hpop =>
      simp only [Option.map_eq_some_iff] at h
      obtain ⟨stack, hreplace, rfl⟩ := h
      obtain ⟨hdepth, hfloor⟩ := length_of_popAbove? hpop
      obtain ⟨hlength, hlow, hhigh⟩ := replace?_eq_some hfloor hreplace
      exact ⟨hlength ▸ hdepth, fun _ => hlength ▸ hfloor, hlow, by omega⟩
    · cases h
  | pop =>
    simp only [step] at h
    split at h
    · next rest hpop =>
      obtain rfl := Option.some.inj h
      obtain ⟨hdepth, hfloor⟩ := length_of_popAbove? hpop
      exact ⟨hdepth, fun _ => hfloor, trivial⟩
    · next rest hpop =>
      obtain rfl := Option.some.inj h
      obtain ⟨hdepth, hfloor⟩ := length_of_popAbove? hpop
      exact ⟨hdepth, fun _ => hfloor, trivial⟩
    · cases h
  | call usings returnings =>
    simp only [step] at h
    split at h
    · -- the arguments stay where they are, and the results come on top of them
      next below c top hsplit =>
      obtain ⟨hstack, -⟩ := eq_of_splitCall? hsplit
      simp only [Option.ite_none_right_eq_some, Option.some.injEq] at h
      obtain ⟨-, rfl⟩ := h
      simp only [hstack, List.length_append, List.length_cons, List.length_replicate, effect]
      exact ⟨by omega, by omega, trivial⟩
    · cases h
  | ret =>
    simp only [step, Option.ite_none_right_eq_some, Option.some.injEq] at h
    obtain ⟨-, rfl⟩ := h
    exact ⟨by simp [effect], id, trivial⟩

theorem check_cons {s : State} :
    check m p floor (i :: code) s = (step m p floor s i).bind (check m p floor code) :=
  List.foldlM_cons

theorem check_append {code rest : List Instruction} {s : State} :
    check m p floor (code ++ rest) s = (check m p floor code s).bind (check m p floor rest) :=
  List.foldlM_append

theorem depth_cons (i : Instruction) (code : List Instruction) :
    depth (i :: code) = effect i + depth code := by
  rw [depth, List.map_cons, List.sum_cons]
  rfl

theorem depth_append (code rest : List Instruction) :
    depth (code ++ rest) = depth code + depth rest := by
  rw [depth, List.map_append, List.sum_append]
  rfl

/-- What a list of instructions that passes tells. -/
theorem check_eq_some (h : check m p floor code s = some s') :
    (s'.stack.length : Int) = s.stack.length + depth code ∧
      (floor ≤ s.stack.length → floor ≤ s'.stack.length) := by
  induction code generalizing s with
  | nil =>
    obtain rfl := Option.some.inj h
    exact ⟨by simp [depth], id⟩
  | cons i code ih =>
    rw [check_cons] at h
    obtain ⟨t, hstep, hrest⟩ := Option.bind_eq_some_iff.mp h
    obtain ⟨hlength, hfloor, -⟩ := step_eq_some hstep
    obtain ⟨hlength', hfloor'⟩ := ih hrest
    refine ⟨?_, fun hs => hfloor' (hfloor hs)⟩
    rw [hlength', hlength, depth_cons, Int.add_assoc]

/-- Where code that passes is read up to some instruction, that instruction passes. -/
theorem exists_step_of_check (h : check m p floor code s = some s') {k : Nat}
    (hk : code[k]? = some i) :
    ∃ t t', check m p floor (code.take k) s = some t ∧ step m p floor t i = some t' := by
  obtain ⟨hlt, rfl⟩ := List.getElem?_eq_some_iff.mp hk
  have hsplit : code = code.take k ++ code[k] :: code.drop (k + 1) := by
    rw [← List.drop_eq_getElem_cons hlt, List.take_append_drop]
  rw [hsplit, check_append] at h
  obtain ⟨t, ht, hrest⟩ := Option.bind_eq_some_iff.mp h
  rw [check_cons] at hrest
  obtain ⟨t', ht', -⟩ := Option.bind_eq_some_iff.mp hrest
  exact ⟨t, t', ht, ht'⟩

theorem exists_check_take (h : check m p floor code s = some s') (k : Nat) :
    ∃ t, check m p floor (code.take k) s = some t := by
  rw [← List.take_append_drop k code, check_append] at h
  obtain ⟨t, ht, -⟩ := Option.bind_eq_some_iff.mp h
  exact ⟨t, ht⟩

end meaning

/-- Code passes from one stack to another, with some calls on the way. -/
def Passes (code : List Instruction) (stack stack' : List Entry) (calls : List CallShape) : Prop :=
  ∀ before, check m p floor code ⟨stack, before⟩ = some ⟨stack', before ++ calls⟩

/-- The stack between two statements, on which only linkage fields are. -/
def linkage : List Entry :=
  List.replicate floor .value

/-- What is required of the code of a prototype, when some number of linkage fields is pushed and
its statements make some calls. -/
structure Verified (calls : List (List CallShape)) : Prop where
  /-- The linkage fields are pushed first; then the code of each statement begins and ends with
  nothing else on the stack, and makes the calls of the statement. -/
  statements : ∃ loads codes ending, p.code.toList = loads ++ (codes.flatten ++ ending) ∧
    loads.length = floor ∧ (∀ i ∈ loads, ∃ constant, i = .load constant) ∧
    List.Forall₂ (fun code => Passes m p floor code (linkage floor) (linkage floor)) codes calls ∧
    (∀ k, depth (loads ++ (codes.take k).flatten) = floor) ∧ (ending = [] ∨ ending = [.ret])
  ret_last : p.code.toList.getLast? = some .ret
  floor_le : ∀ k, floor ≤ k → floor ≤ depth (p.code.toList.take k)
  depth_ret : ∀ k, p.code.toList[k]? = some .ret → depth (p.code.toList.take k) = floor
  inBounds : ∀ k i, p.code.toList[k]? = some i → InBounds m p (depth (p.code.toList.take k)) i
  /-- A call finds its arguments on top of the callable that was pushed for it. -/
  call : ∀ k usings returnings, p.code.toList[k]? = some (.call usings returnings) →
    ∃ s below c, check m p floor (p.code.toList.take k) ⟨[], []⟩ = some s ∧
    s.stack = below ++ .callable c :: List.replicate usings.toNat .value ∧ ∀ i, c = .proto i →
    ∃ q, m.prototypes[i]? = some q ∧ usings = q.usings ∧ returnings ≤ q.returnings

section passing

variable {m p floor} {code rest : List Instruction} {stack stack' stack'' : List Entry}
  {calls calls' : List CallShape}

theorem Passes.nil (stack : List Entry) : Passes m p floor [] stack stack [] := by
  intro before
  rw [List.append_nil]
  rfl

theorem Passes.append (h : Passes m p floor code stack stack' calls)
    (hrest : Passes m p floor rest stack' stack'' calls') :
    Passes m p floor (code ++ rest) stack stack'' (calls ++ calls') := by
  intro before
  rw [check_append, h before, Option.bind_some, hrest, List.append_assoc]

/-- One instruction that does not call, and the code behind it. -/
theorem Passes.cons {i : Instruction} (h : Passes m p floor [i] stack stack' [])
    (hrest : Passes m p floor rest stack' stack'' calls) :
    Passes m p floor (i :: rest) stack stack'' calls :=
  h.append hrest

theorem passes_single {i : Instruction}
    (h : ∀ before, step m p floor ⟨stack, before⟩ i = some ⟨stack', before ++ calls⟩) :
    Passes m p floor [i] stack stack' calls := by
  intro before
  rw [check_cons, h before]
  rfl

/-- The code of statements, one after the other. -/
theorem passes_flatten {codes : List (List Instruction)} {callss : List (List CallShape)}
    (h : List.Forall₂ (fun code => Passes m p floor code stack stack) codes callss) :
    Passes m p floor codes.flatten stack stack callss.flatten := by
  induction h with
  | nil => exact .nil stack
  | cons hcode _ ih => exact hcode.append ih

theorem Passes.depth_eq (h : Passes m p floor code stack stack' calls) :
    (stack'.length : Int) = stack.length + depth code :=
  (check_eq_some (h [])).1

/-- Returning is allowed with only the linkage fields on the stack. -/
theorem passes_ret : Passes m p floor [.ret] (linkage floor) (linkage floor) [] :=
  passes_single fun before => by simp [step, linkage]

theorem passes_constant {i : UInt16} {v : Value} (h : m.constants[i.toNat]? = some v) :
    Passes m p floor [.load i] stack (stack ++ [.value]) [] := by
  obtain ⟨hlt, -⟩ := Array.getElem?_eq_some_iff.mp h
  exact passes_single fun before => by simp [step, hlt]

/-- One value on the stack, and then more of them. -/
theorem replicate_succ_append (stack : List Entry) (count : Nat) :
    stack ++ List.replicate (count + 1) .value = (stack ++ [.value]) ++
      List.replicate count .value := by
  rw [List.replicate_succ, List.append_assoc, List.singleton_append]

theorem popAbove?_append (top : Entry) (hfloor : floor ≤ stack.length) :
    popAbove? floor (stack ++ [top]) = some (stack, top) := by
  rw [popAbove?, if_pos (by rw [List.length_append, List.length_singleton]; omega), pop?_append]

/-- Values and callables that were called may be dropped. -/
theorem passes_pop {top : Entry} (hfloor : floor ≤ stack.length)
    (htop : top = .value ∨ top = .spent) :
    Passes m p floor [.pop] (stack ++ [top]) stack [] := by
  have hpop := popAbove?_append top hfloor
  apply passes_single
  intro before
  rcases htop with rfl | rfl <;> simp [step, hpop]

/-- The result of a call takes the place of its callable, which lies under the arguments. -/
theorem passes_replace_spent (arguments : List Entry) (hfloor : floor ≤ stack.length)
    (hslot : slot.toInt = stack.length) :
    Passes m p floor [.replace slot] (stack ++ .spent :: (arguments ++ [.value]))
      (stack ++ .value :: arguments) [] := by
  have hregroup : stack ++ .spent :: (arguments ++ [.value]) = (stack ++ .spent :: arguments) ++
      [.value] := by simp
  have hpop : popAbove? floor (stack ++ .spent :: (arguments ++ [.value])) =
      some (stack ++ .spent :: arguments, .value) := by
    rw [hregroup]
    exact popAbove?_append .value (by rw [List.length_append]; omega)
  have houtside : isLinkage p floor slot = false := by
    rw [Bool.eq_false_iff, Ne, isLinkage_iff]
    omega
  have hreplace : replace? p floor (stack ++ .spent :: arguments) slot =
      some (stack ++ .value :: arguments) := by
    rw [replace?, houtside, hslot]
    simp
  apply passes_single
  intro before
  simp [step, hpop, hreplace]

/-- Instructions that each take a value off the stack. -/
theorem passes_takeOff (hcode : ∀ i ∈ code, ∀ rest, floor ≤ rest.length →
      Passes m p floor [i] (rest ++ [.value]) rest []) (hfloor : floor ≤ stack.length) :
    Passes m p floor code (stack ++ List.replicate code.length .value) stack [] := by
  induction code with
  | nil =>
    rw [List.length_nil, List.replicate_zero, List.append_nil]
    exact .nil stack
  | cons i code ih =>
    rw [List.length_cons, List.replicate_succ', ← List.append_assoc]
    have hfirst := hcode i List.mem_cons_self (stack ++ List.replicate code.length .value)
      (by rw [List.length_append]; omega)
    exact hfirst.cons (ih fun j hj => hcode j (List.mem_cons_of_mem i hj))

/-- The linkage fields are pushed. -/
theorem passes_locals (stack : List Entry) {initials : List Value} {loads : List Instruction}
    (hloads : List.Forall₂ (Translation.LocalCode ⟨m.constants, m.imports⟩) initials loads) :
    Passes m p floor loads stack (stack ++ List.replicate loads.length .value) [] := by
  induction hloads generalizing stack with
  | nil =>
    rw [List.length_nil, List.replicate_zero, List.append_nil]
    exact .nil stack
  | @cons _ _ _ loads hload _ ih =>
    cases hload with
    | intro i hi =>
      rw [List.length_cons, replicate_succ_append]
      exact (passes_constant hi).cons (ih _)

/-- Code that pushes the linkage fields, and then passes statement by statement, is as it is to
be. -/
theorem verified_of_passes {loads ending : List Instruction} {codes : List (List Instruction)}
    {callss : List (List CallShape)} (hcode : p.code.toList = loads ++ (codes.flatten ++ ending))
    (hlength : loads.length = floor) (hloads : ∀ i ∈ loads, ∃ constant, i = .load constant)
    (hpushes : Passes m p floor loads [] (linkage floor) [])
    (hcodes : List.Forall₂ (fun code => Passes m p floor code (linkage floor) (linkage floor))
      codes callss)
    (hending : ending = [] ∨ ending = [.ret]) (hlast : p.code.toList.getLast? = some .ret) :
    Verified m p floor callss := by
  have hlinkage : (linkage floor).length = floor := List.length_replicate
  have hdepth : depth loads = floor := by
    have h := hpushes.depth_eq
    rw [hlinkage] at h
    simpa using h.symm
  have hends : Passes m p floor ending (linkage floor) (linkage floor) [] := by
    rcases hending with rfl | rfl
    · exact .nil _
    · exact passes_ret
  have hrest := (passes_flatten hcodes).append hends
  have hall := hpushes.append hrest
  rw [← hcode] at hall
  -- before any instruction the whole check got this far, and the instruction itself passes
  have hat : ∀ k i, p.code.toList[k]? = some i →
      ∃ t t', check m p floor (p.code.toList.take k) ⟨[], []⟩ = some t ∧
      (t.stack.length : Int) = depth (p.code.toList.take k) ∧ step m p floor t i = some t' := by
    intro k i hk
    obtain ⟨t, t', ht, ht'⟩ := exists_step_of_check (hall []) hk
    exact ⟨t, t', ht, by simpa using (check_eq_some ht).1, ht'⟩
  refine ⟨⟨loads, codes, ending, hcode, hlength, hloads, hcodes, ?_, hending⟩, hlast, ?_,
    ?_, ?_, ?_⟩
  · intro k
    have htake := passes_flatten (List.forall₂_take k hcodes)
    have h := htake.depth_eq
    rw [depth_append, hdepth]
    omega
  · -- behind the loads the stack is never lower than the linkage fields
    intro k hk
    obtain ⟨t, ht⟩ := exists_check_take (hrest []) (k - floor)
    obtain ⟨htlength, htfloor⟩ := check_eq_some ht
    have htake : p.code.toList.take k = loads ++ (codes.flatten ++ ending).take (k - floor) := by
      rw [hcode, List.take_append, hlength, List.take_of_length_le (by omega)]
    rw [htake, depth_append, hdepth]
    simp only [hlinkage] at htlength htfloor
    have hle := htfloor (Nat.le_refl _)
    omega
  · intro k hk
    obtain ⟨t, t', -, hlength', hstep⟩ := hat k .ret hk
    simp only [step, Option.ite_none_right_eq_some] at hstep
    rw [← hlength', hstep.1, List.length_replicate]
  · intro k i hk
    obtain ⟨t, t', -, hlength', hstep⟩ := hat k i hk
    rw [← hlength']
    exact (step_eq_some hstep).2.2
  · intro k usings returnings hk
    obtain ⟨t, t', ht, -, hstep⟩ := hat k _ hk
    simp only [step] at hstep
    split at hstep
    · next below c top hsplit =>
      simp only [Option.ite_none_right_eq_some] at hstep
      obtain ⟨⟨htop, hagrees⟩, -⟩ := hstep
      refine ⟨t, below, c, ht, htop ▸ (eq_of_splitCall? hsplit).1, ?_⟩
      rintro i rfl
      simp only [agrees, Option.any_eq_true, Bool.and_eq_true, decide_eq_true_eq] at hagrees
      obtain ⟨q, hq, husings, hreturnings⟩ := hagrees
      exact ⟨q, hq, UInt8.toNat_inj.mp husings, UInt8.le_iff_toNat_le.mpr hreturnings⟩
    · cases hstep

end passing

end Verifier

end CobolCompiler.Machine

/-! ### The calls of a program -/

namespace CobolCompiler.Syntax

open Machine Machine.Verifier Translation

variable (programs : List String)

mutual

/-- The calls in an argument, in the order in which they are made: a call comes after those in its
arguments. -/
def Argument.calls : Argument → List CallShape
  | .field _ _ => []
  | .number _ => []
  | .string _ => []
  | .call callee arguments =>
    Argument.allCalls arguments ++ [⟨callableOf programs callee, arguments.length, 1⟩]

/-- The calls in arguments, from the last argument to the first. -/
def Argument.allCalls : List Argument → List CallShape
  | [] => []
  | argument :: rest => Argument.allCalls rest ++ argument.calls

end

/-- The calls of a statement without DISPLAY. -/
def Statement.calls : Statement → List CallShape
  | .call callee arguments returnings =>
    Argument.allCalls programs arguments ++
      [⟨callableOf programs callee, arguments.length, returnings.length⟩]
  | .display _ => []
  | .goback => []

theorem Argument.allCalls_eq (arguments : List Argument) :
    Argument.allCalls programs arguments = arguments.reverse.flatMap (Argument.calls programs) := by
  induction arguments with
  | nil => rfl
  | cons argument rest ih =>
    rw [allCalls, ih, List.reverse_cons, List.flatMap_append, List.flatMap_singleton]

end CobolCompiler.Syntax

/-! ### Compiled code passes -/

namespace CobolCompiler.Machine.Verifier

open Syntax Translation

/-- A context is that of a prototype in a module. -/
structure ContextOf (ctx : Context) (m : Module) (p : Prototype) : Prop where
  fields : ctx.layout.working.length = p.fields.size
  usings : ctx.layout.usings.length = p.usings.toNat
  distinct : ctx.programs.Nodup
  prototypes : ∀ (i : Nat) (name : String), ctx.programs[i]? = some name →
    ∃ q, m.prototypes[i]? = some q ∧ q.usings.toNat = (ctx.interface ⟨none, name⟩).usages.length ∧
    q.returnings.toNat = (ctx.interface ⟨none, name⟩).results

namespace ContextOf

variable {ctx : Context} {m : Module} {p : Prototype} (h : ContextOf ctx m p) {stack : List Entry}
  {slot : Slot} {name : String} {callee : Callee} {arguments : List Argument}

include h

/-- The slot of a linkage field. -/
theorem isLinkage {s : Int16} (hslot : ctx.layout.At (.frame s) name) :
    Verifier.isLinkage p ctx.layout.locals.length s = true := by
  have husings := h.usings
  rw [isLinkage_iff]
  cases hslot with
  | parameter _ k hs hk =>
    obtain ⟨hlt, -⟩ := List.getElem?_eq_some_iff.mp hk
    omega
  | pushed _ k hs hk =>
    obtain ⟨hlt, -⟩ := List.getElem?_eq_some_iff.mp hk
    omega

theorem field_lt {i : UInt16} (hslot : ctx.layout.At (.field i) name) :
    i.toNat < p.fields.size := by
  cases hslot with
  | working _ hi =>
    obtain ⟨hlt, -⟩ := List.getElem?_eq_some_iff.mp hi
    exact h.fields ▸ hlt

theorem passes_load (hslot : ctx.layout.At slot name)
    (hfloor : ctx.layout.locals.length ≤ stack.length) :
    Passes m p ctx.layout.locals.length [loadOf slot] stack (stack ++ [.value]) [] := by
  apply passes_single
  intro before
  cases slot with
  | field i => simp [loadOf, step, h.field_lt hslot]
  | frame s => simp [loadOf, step, h.isLinkage hslot, hfloor]

theorem passes_store (hslot : ctx.layout.At slot name)
    (hfloor : ctx.layout.locals.length ≤ stack.length) :
    Passes m p ctx.layout.locals.length [storeOf slot] (stack ++ [.value]) stack [] := by
  have hpop := popAbove?_append .value hfloor
  apply passes_single
  intro before
  cases slot with
  | field i => simp [storeOf, step, hpop, h.field_lt hslot]
  | frame s => simp [storeOf, step, hpop, replace?, h.isLinkage hslot]

theorem passes_callable {instruction : Instruction}
    (hcallable : CallableCode ctx ⟨m.constants, m.imports⟩ callee instruction) :
    Passes m p ctx.layout.locals.length [instruction] stack
      (stack ++ [.callable (callableOf ctx.programs callee)]) [] := by
  apply passes_single
  intro before
  rcases hcallable.cases_on_callable h.distinct
    with ⟨i, target, rfl, htarget, hcallee⟩ | ⟨i, rfl, -, hi, hcallee⟩
  · simp [step, htarget, hcallee]
  · obtain ⟨q, hq, -⟩ := h.prototypes _ _ hi
    obtain ⟨hlt, -⟩ := Array.getElem?_eq_some_iff.mp hq
    simp [step, hlt, hcallee]

/-- A call that agrees with what callers know about the program. -/
theorem passes_call (below : List Entry) {instruction : Instruction}
    (hcallable : CallableCode ctx ⟨m.constants, m.imports⟩ callee instruction)
    {count results : UInt8} (hcount : count.toNat = (ctx.interface callee).usages.length)
    (hresults : results.toNat ≤ (ctx.interface callee).results) :
    Passes m p ctx.layout.locals.length [.call count results]
      (below ++ .callable (callableOf ctx.programs callee) :: List.replicate count.toNat .value)
      (below ++ .spent ::
        (List.replicate count.toNat .value ++ List.replicate results.toNat .value))
      [⟨callableOf ctx.programs callee, count.toNat, results.toNat⟩] := by
  have hagrees : agrees m ⟨callableOf ctx.programs callee, count.toNat, results.toNat⟩ = true := by
    rcases hcallable.cases_on_callable h.distinct
      with ⟨i, target, -, -, hcallee⟩ | ⟨i, -, hown, hi, hcallee⟩
    · simp [agrees, hcallee]
    · obtain ⟨q, hq, husings, hreturnings⟩ := h.prototypes _ _ hi
      rw [← hown] at husings hreturnings
      simp only [agrees, hcallee, hq, Option.any_some, Bool.and_eq_true, decide_eq_true_eq]
      omega
  have hsplit := splitCall?_append below (Entry.callable (callableOf ctx.programs callee))
    (List.replicate count.toNat Entry.value)
  rw [List.length_replicate] at hsplit
  apply passes_single
  intro before
  simp [step, hsplit, hagrees]

/-- Arguments are taken off the stack. -/
theorem passes_takeBacks {backs : List Instruction}
    (hbacks : List.Forall₂ (TakeBackCode ctx) arguments backs)
    (hfloor : ctx.layout.locals.length ≤ stack.length) :
    Passes m p ctx.layout.locals.length backs (stack ++ List.replicate arguments.length .value)
      stack [] := by
  rw [hbacks.length_eq]
  apply passes_takeOff _ hfloor
  intro i hi rest hrest
  obtain ⟨argument, -, hback⟩ := exists_of_forall₂_right hbacks hi
  cases hback with
  | reference hslot => exact h.passes_store hslot hrest
  | dropped _ => exact passes_pop hrest (Or.inl rfl)

/-- Results are taken off the stack. -/
theorem passes_stores {names : List String} {stores : List Instruction}
    (hstores : List.Forall₂ (StoreCode ctx) names stores)
    (hfloor : ctx.layout.locals.length ≤ stack.length) :
    Passes m p ctx.layout.locals.length stores (stack ++ List.replicate names.length .value)
      stack [] := by
  rw [hstores.length_eq]
  apply passes_takeOff _ hfloor
  intro i hi rest hrest
  obtain ⟨name, -, hstore⟩ := exists_of_forall₂_right hstores hi
  cases hstore with
  | intro hslot => exact h.passes_store hslot hrest

/-- The code of arguments leaves one value for each of them. -/
theorem passes_arguments {depth : Nat} {items : List (Usage × Argument)} {code : List Instruction}
    (hcode : ArgumentsCode ctx ⟨m.constants, m.imports⟩ depth items code)
    (hdepth : stack.length = depth) (hfloor : ctx.layout.locals.length ≤ depth) :
    Passes m p ctx.layout.locals.length code stack (stack ++ List.replicate items.length .value)
      (items.flatMap fun item => item.2.calls ctx.programs) := by
  induction hcode generalizing stack with
  | nil depth =>
    rw [List.length_nil, List.replicate_zero, List.append_nil]
    exact .nil stack
  | field hslot _ ih =>
    rw [List.length_cons, replicate_succ_append]
    exact (h.passes_load hslot (by omega)).cons (ih (by simp [hdepth]) (by omega))
  | number hvalue hi _ ih =>
    rw [List.length_cons, replicate_succ_append]
    exact (passes_constant hi).cons (ih (by simp [hdepth]) (by omega))
  | string hi _ ih =>
    rw [List.length_cons, replicate_succ_append]
    exact (passes_constant hi).cons (ih (by simp [hdepth]) (by omega))
  | @call depth usage callee arguments callable count slot inner backs rest code hcallable hlength
    hresult hcount hslot _ _ hbacks _ ihinner ihrest =>
    -- the callable is one entry, above which the arguments of the inner call lie
    have hpassed : (ctx.passed callee arguments).length = count.toNat := by
      rw [Context.passed, List.length_reverse, List.length_zip]
      omega
    have hinside : (stack ++ [Entry.callable (callableOf ctx.programs callee)]).length = depth +
        1 := by simp [hdepth]
    have hbehind : (stack ++ [Entry.value]).length = depth + 1 := by simp [hdepth]
    have hinner := ihinner hinside (by omega)
    have hcall :=
      h.passes_call stack hcallable (hcount.trans hlength) (show (1 : UInt8).toNat ≤ _ from hresult)
    have htake := h.passes_takeBacks hbacks
      (show ctx.layout.locals.length ≤ (stack ++ [Entry.value]).length by omega)
    have hrest := ihrest hbehind (by omega)
    rw [hpassed, Context.flatMap_passed hlength, ← Argument.allCalls_eq, List.append_assoc,
      List.singleton_append] at hinner
    rw [← hcount, List.append_assoc, List.singleton_append] at htake
    -- the result goes into the place of the callable, and the arguments are taken off above it
    have hreplace := passes_replace_spent (m := m) (p := p) (List.replicate count.toNat .value)
      (show ctx.layout.locals.length ≤ stack.length by omega) (hslot.trans (by rw [hdepth]))
    have hcalls : ((usage, Argument.call callee arguments) :: rest).flatMap
        (fun item => item.2.calls ctx.programs) = Argument.allCalls ctx.programs arguments ++
        ([⟨callableOf ctx.programs callee, count.toNat, 1⟩] ++ rest.flatMap fun item =>
          item.2.calls ctx.programs) := by
      rw [List.flatMap_cons, Argument.calls, List.append_assoc, hcount]
    rw [hcalls, List.length_cons, replicate_succ_append]
    exact (h.passes_callable hcallable).cons
      (hinner.append (hcall.append (hreplace.cons (htake.append hrest))))

/-- The code of a statement begins and ends with the linkage fields on the stack. -/
theorem passes_statement {statement : Statement} {code : List Instruction}
    (hcode : StatementCode ctx ⟨m.constants, m.imports⟩ statement code) :
    Passes m p ctx.layout.locals.length code (linkage ctx.layout.locals.length)
      (linkage ctx.layout.locals.length) (statement.calls ctx.programs) := by
  cases hcode with
  | goback => exact passes_ret
  | @call callee arguments returnings callable count results inner stores backs hcallable hlength
    hresults hcount hrequested _ hinner hstores hbacks =>
    have hfloor : (linkage ctx.layout.locals.length).length = ctx.layout.locals.length :=
      List.length_replicate
    generalize linkage ctx.layout.locals.length = stack at hfloor ⊢
    have hpassed : (ctx.passed callee arguments).length = count.toNat := by
      rw [Context.passed, List.length_reverse, List.length_zip]
      omega
    have hinside : (stack ++ [Entry.callable (callableOf ctx.programs callee)]).length =
        ctx.layout.locals.length + 1 := by
      simp [hfloor]
    have hunder : ctx.layout.locals.length ≤
        (stack ++ Entry.spent :: List.replicate count.toNat .value).length := by
      simp [hfloor]
    have hpushed := h.passes_arguments hinner hinside (by omega)
    have hcall := h.passes_call stack hcallable (hcount.trans hlength) (hrequested ▸ hresults)
    have htake := h.passes_stores hstores hunder
    have hback := h.passes_takeBacks hbacks
      (show ctx.layout.locals.length ≤ (stack ++ [Entry.spent]).length by simp [hfloor])
    rw [hpassed, Context.flatMap_passed hlength, ← Argument.allCalls_eq, List.append_assoc,
      List.singleton_append] at hpushed
    rw [List.length_reverse, ← hrequested, List.append_assoc, List.cons_append] at htake
    rw [← hcount, List.append_assoc, List.singleton_append] at hback
    have hend := passes_pop (m := m) (p := p) (Nat.le_of_eq hfloor.symm)
      (Or.inr rfl : Entry.spent = .value ∨ _)
    rw [Statement.calls, ← hcount, ← hrequested]
    exact (h.passes_callable hcallable).cons
      (hpushed.append (hcall.append (htake.append (hback.append hend))))

end ContextOf

/-- A compiled program passes the verifier. -/
theorem verified_of_compiled {interface : Callee → Interface}
    {programs : List Program} {product : Module}
    (h : CompiledModule interface programs product) {program : Program} {prototype : Prototype}
    (hcompiled : CompiledProgram ⟨product.constants, product.imports⟩ (programs.map (·.name))
      interface program prototype) :
    Verified product prototype
      (program.linkage.filter fun field => !program.usings.contains field.name).length
      ((program.statements.flatMap Statement.lowered).map
        (Statement.calls (programs.map (·.name)))) := by
  have hcontext :
      ContextOf ⟨program.layout, programs.map (·.name), interface⟩ product prototype := by
    refine ⟨?_, hcompiled.usings_eq.symm, h.distinct, fun i name hi => h.exists_prototype hi⟩
    have hfields := congrArg List.length hcompiled.fields_eq
    rw [Array.length_toList, List.length_map] at hfields
    rw [hfields, Program.layout, List.length_map]
  obtain ⟨loads, codes, ending, hcode, hloads, hcodes, hending, hlast⟩ := hcompiled.code.parts
  have hlength : loads.length = program.layout.locals.length := by
    rw [← hloads.length_eq, Program.initials, List.length_map]
    rfl
  have hpushes : Passes product prototype program.layout.locals.length loads []
      (linkage program.layout.locals.length) [] := by
    rw [linkage, ← hlength]
    exact passes_locals [] hloads
  have hload : ∀ i ∈ loads, ∃ constant, i = .load constant := by
    intro i hi
    obtain ⟨value, -, hlocal⟩ := exists_of_forall₂_right hloads hi
    cases hlocal with
    | intro constant _ => exact ⟨constant, rfl⟩
  rw [← hcompiled.wellNamed.length_locals]
  apply verified_of_passes hcode hlength hload hpushes _ hending hlast
  rw [List.forall₂_map_right_iff]
  exact hcodes.flip.imp fun code statement hstatement => hcontext.passes_statement hstatement

end CobolCompiler.Machine.Verifier

namespace CobolCompiler.Session

open Machine Verifier Syntax

/-- Every module that comes out of the compilation of a grammatical tree passes the verifier. The
linkage fields that are not parameters are pushed first, and statements make the calls that the tree
has in them. -/
theorem compiled_code_verified {s s' : Session} (hs : s.Reachable) {parser : Parser}
    {source : List UInt8} {name : String}
    {root : Node} (hroot : parser name source s.options.freeFormat = .ok root)
    (hgrammar : root.grammatical = true) (hmodule : root.tag = .module) {output? : Option String}
    {product : Module} (hcompiled : compileSource parser source name output? s = .ok product s') :
    List.Forall₂ (fun program prototype =>
        Verified product prototype
          (program.linkage.filter fun field => !program.usings.contains field.name).length
          ((program.statements.flatMap Statement.lowered).map
            (Statement.calls ((modulePrograms s.options.policy root).map (·.name)))))
      (modulePrograms s.options.policy root) product.prototypes.toList := by
  have hproduct := translated_of_compiled hs.sound hroot hgrammar hmodule hcompiled
  exact hproduct.prototypes.imp fun program prototype hprogram =>
    verified_of_compiled hproduct hprogram

/-- The sample module compiles, and its code passes. -/
theorem sampleModule_verified :
    ∃ product s', compileSource (fun _ _ _ => .ok Node.sampleModule) [] "SAMPLE.cbl" none
      (start {} .empty) = .ok product s' ∧ List.Forall₂ (fun program prototype =>
        Verified product prototype
          (program.linkage.filter fun field => !program.usings.contains field.name).length
          ((program.statements.flatMap Statement.lowered).map
            (Statement.calls ["DISPLAY", "ADD", "MAIN"])))
      (modulePrograms .truncate Node.sampleModule) product.prototypes.toList := by
  have hanswers : answers (compileSource (fun _ _ _ => .ok Node.sampleModule) [] "SAMPLE.cbl" none)
      (start {} .empty) = true := by
    decide +kernel
  have hnames : (modulePrograms .truncate Node.sampleModule).map (·.name) =
      ["DISPLAY", "ADD", "MAIN"] := by
    decide +kernel
  have hgrammar : Node.sampleModule.grammatical = true := by
    decide +kernel
  obtain ⟨product, s', hproduct⟩ := exists_of_answers hanswers
  rw [← hnames]
  exact ⟨product, s', hproduct,
    compiled_code_verified (.start {} .empty) rfl hgrammar (by decide) hproduct⟩

/-- A tree need not have a module at its root to get a result. What comes out then is the module
that an earlier compilation stopped in, and the code of its last prototype breaks off before the
return. -/
theorem pending_code_unverified :
    counterSession.Reachable ∧ (Build.identifier "NOTE").grammatical = true ∧
      ∃ product t, compileSource nameParser [] "NOTE.cbl" none counterSession = .ok product t ∧
        ∃ prototype ∈ product.prototypes.toList, ∀ floor calls,
          ¬ Verified product prototype floor calls := by
  obtain ⟨product, t, ht, -, hcode⟩ := exists_compiled_counterSession
  have hmem : [Instruction.proto 0] ∈ product.prototypes.toList.map (·.code.toList) := by
    simp [hcode]
  obtain ⟨prototype, hprototype, hproto⟩ := List.mem_map.mp hmem
  refine ⟨counterSession_reachable, by decide +kernel, product, t, ht, prototype, hprototype,
    fun floor calls hverified => ?_⟩
  have hlast := hverified.ret_last
  simp [hproto] at hlast

end CobolCompiler.Session
