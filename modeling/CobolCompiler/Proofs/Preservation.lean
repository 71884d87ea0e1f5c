import CobolCompiler.Proofs.Meaning
import CobolCompiler.Proofs.Safety

/-!
# Code does what programs mean

The frame of a running program shows the store of its meaning: each field has its value in its own
place (`frameOf`). The code of arguments, statements and programs takes one such frame to another,
in step with the semantics:

* a slot is read and written as the field in it is (`step_loadOf`, `step_storeOf`);
* the code of arguments pushes their values (`exec_arguments`), that of a call statement runs it
  (`exec_call`);
* the code of a program returns in the frame of its final state (`run_statements`, `run_compiled`).

Fields lie in different places, so that writing to one leaves the others as they are. This is also
why it does not matter in which order the results and arguments of a call are written back.
-/

namespace CobolCompiler

open Machine Translation Syntax

variable {name : String}

namespace Machine.Frame

variable {interpretation : Interpretation} {m : Module} {f f' : Frame}

theorem exec_cons {i : Instruction} {code : List Instruction}
    (h : f.step interpretation m i = some f') :
    f.exec interpretation m (i :: code) = f'.exec interpretation m code := by
  rw [exec, List.foldlM_cons, h]
  rfl

theorem exec_append {code rest : List Instruction} (h : f.exec interpretation m code = some f') :
    f.exec interpretation m (code ++ rest) = f'.exec interpretation m rest := by
  rw [exec, List.foldlM_append]
  show (f.exec interpretation m code).bind _ = _
  rw [h]
  rfl

end Machine.Frame

namespace Translation

variable {names : List String}

/-- The frame of a program in some state, with some entries above its linkage fields. -/
def frameOf (layout : FrameLayout String) (s : State) (above : List Machine.Entry) : Frame where
  fields := layout.working.map s.store
  usings := layout.usings.map s.store
  stack := layout.locals.map (fun name => .value (s.store name)) ++ above
  calls := s.calls

/-- The entries that values are. -/
def entries (values : List Value) : List Machine.Entry :=
  values.map .value

@[simp] theorem entries_append (values more : List Value) :
    entries (values ++ more) = entries values ++ entries more :=
  List.map_append

@[simp] theorem length_entries (values : List Value) : (entries values).length = values.length :=
  List.length_map _

/-- Entries with the value of `v` on top. -/
theorem entries_reverse_cons (v : Value) (values : List Value) :
    entries (v :: values).reverse = entries values.reverse ++ [.value v] := by
  rw [List.reverse_cons, entries_append]
  rfl

theorem mapM_value?_entries (values : List Value) :
    (entries values).mapM Machine.Entry.value? = some values := by
  induction values with
  | nil => rfl
  | cons v values ih =>
    show (Machine.Entry.value v :: entries values).mapM Machine.Entry.value? = _
    rw [List.mapM_cons, ih]
    rfl

/-- The state with a new value in a field. -/
def put (s : State) (name : String) (v : Value) : State :=
  { s with store := Function.update s.store name v }

/-- The state with new values in fields. -/
def putAll (s : State) (pairs : List (String × Value)) : State :=
  { s with store := assign pairs s.store }

/-- The setting in which the programs of a context mean something. -/
def Context.setting (ctx : Context) (interpretation : Interpretation) : Setting :=
  ⟨interpretation, ctx.programs, ctx.interface⟩

/-- What a call leaves behind: the state in which its arguments were evaluated and the call was
made, and what the call answers. -/
def Context.called (ctx : Context) (interpretation : Interpretation) (callee : Callee)
    (requested : Nat) (arguments : List Argument) (s : State) : State × (List Value × List Value) :=
  let evaluated :=
    Argument.evalAll (ctx.setting interpretation) arguments (ctx.interface callee).usages s
  ({ evaluated.1 with
      calls := evaluated.1.calls ++
        [⟨callableOf ctx.programs callee, evaluated.2, requested⟩] },
    interpretation.respond (callableOf ctx.programs callee) requested evaluated.2)

section called

variable {ctx : Context} (interpretation : Interpretation) (callee : Callee)
  {arguments : List Argument} (s : State)

/-- The values of the arguments of a call, by the order in which they are pushed. -/
theorem evalAll_passed (hlength : arguments.length = (ctx.interface callee).usages.length) :
    Argument.evalAll (ctx.setting interpretation) arguments (ctx.interface callee).usages s =
      ((evalItems (ctx.setting interpretation) (ctx.passed callee arguments) s).1,
        (evalItems (ctx.setting interpretation) (ctx.passed callee arguments) s).2.reverse) :=
  evalAll_eq arguments (ctx.interface callee).usages hlength s

/-- A nested call puts back what was passed by reference, and its value is its first result. -/
theorem eval_call (ctx : Context) (arguments : List Argument) (usage : Usage) :
    (Argument.call callee arguments).eval (ctx.setting interpretation) usage s =
      (putAll (ctx.called interpretation callee 1 arguments s).1
        (references arguments (ctx.called interpretation callee 1 arguments s).2.1),
        (ctx.called interpretation callee 1 arguments s).2.2.headD default) := by
  rw [Argument.eval]
  rfl

/-- A call statement puts back what was passed by reference, and then stores its results. -/
theorem runCall_eq (ctx : Context) (arguments : List Argument) (returnings : List String) :
    runCall (ctx.setting interpretation) callee arguments returnings s =
      putAll (putAll (ctx.called interpretation callee returnings.length arguments s).1
        (references arguments (ctx.called interpretation callee returnings.length arguments s).2.1))
        (returnings.zip (ctx.called interpretation callee returnings.length arguments s).2.2) := rfl

/-- A call answers with as many arguments as it has, and with the results that it was asked for. -/
theorem length_called (requested : Nat)
    (hlength : arguments.length = (ctx.interface callee).usages.length) :
    (ctx.called interpretation callee requested arguments s).2.1.length = arguments.length ∧
      requested ≤ (ctx.called interpretation callee requested arguments s).2.2.length := by
  refine ⟨?_, interpretation.length_results _ _ _⟩
  rw [Context.called, interpretation.length_arguments,
    evalAll_passed interpretation callee s hlength, List.length_reverse,
    length_evalItems, Context.passed, List.length_reverse, List.length_zip]
  omega

end called

/-- A program of a module can run: its callees are there, and no two of its fields share a place. -/
structure Runs (ctx : Context) (m : Module) : Prop where
  distinct : ctx.programs.Nodup
  prototypes : ∀ (i : Nat) (name : String), ctx.programs[i]? = some name → i < m.prototypes.size
  places : (ctx.layout.working ++ (ctx.layout.usings ++ ctx.layout.locals)).Nodup

/-! ### Stores and places -/

/-- A list of distinct names, one of which gets a new value. -/
theorem map_update_of_mem {β : Type} (hnodup : names.Nodup) {i : Nat} (hi : names[i]? = some name)
    (f : Value → β) (store : String → Value) (v : Value) :
    names.map (fun other => f (Function.update store name v other)) =
      (names.map fun other => f (store other)).set i (f v) := by
  obtain ⟨hlt, hname⟩ := List.getElem?_eq_some_iff.mp hi
  apply List.ext_getElem
  · simp
  · intro k hk _
    have hk' : k < names.length := by simpa using hk
    rw [List.getElem_set, List.getElem_map, List.getElem_map]
    by_cases heq : i = k
    · subst heq
      rw [if_pos rfl, hname, Function.update_self]
    · -- the name of another place is another name
      have hne : names[k] ≠ name := by
        intro hsame
        exact heq ((hnodup.getElem_inj_iff).mp (hname.trans hsame.symm))
      rw [if_neg heq, Function.update_of_ne hne]

/-- A list of names none of which gets a new value. -/
theorem map_update_of_not_mem {β : Type} (hname : name ∉ names) (f : Value → β)
    (store : String → Value) (v : Value) :
    names.map (fun other => f (Function.update store name v other)) = names.map fun other =>
      f (store other) := by
  apply List.map_congr_left
  intro other hother
  have hne : other ≠ name := fun heq => hname (heq ▸ hother)
  rw [Function.update_of_ne hne]

namespace Runs

variable {ctx : Context} {m : Module} (h : Runs ctx m) {interpretation : Interpretation} {s : State}
  {above : List Machine.Entry} {slot : Slot} {name : String} {callee : Callee}
  {arguments : List Argument}
variable {code : List Instruction} {returnings : List String}

/-! ### Slots -/

/-- The value of a field is found in its slot. -/
theorem step_loadOf (hslot : ctx.layout.At slot name) :
    (frameOf ctx.layout s above).step interpretation m (loadOf slot) =
      some (frameOf ctx.layout s (above ++ [.value (s.store name)])) := by
  cases hslot with
  | working i hi => simp [loadOf, Frame.step, frameOf, hi, Frame.push]
  | parameter k i hk hi =>
    have hslot : k.toInt = Int.negSucc i := by omega
    simp [loadOf, Frame.step, Frame.slot?, frameOf, hslot, hi, Frame.push]
  | pushed k i hk hi =>
    have hslot : k.toInt = Int.ofNat i := hk
    obtain ⟨hlt, hname⟩ := List.getElem?_eq_some_iff.mp hi
    have hentry :
        (ctx.layout.locals.map (fun name => Machine.Entry.value (s.store name)) ++ above)[i]? =
        some (.value (s.store name)) := by
      rw [List.getElem?_append_left (by rwa [List.length_map]), List.getElem?_map, hi]
      rfl
    simp [loadOf, Frame.step, Frame.slot?, frameOf, hslot, hentry, Frame.push, Machine.Entry.value?]

theorem stack_frameOf (layout : FrameLayout String) (entry : Machine.Entry) :
    (frameOf layout s (above ++ [entry])).stack = (frameOf layout s above).stack ++ [entry] := by
  simp [frameOf]

theorem popValue?_frameOf (v : Value) :
    (frameOf ctx.layout s (above ++ [.value v])).popValue? =
      some (frameOf ctx.layout s above, v) := by
  rw [Frame.popValue?, stack_frameOf, pop?_append]
  rfl

theorem step_pop (entry : Machine.Entry) :
    (frameOf ctx.layout s (above ++ [entry])).step interpretation m .pop =
      some (frameOf ctx.layout s above) := by
  rw [Frame.step, stack_frameOf, pop?_append]
  rfl

include h

/-- What is on top of the stack goes into the field of a slot, and no other field changes. -/
theorem step_storeOf (hslot : ctx.layout.At slot name) (v : Value) :
    (frameOf ctx.layout s (above ++ [.value v])).step interpretation m (storeOf slot) =
      some (frameOf ctx.layout (put s name v) above) := by
  obtain ⟨hworking, hrest, hdisjoint⟩ := List.nodup_append.mp h.places
  obtain ⟨husings, hlocals, hapart⟩ := List.nodup_append.mp hrest
  have hpop := @popValue?_frameOf ctx s above v
  cases hslot with
  | working i hi =>
    -- a working-storage field is neither a parameter nor on the stack
    have hmem := List.mem_of_getElem? hi
    have hother : name ∉ ctx.layout.usings ++ ctx.layout.locals :=
      fun hin => hdisjoint name hmem name hin rfl
    rw [List.mem_append, not_or] at hother
    have hlt : i.toNat < ctx.layout.working.length := (List.getElem?_eq_some_iff.mp hi).1
    have hfields := map_update_of_mem hworking hi id s.store v
    have hparameters := map_update_of_not_mem hother.1 id s.store v
    have hstack := map_update_of_not_mem hother.2 Machine.Entry.value s.store v
    simp only [id] at hfields hparameters
    simp only [storeOf, Frame.step, hpop, Option.bind_eq_bind, Option.bind_some]
    simp [frameOf, put, hlt, hfields, hparameters, hstack]
  | parameter k i hk hi =>
    have hslot : k.toInt = Int.negSucc i := by omega
    have hmem := List.mem_of_getElem? hi
    have hfirst : name ∉ ctx.layout.working :=
      fun hin => hdisjoint name hin name (List.mem_append_left _ hmem) rfl
    have hlast : name ∉ ctx.layout.locals := fun hin => hapart name hmem name hin rfl
    have hlt : i < ctx.layout.usings.length := (List.getElem?_eq_some_iff.mp hi).1
    have hfields := map_update_of_not_mem hfirst id s.store v
    have hparameters := map_update_of_mem husings hi id s.store v
    have hstack := map_update_of_not_mem hlast Machine.Entry.value s.store v
    simp only [id] at hfields hparameters
    simp only [storeOf, Frame.step, hpop, Option.bind_eq_bind, Option.bind_some,
      Frame.setSlot?, hslot]
    simp [frameOf, put, hlt, hfields, hparameters, hstack]
  | pushed k i hk hi =>
    have hslot : k.toInt = Int.ofNat i := hk
    have hmem := List.mem_of_getElem? hi
    have hfirst : name ∉ ctx.layout.working :=
      fun hin => hdisjoint name hin name (List.mem_append_right _ hmem) rfl
    have hmiddle : name ∉ ctx.layout.usings := fun hin => hapart name hin name hmem rfl
    have hlt : i < ctx.layout.locals.length := (List.getElem?_eq_some_iff.mp hi).1
    have hfields := map_update_of_not_mem hfirst id s.store v
    have hparameters := map_update_of_not_mem hmiddle id s.store v
    have hstack := map_update_of_mem hlocals hi Machine.Entry.value s.store v
    simp only [id] at hfields hparameters
    have hset :
        (ctx.layout.locals.map (fun name => Machine.Entry.value (s.store name)) ++ above).set i
        (.value v) = (ctx.layout.locals.map fun name => Machine.Entry.value (s.store name)).set i
        (.value v) ++ above := by
      rw [List.set_append_left _ _ (by rwa [List.length_map])]
    have hdepth : i < ctx.layout.locals.length + above.length := by omega
    simp only [storeOf, Frame.step, hpop, Option.bind_eq_bind, Option.bind_some,
      Frame.setSlot?, hslot]
    simp [frameOf, put, hdepth, hfields, hparameters, hstack, hset]

/-! ### Calls -/

theorem step_callable {instruction : Instruction}
    (hcallable : CallableCode ctx ⟨m.constants, m.imports⟩ callee instruction) :
    (frameOf ctx.layout s above).step interpretation m instruction =
      some (frameOf ctx.layout s (above ++ [.callable (callableOf ctx.programs callee)])) := by
  rcases hcallable.cases_on_callable h.distinct
    with ⟨i, target, rfl, htarget, hcallee⟩ | ⟨i, rfl, -, hi, hcallee⟩
  · simp [Frame.step, htarget, hcallee, frameOf, Frame.push]
  · have hlt := h.prototypes _ _ hi
    simp [Frame.step, hlt, hcallee, frameOf, Frame.push]

omit h in
/-- A call leaves its modified arguments on the stack, the first one on top, and then its
results. -/
theorem step_call (callable : Callable) (values : List Value) {count : UInt8} (results : UInt8)
    (hcount : count.toNat = values.length) :
    (frameOf ctx.layout s (above ++ .callable callable :: entries values.reverse)).step
        interpretation m (.call count results) =
      some (frameOf ctx.layout { s with calls := s.calls ++ [⟨callable, values, results.toNat⟩] }
        (above ++ .callable callable ::
          (entries (interpretation.respond callable results.toNat values).1.reverse ++
            entries
              ((interpretation.respond callable results.toNat values).2.take results.toNat)))) := by
  have hstack :
      (frameOf ctx.layout s (above ++ .callable callable :: entries values.reverse)).stack =
      (ctx.layout.locals.map (fun name => .value (s.store name)) ++ above) ++
      .callable callable :: entries values.reverse := by
    simp [frameOf]
  have hsplit := splitCall?_append
    (ctx.layout.locals.map (fun name => Machine.Entry.value (s.store name)) ++ above)
    (.callable callable) (entries values.reverse)
  rw [length_entries, List.length_reverse, ← hcount, ← hstack] at hsplit
  have harguments : (entries values.reverse).reverse.mapM Machine.Entry.value? = some values := by
    rw [entries, List.map_reverse, List.reverse_reverse]
    exact mapM_value?_entries values
  simp only [Frame.step, hsplit, harguments, Option.bind_eq_bind, Option.bind_some]
  simp [frameOf, entries]

variable (interpretation s above) in
/-- Arguments are taken off the stack, and those that were passed by reference go back into their
fields. -/
theorem exec_takeBacks {backs : List Instruction}
    (hbacks : List.Forall₂ (TakeBackCode ctx) arguments backs) {modified : List Value}
    (hlength : modified.length = arguments.length) :
    (frameOf ctx.layout s (above ++ entries modified.reverse)).exec interpretation m backs =
      some (frameOf ctx.layout (putAll s (references arguments modified)) above) := by
  induction hbacks generalizing s modified with
  | nil =>
    obtain rfl := List.length_eq_zero_iff.mp hlength
    simp [entries, Frame.exec, references, putAll, assign]
  | @cons argument instruction arguments backs hback _ ih =>
    obtain _ | ⟨v, modified⟩ := modified
    · cases hlength
    have hrest : modified.length = arguments.length := by simpa using hlength
    rw [entries_reverse_cons, ← List.append_assoc]
    cases hback with
    | @reference name slot hslot =>
      rw [Frame.exec_cons (h.step_storeOf hslot v), ih _ hrest]
      rfl
    | dropped hnone =>
      -- the argument was a value of its own, so no field changes
      have hsame : references (argument :: arguments) (v :: modified) =
          references arguments modified := by
        simp [references, hnone]
      rw [Frame.exec_cons (step_pop _), ih _ hrest, hsame]

variable (interpretation s above) in
/-- Values are taken off the stack into fields. -/
theorem exec_stores {stores : List Instruction}
    (hstores : List.Forall₂ (StoreCode ctx) names stores) {values : List Value}
    (hlength : values.length = names.length) :
    (frameOf ctx.layout s (above ++ entries values.reverse)).exec interpretation m stores =
      some (frameOf ctx.layout (putAll s (names.zip values)) above) := by
  induction hstores generalizing s values with
  | nil =>
    obtain rfl := List.length_eq_zero_iff.mp hlength
    simp [entries, Frame.exec, putAll, assign]
  | @cons name instruction names stores hstore _ ih =>
    obtain _ | ⟨v, values⟩ := values
    · cases hlength
    have hrest : values.length = names.length := by simpa using hlength
    cases hstore with
    | intro hslot =>
      rw [entries_reverse_cons, ← List.append_assoc, Frame.exec_cons (h.step_storeOf hslot v),
        ih _ hrest]
      rfl

/-! ### Arguments -/

omit h in
theorem step_constant {i : UInt16} {v : Value} (hi : m.constants[i.toNat]? = some v) :
    (frameOf ctx.layout s above).step interpretation m (.load i) =
      some (frameOf ctx.layout s (above ++ [.value v])) := by
  simp [Frame.step, hi, frameOf, Frame.push]

omit h in
/-- The result of a call takes the place of its callable, which lies under the arguments. -/
theorem step_replace_callable (callable : Callable) (arguments : List Machine.Entry) (v : Value)
    {slot : Int16}
    (hslot : slot.toInt = (ctx.layout.locals.length + above.length : Nat)) :
    (frameOf ctx.layout s (above ++ .callable callable :: (arguments ++ [.value v]))).step
        interpretation m (.replace slot) =
      some (frameOf ctx.layout s (above ++ .value v :: arguments)) := by
  have hregroup : above ++ .callable callable :: (arguments ++ [.value v]) =
      (above ++ .callable callable :: arguments) ++ [.value v] := by
    simp
  have hpop := @popValue?_frameOf ctx s (above ++ .callable callable :: arguments) v
  have hindex : slot.toInt = Int.ofNat (ctx.layout.locals.length + above.length) := hslot
  rw [hregroup, Frame.step, hpop]
  show Frame.setSlot? _ _ _ = _
  rw [Frame.setSlot?, hindex]
  simp [frameOf]

/-- The code of a call up to the call itself: the callable is pushed, then the arguments. -/
theorem exec_beginCall {callable : Instruction}
    (hcallable : CallableCode ctx ⟨m.constants, m.imports⟩ callee callable)
    (hlength : arguments.length = (ctx.interface callee).usages.length) {count : UInt8}
    (hcount : count.toNat = arguments.length) {results : UInt8} {requested : Nat}
    (hrequested : results.toNat = requested) {inner : List Instruction} (rest : List Instruction)
    (hinner : (frameOf ctx.layout s (above ++ [.callable (callableOf ctx.programs callee)])).exec
      interpretation m inner = some (frameOf ctx.layout (evalItems (ctx.setting interpretation)
        (ctx.passed callee arguments) s).1 (above ++ [.callable (callableOf ctx.programs callee)] ++
          entries (evalItems (ctx.setting interpretation) (ctx.passed callee arguments) s).2))) :
    (frameOf ctx.layout s above).exec interpretation m
      (callable :: (inner ++ .call count results :: rest)) =
      (frameOf ctx.layout (ctx.called interpretation callee requested arguments s).1
        (above ++ .callable (callableOf ctx.programs callee) ::
          (entries (ctx.called interpretation callee requested arguments s).2.1.reverse ++
            entries
              ((ctx.called interpretation callee requested arguments s).2.2.take requested)))).exec
        interpretation m rest := by
  have hevaluated := evalAll_passed interpretation callee s hlength
  have hitems : (evalItems (ctx.setting interpretation) (ctx.passed callee arguments) s).2.length =
      count.toNat := by
    rw [length_evalItems, Context.passed, List.length_reverse, List.length_zip]
    omega
  rw [Frame.exec_cons (h.step_callable hcallable), Frame.exec_append hinner]
  generalize evalItems (ctx.setting interpretation) (ctx.passed callee arguments) s = pushed
    at hevaluated hitems ⊢
  -- the first argument was pushed last, so that it lies on top
  have hstack : above ++ [.callable (callableOf ctx.programs callee)] ++ entries pushed.2 =
      above ++ .callable (callableOf ctx.programs callee) :: entries pushed.2.reverse.reverse := by
    rw [List.reverse_reverse, List.append_assoc, List.singleton_append]
  have hcount' : count.toNat = pushed.2.reverse.length := hitems.symm.trans List.length_reverse.symm
  subst hrequested
  rw [hstack, Frame.exec_cons (step_call _ pushed.2.reverse results hcount'),
    Context.called, hevaluated]

omit h in
theorem length_above {depth : Nat} (entry : Machine.Entry)
    (hdepth : ctx.layout.locals.length + above.length = depth) :
    ctx.layout.locals.length + (above ++ [entry]).length = depth + 1 := by
  rw [List.length_append, List.length_singleton]
  omega

variable (interpretation s above) in
/-- The code of arguments makes the calls in them and pushes their values. -/
theorem exec_arguments {depth : Nat} {items : List (Usage × Argument)}
    (hcode : ArgumentsCode ctx ⟨m.constants, m.imports⟩ depth items code)
    (hdepth : ctx.layout.locals.length + above.length = depth) :
    (frameOf ctx.layout s above).exec interpretation m code =
      some (frameOf ctx.layout (evalItems (ctx.setting interpretation) items s).1
        (above ++ entries (evalItems (ctx.setting interpretation) items s).2)) := by
  induction hcode generalizing s above with
  | nil depth => simp [evalItems, entries, Frame.exec]
  | field hslot _ ih =>
    rw [Frame.exec_cons (step_loadOf hslot), ih _ _ (length_above _ hdepth)]
    simp [evalItems, Argument.eval, entries]
  | @number depth usage text value i rest code hvalue hi _ ih =>
    have hliteral : literal usage text = value := by
      rw [literal, hvalue]
      rfl
    rw [Frame.exec_cons (step_constant hi), ih _ _ (length_above _ hdepth)]
    simp [evalItems, Argument.eval, entries, hliteral]
  | string hi _ ih =>
    rw [Frame.exec_cons (step_constant hi), ih _ _ (length_above _ hdepth)]
    simp [evalItems, Argument.eval, entries]
  | @call depth usage callee arguments callable count slot inner backs rest code hcallable hlength
    hresult hcount hslot _ _ hbacks _ ihinner ihrest =>
    have hinner :=
      ihinner s (above ++ [.callable (callableOf ctx.programs callee)]) (length_above _ hdepth)
    have heval := eval_call interpretation callee s ctx arguments usage
    obtain ⟨hmodified, hresults⟩ := length_called interpretation callee s 1 hlength
    rw [h.exec_beginCall hcallable hlength hcount (show UInt8.toNat 1 = 1 from rfl) _ hinner,
      evalItems, heval]
    generalize ctx.called interpretation callee 1 arguments s = called at hmodified hresults ⊢
    obtain ⟨s₁, modified, results⟩ := called
    -- there is one result at least, and it is the value of the argument
    obtain _ | ⟨result, results⟩ := results
    · cases hresults
    have hplace : slot.toInt = (ctx.layout.locals.length + above.length : Nat) :=
      hslot.trans (by rw [hdepth])
    have hstack : above ++ .value result :: entries modified.reverse =
        above ++ [.value result] ++ entries modified.reverse := by
      rw [List.append_assoc, List.singleton_append]
    have htake := h.exec_takeBacks interpretation s₁ (above ++ [.value result]) hbacks hmodified
    have hrest := ihrest (putAll s₁ (references arguments modified)) (above ++ [.value result])
      (length_above _ hdepth)
    show (frameOf ctx.layout s₁ (above ++ .callable (callableOf ctx.programs callee) ::
      (entries modified.reverse ++ [.value result]))).exec interpretation m _ = _
    rw [Frame.exec_cons (step_replace_callable _ _ result hplace), hstack,
      Frame.exec_append htake, hrest]
    simp [entries]

/-! ### Statements -/

omit h in
/-- All the fields that a call writes are different, so that it does not matter whether results or
arguments come first. -/
theorem putAll_results {s : State}
    (hdistinct : (arguments.filterMap Argument.referenceName? ++ returnings).Nodup)
    {modified values : List Value} (hmodified : modified.length = arguments.length)
    (hmany : returnings.length ≤ values.length) :
    putAll (putAll s (returnings.reverse.zip (values.take returnings.length).reverse))
      (references arguments modified) =
      putAll (putAll s (references arguments modified)) (returnings.zip values) := by
  have hreversed : returnings.reverse.zip (values.take returnings.length).reverse =
      (returnings.zip values).reverse := by
    have htake : returnings.zip values = returnings.zip (values.take returnings.length) := by
      rw [List.zip_eq_zip_take_min, Nat.min_eq_left hmany, List.take_length]
    rw [htake]
    exact (List.reverse_zipWith (by simpa using hmany)).symm
  have hkeys : ((references arguments modified ++ returnings.zip values).map Prod.fst).Nodup := by
    rwa [List.map_append, map_fst_references hmodified, List.map_fst_zip hmany]
  have hperm : (references arguments modified ++ returnings.zip values).Perm
      ((returnings.zip values).reverse ++ references arguments modified) :=
    List.perm_append_comm.trans ((List.reverse_perm _).symm.append_right _)
  simp only [putAll, hreversed, ← assign_append, assign_perm hkeys hperm]

/-- The code of a call statement runs it. -/
theorem exec_call
    (hcode : StatementCode ctx ⟨m.constants, m.imports⟩ (.call callee arguments returnings) code) :
    (frameOf ctx.layout s []).exec interpretation m code =
      some (frameOf ctx.layout (runCall (ctx.setting interpretation) callee arguments returnings s)
        []) := by
  cases hcode with
  | @call _ _ _ callable count results inner stores backs hcallable hlength hresults hcount
    hrequested hdistinct hinner hstores hbacks =>
    have hpushed := h.exec_arguments interpretation s [.callable (callableOf ctx.programs callee)]
      hinner (by simp)
    obtain ⟨hmodified, hmany⟩ := length_called interpretation callee s returnings.length hlength
    rw [h.exec_beginCall hcallable hlength hcount hrequested _ hpushed, runCall_eq]
    generalize ctx.called interpretation callee returnings.length arguments s = called
      at hmodified hmany ⊢
    obtain ⟨s₁, modified, values⟩ := called
    dsimp only at hmodified hmany ⊢
    have hvalues : (values.take returnings.length).reverse.length = returnings.reverse.length := by
      simpa using hmany
    have hstore := h.exec_stores interpretation s₁
      (.callable (callableOf ctx.programs callee) :: entries modified.reverse) hstores hvalues
    have htake := h.exec_takeBacks interpretation
      (putAll s₁ (returnings.reverse.zip (values.take returnings.length).reverse))
      [.callable (callableOf ctx.programs callee)] hbacks hmodified
    rw [List.reverse_reverse] at hstore
    rw [putAll_results hdistinct hmodified hmany, List.singleton_append] at htake
    rw [List.nil_append, ← List.cons_append, Frame.exec_append hstore, Frame.exec_append htake]
    exact Frame.exec_cons (@step_pop _ _ _ _ [] _)

omit h in
theorem getLast?_call {t : Tables}
    (hcode : StatementCode ctx t (.call callee arguments returnings) code) :
    code.getLast? ≠ some .ret := by
  cases hcode with
  | call => simp [List.getLast?_cons, List.getLast?_append]

/-- The code of statements runs them up to the first GOBACK, where it returns. -/
theorem run_statements {statements : List Statement} {codes : List (List Instruction)}
    (hcodes : List.Forall₂ (StatementCode ctx ⟨m.constants, m.imports⟩) statements codes)
    {ending : List Instruction} (hending : ending = [] ∨ ending = [.ret])
    (hlast : (codes.flatten ++ ending).getLast? = some .ret) :
    (frameOf ctx.layout s []).run interpretation m (codes.flatten ++ ending) =
      some (frameOf ctx.layout (runStatements (ctx.setting interpretation) statements s) []) := by
  induction hcodes generalizing s with
  | nil =>
    rcases hending with rfl | rfl
    · cases hlast
    · rfl
  | @cons statement code statements codes hcode _ ih =>
    rw [List.flatten_cons, List.append_assoc] at hlast ⊢
    cases statement with
    | goback =>
      cases hcode
      rfl
    | display operands => cases hcode
    | call callee arguments returnings =>
      -- the code of a call does not end with a return, so there is code behind it
      have hbehind : (codes.flatten ++ ending).getLast? = some .ret := by
        by_cases hnil : codes.flatten ++ ending = []
        · rw [hnil, List.append_nil] at hlast
          exact absurd hlast (getLast?_call hcode)
        · rwa [List.getLast?_append_of_ne_nil _ hnil] at hlast
      rw [Frame.run_append (h.exec_call hcode), ih hbehind]
      rfl

end Runs

/-! ### Programs -/

/-- The linkage fields are pushed with their initial values. -/
theorem exec_locals (interpretation : Interpretation) {m : Module} {initials : List Value}
    {loads : List Instruction}
    (hloads : List.Forall₂ (LocalCode ⟨m.constants, m.imports⟩) initials loads) (f : Frame) :
    f.exec interpretation m loads = some { f with stack := f.stack ++ entries initials } := by
  induction hloads generalizing f with
  | nil => simp [Frame.exec, entries]
  | @cons v _ initials loads hload _ ih =>
    cases hload with
    | intro i hi =>
      have hstep : f.step interpretation m (.load i) = some (f.push (.value v)) := by
        simp [Frame.step, hi]
      rw [Frame.exec_cons hstep, ih]
      simp [Frame.push, entries]

/-- A program starts in the frame of its first state. -/
theorem frameOf_start {program : Program} (h : program.WellNamed) {working usings : List Value}
    (hworking : working.length = program.working.length)
    (husings : usings.length = program.usings.length) :
    frameOf program.layout (program.start working usings) [] =
      ⟨working, usings, entries program.initials, []⟩ := by
  obtain ⟨hnodup, hrest, hdisjoint⟩ := List.nodup_append.mp h.nodup_layout
  obtain ⟨hparameters, -, hapart⟩ := List.nodup_append.mp hrest
  have hlength : working.length = (program.working.map (·.name)).length := by
    rw [List.length_map, hworking]
  have hfirst : ((program.working.map (·.name)).zip working).map Prod.fst =
      program.layout.working :=
    List.map_fst_zip (Nat.le_of_eq hlength.symm)
  have hsecond : (program.usings.zip usings).map Prod.fst = program.layout.usings :=
    List.map_fst_zip (Nat.le_of_eq husings.symm)
  have hfields : program.layout.working.map (program.start working usings).store = working := by
    rw [Program.start, assign_append]
    -- the parameters are other fields
    have hsame : ∀ name ∈ program.layout.working, assign (program.usings.zip usings)
        (assign ((program.working.map (·.name)).zip working) fun name =>
          (program.linkageField name).initial) name =
        assign ((program.working.map (·.name)).zip working)
        (fun name => (program.linkageField name).initial) name := by
      intro name hname
      apply assign_of_not_mem
      rw [hsecond]
      exact fun hmem => hdisjoint name hname name (List.mem_append_left _ hmem) rfl
    rw [List.map_congr_left hsame]
    exact map_assign_zip hnodup hlength
  have husing : program.layout.usings.map (program.start working usings).store = usings := by
    rw [Program.start, assign_append]
    exact map_assign_zip hparameters husings
  have hlocals : program.layout.locals.map
      (fun name => Machine.Entry.value ((program.start working usings).store name)) =
      entries program.initials := by
    rw [Program.initials, entries, List.map_map]
    apply List.map_congr_left
    intro name hname
    have hfresh : name ∉
        ((program.working.map (·.name)).zip working ++ program.usings.zip usings).map Prod.fst := by
      rw [List.map_append, hfirst, hsecond, List.mem_append, not_or]
      exact ⟨fun hmem => hdisjoint name hmem name (List.mem_append_right _ hname) rfl,
        fun hmem => hapart name hmem name hname rfl⟩
    show Machine.Entry.value (assign _ _ name) = _
    rw [assign_of_not_mem hfresh]
    rfl
  rw [frameOf, hfields, husing, hlocals, List.append_nil]
  rfl

/-- The code of a program returns in the frame of its last state. -/
theorem run_compiled {interface : Callee → Interface} {programs : List Program} {product : Module}
    (h : CompiledModule interface programs product) {program : Program} {prototype : Prototype}
    (hcompiled : CompiledProgram ⟨product.constants, product.imports⟩ (programs.map (·.name))
      interface program prototype) (interpretation : Interpretation) {working usings : List Value}
    (hworking : working.length = program.working.length)
    (husings : usings.length = program.usings.length) :
    Frame.run interpretation product prototype.code.toList ⟨working, usings, [], []⟩ =
      some (frameOf program.layout
        (program.meaning ⟨interpretation, programs.map (·.name), interface⟩ working usings)
          []) := by
  have hruns : Runs ⟨program.layout, programs.map (·.name), interface⟩ product := by
    refine ⟨h.distinct, ?_, hcompiled.wellNamed.nodup_layout⟩
    intro i name hi
    obtain ⟨q, hq, -⟩ := h.exists_prototype hi
    exact (Array.getElem?_eq_some_iff.mp hq).1
  obtain ⟨loads, codes, ending, hcode, hloads, hcodes, hending, hlast⟩ := hcompiled.code.parts
  -- a program returns after its linkage fields were pushed
  have hreturns : (codes.flatten ++ ending).getLast? = some .ret := by
    by_cases hnil : codes.flatten ++ ending = []
    · rw [hcode, hnil, List.append_nil] at hlast
      obtain ⟨value, -, hlocal⟩ := exists_of_forall₂_right hloads (List.mem_of_getLast? hlast)
      cases hlocal
    · rwa [hcode, List.getLast?_append_of_ne_nil _ hnil] at hlast
  have hlocals := exec_locals interpretation hloads ⟨working, usings, [], []⟩
  rw [hcode, Frame.run_append hlocals]
  show Frame.run _ _ _ ⟨working, usings, entries program.initials, []⟩ = _
  rw [← frameOf_start hcompiled.wellNamed hworking husings,
    hruns.run_statements hcodes hending hreturns, runStatements_lowered]
  rfl

end Translation

namespace Session

open Translation

/-- A frame in which a program returned shows a state: it made the same calls, and every field of
working storage, every parameter and every result has the same value. -/
structure Shows (final : Frame) (program : Program) (s : Syntax.State) : Prop where
  calls : final.calls = s.calls
  working : final.fields = program.working.map fun field => s.store field.name
  usings : final.usings = program.usings.map s.store
  returnings : ∀ (k : Nat) (name : String), program.returnings[k]? = some name →
    final.stack[k]? = some (.value (s.store name))

theorem shows_frameOf (program : Program) (s : Syntax.State) :
    Shows (frameOf program.layout s []) program s := by
  refine ⟨rfl, ?_, rfl, ?_⟩
  · show (program.working.map (·.name)).map s.store = _
    rw [List.map_map]
    rfl
  · intro k name hk
    have hlocal : program.layout.locals[k]? = some name := by
      show (program.returnings ++ _)[k]? = some name
      rw [List.getElem?_append_left (List.getElem?_eq_some_iff.mp hk).1, hk]
    show ((program.layout.locals.map fun name => Machine.Entry.value (s.store name)) ++ [])[k]? = _
    rw [List.append_nil, List.getElem?_map, hlocal]
    rfl

/-- A tree that is a program has no module around it, so that it does not compile. -/
theorem refuses_program {s : Session} (hs : s.Sound) {parser : Parser}
    {source : List UInt8} {root : Node} (hroot : parser name source s.options.freeFormat = .ok root)
    (hprogram : root.tag = .program) (output? : Option String) :
    Ensures (compileSource parser source name output?) s (fun _ _ => False) (fun _ _ => True) := by
  have hdefine : ∀ {n : Node} {run : Run}, n.tag = .program → run.chunk? = none →
      Ensures (Declaration.define n) run (fun _ _ => False) (fun _ _ => True) := by
    intro n run hn hchunk
    obtain ⟨id, payload, location, children⟩ := n
    obtain rfl : payload = .program := payload_of_tag hn rfl
    unfold Declaration.define Pass.ofWalk
    simp only [ensures_bind, ensures_get, ensures_onPart, Visitor.visit, Visitor.walk_eq]
    show Ensures (Declaration.defineProgram _ _) _ _ _
    unfold Declaration.defineProgram
    simp [ensures_require, hchunk]
  unfold compileSource
  rw [ensures_bind, ensures_ordered hs.passes_eq, ensures_bind]
  apply (keeps_loadSystem parser hs).mono _ fun _ _ _ => trivial
  intro _ t ht
  rw [← ht.options_eq] at hroot
  rw [ensures_bind]
  apply ensures_run (fun _ => trivial)
  intro root' hroot'
  obtain rfl : root = root' := Except.ok.inj (hroot.symm.trans hroot')
  rw [Pass.core, runAll, List.foldlM_cons, ensures_bind]
  exact (hdefine ((root.tag_renumber 0).trans hprogram) rfl).mono (fun _ _ hfalse => hfalse.elim)
    fun _ _ _ => trivial

/-- Compiled code does what its program means. Take a grammatical tree that compiles and a program
in it, any values for the fields of working storage and for the parameters, and any way in which
called programs answer: the code of the program returns, and the frame in which it does shows the
state in which the program ends. -/
theorem compiled_code_preserves_meaning {s s' : Session} (hs : s.Reachable) {parser : Parser}
    {source : List UInt8} {name : String} {root : Node}
    (hroot : parser name source s.options.freeFormat = .ok root)
    (hgrammar : root.grammatical = true) {output? : Option String} {product : Module}
    (hcompiled : compileSource parser source name output? s = .ok product s')
    (interpretation : Interpretation) {n : Node} (hn : n ∈ root.nodes)
    (hprogram : n.tag = .program) :
    let programs := modulePrograms s.options.policy root
    let program := Program.ofNode s.options.policy n
    ∃ (k : Nat) (prototype : Prototype), (programNodes root)[k]? = some n ∧
      product.prototypes[k]? = some prototype ∧
      ∀ working usings : List Value, working.length = program.working.length →
        usings.length = program.usings.length →
        ∃ final, Frame.run interpretation product prototype.code.toList
            ⟨working, usings, [], []⟩ = some final ∧
          Shows final program (program.meaning
            ⟨interpretation, programs.map (·.name), interfaceIn s'.globals programs⟩
            working usings) := by
  intro programs program
  rcases eq_root_or_mem_programNodes hgrammar hn hprogram with rfl | ⟨hmodule, hmem⟩
  · exact ((refuses_program hs.sound hroot hprogram output?).of_ok hcompiled).elim
  · have hproduct := translated_of_compiled hs.sound hroot hgrammar hmodule hcompiled
    -- the prototype of a program is the one in its place
    obtain ⟨k, hlt, hk⟩ := List.getElem_of_mem hmem
    have hprograms : programs[k]? = some program := by
      simp [programs, program, modulePrograms, hlt, hk]
    obtain ⟨hlt', hget⟩ := List.getElem?_eq_some_iff.mp hprograms
    have hlt'' : k < product.prototypes.toList.length := hproduct.prototypes.length_eq ▸ hlt'
    have hprototype := hproduct.prototypes.get hlt' hlt''
    refine ⟨k, product.prototypes.toList[k], ?_, ?_, ?_⟩
    · rw [List.getElem?_eq_getElem hlt, hk]
    · rw [← Array.getElem?_toList, List.getElem?_eq_getElem hlt'']
    · intro working usings hworking husings
      rw [List.get_eq_getElem, hget] at hprototype
      exact ⟨_, run_compiled hproduct hprototype interpretation hworking husings, shows_frameOf _ _⟩

/-- Programs that turn their arguments around, and answer with the last of them. -/
def turning : Interpretation where
  respond := fun _ requested arguments =>
    (arguments.reverse, List.replicate requested (arguments.getLastD default))
  length_arguments := fun _ _ _ => List.length_reverse
  length_results := fun _ _ _ => Nat.le_of_eq List.length_replicate.symm

/-- The main program of the sample module passes the result of one call to another, and displays
values. Its code does what it means. -/
theorem sampleModule_preserves_meaning : ∃ (product : Module) (s' : Session) (main : Node) (k : Nat)
    (prototype : Prototype) (final : Frame), compileSource (fun _ _ _ => .ok Node.sampleModule)
    [] "SAMPLE.cbl" none (start {} .empty) = .ok product s' ∧ (programNodes Node.sampleModule)[k]? =
    some main ∧ main.name = "MAIN" ∧ product.prototypes[k]? = some prototype ∧
    Frame.run turning product prototype.code.toList ⟨[.comp2 1], [.comp2 2], [], []⟩ = some final ∧
    Shows final (Program.ofNode .truncate main) ((Program.ofNode .truncate main).meaning ⟨turning,
      (modulePrograms .truncate Node.sampleModule).map (·.name), interfaceIn s'.globals
      (modulePrograms .truncate Node.sampleModule)⟩ [.comp2 1] [.comp2 2]) := by
  have hanswers : answers (compileSource (fun _ _ _ => .ok Node.sampleModule) [] "SAMPLE.cbl" none)
      (start {} .empty) = true := by
    decide +kernel
  obtain ⟨product, s', hproduct⟩ := exists_of_answers hanswers
  have hmem : (programNodes Node.sampleModule).get ⟨2, by decide⟩ ∈ Node.sampleModule.nodes :=
    Node.child_mem_nodes (List.mem_filter.mp (List.get_mem ..)).1
  obtain ⟨k, prototype, hk, hprototype, hruns⟩ :=
    compiled_code_preserves_meaning (.start {} .empty) rfl
    (show Node.sampleModule.grammatical = true by decide +kernel) hproduct turning hmem (by decide)
  obtain ⟨final, hfinal, hshows⟩ :=
    hruns [.comp2 1] [.comp2 2] (by decide +kernel) (by decide +kernel)
  exact ⟨product, s', _, k, prototype, final, hproduct, hk, by decide, hprototype, hfinal, hshows⟩

end Session

end CobolCompiler
