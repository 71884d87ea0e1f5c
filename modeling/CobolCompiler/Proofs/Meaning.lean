import CobolCompiler.Proofs.Translation
import Mathlib.Data.List.Nodup
import Mathlib.Logic.Function.Basic

/-!
# What programs mean

A semantics of programs by their syntax, without code, stacks or slots. A program has a store that
holds a value for the name of each field, and a list of the calls that it made. What called programs
do is said by an interpretation, as it is for the machine.

* Statements run in order, up to the first GOBACK.
* Arguments are evaluated from the last to the first. A call that is an argument is made when its
  turn comes, and its first result is the value of the argument.
* After a call, fields that were passed by reference have the values that the call left in the
  arguments; the fields that take results have the results.
* DISPLAY calls the program that displays a value once for each operand. Fields are passed to it by
  content.
* A number literal is a value of the usage that its parameter has.
-/

namespace CobolCompiler

open Machine Translation

namespace Syntax

/-- The fields of a running program by their names, and the calls that it made. -/
structure State where
  store : String → Value
  calls : List Performed

/-- Put values into fields, one after the other. -/
def assign (pairs : List (String × Value)) (store : String → Value) : String → Value :=
  pairs.foldl (fun store pair => Function.update store pair.1 pair.2) store

/-- The fields that are passed by reference, each with the value that is in its argument after the
call. -/
def references (arguments : List Argument) (modified : List Value) : List (String × Value) :=
  (arguments.zip modified).filterMap fun pair => pair.1.referenceName?.map fun name =>
    (name, pair.2)

/-- The value of a number literal that is passed to a parameter of some usage. -/
def literal (usage : Usage) (text : String) : Value :=
  (Generation.literalValue (some usage) text).toOption.getD default

/-- What the meaning of a program depends on besides its text. -/
structure Setting where
  interpretation : Interpretation
  /-- The names of the programs of the file. -/
  programs : List String
  interface : Callee → Interface

variable (setting : Setting)

/-- Make a call with arguments that were evaluated. -/
def perform (callee : Callee) (requested : Nat) (arguments : List Argument) (values : List Value)
    (s : State) : State × List Value :=
  let callable := callableOf setting.programs callee
  let response := setting.interpretation.respond callable requested values
  (⟨assign (references arguments response.1) s.store, s.calls ++ [⟨callable, values, requested⟩]⟩,
    response.2)

mutual

/-- The value of an argument. -/
def Argument.eval : Argument → Usage → State → State × Value
  | .field name _, _, s => (s, s.store name)
  | .number text, usage, s => (s, literal usage text)
  | .string text, _, s => (s, .display text)
  | .call callee arguments, _, s =>
    let evaluated := Argument.evalAll arguments (setting.interface callee).usages s
    let called := perform setting callee 1 arguments evaluated.2 evaluated.1
    (called.1, called.2.headD default)

/-- The values of arguments, which are evaluated from the last to the first. -/
def Argument.evalAll : List Argument → List Usage → State → State × List Value
  | [], _, s => (s, [])
  | _ :: _, [], s => (s, [])
  | argument :: rest, usage :: usages, s =>
    let behind := Argument.evalAll rest usages s
    let first := argument.eval usage behind.1
    (first.1, first.2 :: behind.2)

end

/-- Run a call statement. -/
def runCall (callee : Callee) (arguments : List Argument) (returnings : List String)
    (s : State) : State :=
  let evaluated := Argument.evalAll setting arguments (setting.interface callee).usages s
  let called := perform setting callee returnings.length arguments evaluated.2 evaluated.1
  { called.1 with store := assign (returnings.zip called.2) called.1.store }

/-- Run statements up to the first GOBACK. -/
def runStatements : List Statement → State → State
  | [], s => s
  | .goback :: _, s => s
  | .call callee arguments returnings :: rest, s =>
    runStatements rest (runCall setting callee arguments returnings s)
  | .display operands :: rest, s =>
    runStatements rest
      (operands.foldl (fun s operand => runCall setting .display [operand.displayed] [] s) s)

namespace Program

/-- The state in which a program starts: working-storage fields and parameters have given values,
other linkage fields their initial ones. -/
def start (program : Program) (working usings : List Value) : State :=
  ⟨assign ((program.working.map (·.name)).zip working ++ program.usings.zip usings) fun name =>
    (program.linkageField name).initial, []⟩

/-- The state in which a program ends. -/
def meaning (program : Program) (working usings : List Value) : State :=
  runStatements setting program.statements (program.start working usings)

end Program

/-! ### Stores -/

section stores

variable {store : String → Value} {pairs : List (String × Value)}

theorem assign_append (pairs more : List (String × Value)) (store : String → Value) :
    assign (pairs ++ more) store = assign more (assign pairs store) :=
  List.foldl_append

theorem assign_of_not_mem {name : String} (h : name ∉ pairs.map Prod.fst) :
    assign pairs store name = store name := by
  induction pairs generalizing store with
  | nil => rfl
  | cons pair rest ih =>
    rw [List.map_cons, List.mem_cons, not_or] at h
    exact (ih h.2).trans (Function.update_of_ne h.1 _ _)

/-- The fields that get values have them afterwards. -/
theorem map_assign_zip {names : List String} (hnodup : names.Nodup) {values : List Value}
    (hlength : values.length = names.length) :
    names.map (assign (names.zip values) store) = values := by
  induction names generalizing values store with
  | nil => exact (List.length_eq_zero_iff.mp hlength).symm
  | cons name names ih =>
    obtain _ | ⟨value, values⟩ := values
    · cases hlength
    obtain ⟨hfresh, hnodup⟩ := List.nodup_cons.mp hnodup
    rw [List.length_cons, List.length_cons, Nat.add_right_cancel_iff] at hlength
    have hkeys : name ∉ (names.zip values).map Prod.fst := by rwa [List.map_fst_zip (by omega)]
    have hfirst : assign ((name :: names).zip (value :: values)) store name = value :=
      (assign_of_not_mem hkeys).trans (Function.update_self ..)
    rw [List.map_cons, hfirst]
    exact congrArg (value :: ·) (ih hnodup hlength)

/-- If all fields are different, it does not matter in which order they get their values. -/
theorem assign_perm {pairs' : List (String × Value)} (hnodup : (pairs.map Prod.fst).Nodup)
    (hperm : pairs.Perm pairs') :
    assign pairs store = assign pairs' store := by
  apply hperm.foldl_eq'
  intro pair hpair pair' hpair' store
  by_cases heq : pair.1 = pair'.1
  · rw [List.inj_on_of_nodup_map hnodup hpair hpair' heq]
  · exact Function.update_comm heq _ _ _

theorem map_fst_references {arguments : List Argument} {modified : List Value}
    (hlength : modified.length = arguments.length) :
    (references arguments modified).map Prod.fst = arguments.filterMap Argument.referenceName? := by
  have hfirst : (arguments.zip modified).map Prod.fst = arguments := List.map_fst_zip (by omega)
  have hname : ∀ pair : Argument × Value, (pair.1.referenceName?.map fun name => (name, pair.2)).map
      Prod.fst = pair.1.referenceName? := by
    intro pair
    rw [Option.map_map]
    exact Option.map_id'
  calc (references arguments modified).map Prod.fst
      = (arguments.zip modified).filterMap fun pair => pair.1.referenceName? := by
        rw [references, List.map_filterMap]
        simp only [hname]
    _ = ((arguments.zip modified).map Prod.fst).filterMap Argument.referenceName? := by
        rw [List.filterMap_map]
        rfl
    _ = arguments.filterMap Argument.referenceName? := by rw [hfirst]

end stores

/-! ### Arguments in the order in which they are evaluated -/

/-- The values of arguments that are evaluated from the first to the last. -/
def evalItems : List (Usage × Argument) → State → State × List Value
  | [], s => (s, [])
  | (usage, argument) :: rest, s =>
    let first := argument.eval setting usage s
    let behind := evalItems rest first.1
    (behind.1, first.2 :: behind.2)

variable {setting}

theorem evalItems_append (items more : List (Usage × Argument)) (s : State) :
    evalItems setting (items ++ more) s =
      ((evalItems setting more (evalItems setting items s).1).1,
        (evalItems setting items s).2 ++
          (evalItems setting more (evalItems setting items s).1).2) := by
  induction items generalizing s with
  | nil => rfl
  | cons item rest ih => simp only [List.cons_append, evalItems, ih]

theorem length_evalItems (items : List (Usage × Argument)) (s : State) :
    (evalItems setting items s).2.length = items.length := by
  induction items generalizing s with
  | nil => rfl
  | cons item rest ih => simp only [evalItems, List.length_cons, ih]

/-- To evaluate arguments from the last to the first is to evaluate the reversed list. -/
theorem evalAll_eq (arguments : List Argument) (usages : List Usage)
    (hlength : arguments.length = usages.length) (s : State) :
    Argument.evalAll setting arguments usages s =
      ((evalItems setting (usages.zip arguments).reverse s).1,
        (evalItems setting (usages.zip arguments).reverse s).2.reverse) := by
  induction arguments generalizing usages s with
  | nil =>
    rw [List.zip_nil_right]
    rfl
  | cons argument rest ih =>
    obtain _ | ⟨usage, usages⟩ := usages
    · cases hlength
    have hrest := ih usages (by simpa using hlength) s
    rw [List.zip_cons_cons, List.reverse_cons, evalItems_append, Argument.evalAll, hrest]
    simp [evalItems]

/-! ### DISPLAY -/

theorem runStatements_map_call (operands : List Argument) (rest : List Statement) (s : State) :
    runStatements setting
      (operands.map (fun operand => .call .display [operand.displayed] []) ++ rest) s =
      runStatements setting rest
        (operands.foldl (fun s operand =>
          runCall setting .display [operand.displayed] [] s) s) := by
  induction operands generalizing s with
  | nil => rfl
  | cons operand operands ih => exact ih _

/-- A program and the one in which DISPLAY statements are written as calls mean the same. -/
theorem runStatements_lowered (statements : List Statement) (s : State) :
    runStatements setting (statements.flatMap Statement.lowered) s =
      runStatements setting statements s := by
  induction statements generalizing s with
  | nil => rfl
  | cons statement rest ih =>
    rw [List.flatMap_cons]
    cases statement with
    | call callee arguments returnings => exact ih _
    | display operands =>
      rw [Statement.lowered, runStatements_map_call, ih]
      rfl
    | goback => rfl

end Syntax

end CobolCompiler
