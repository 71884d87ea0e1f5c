import CobolCompiler.Proofs.ImportTable
import CobolCompiler.Proofs.Safety

/-!
# Linking

How the parts of a compiled module refer to each other. Code pushes the programs that it calls:
those of the same file as prototypes, by their places, and those of other modules as imports.
`LinkedModule` says that all this is as the tree has it, for names, entries, calls and imports.

* `pushed`: what code pushes, by the names that prototypes and imports stand for.
* `CompiledProgram.pushed_eq`: this is what the program calls, in the order in which calls are
  begun.
* `compiled_module_linked`: a module that comes out of a compilation is linked.
-/

namespace CobolCompiler

open Machine Translation Syntax

/-! ### The programs that code pushes -/

namespace Syntax

mutual

/-- The programs that are called for an argument, in the order in which they are pushed: a call
comes before those in its arguments. -/
def Argument.pushes : Argument → List Callee
  | .field _ _ => []
  | .number _ => []
  | .string _ => []
  | .call callee arguments => callee :: Argument.allPushes arguments

/-- The programs that are called for arguments, from the last argument to the first. -/
def Argument.allPushes : List Argument → List Callee
  | [] => []
  | argument :: rest => Argument.allPushes rest ++ argument.pushes

end

/-- The programs that a statement calls. DISPLAY calls one for each operand. -/
def Statement.pushes : Statement → List Callee
  | .call callee arguments _ => callee :: Argument.allPushes arguments
  | .display operands => operands.flatMap fun operand => .display :: operand.pushes
  | .goback => []

/-- The programs that a program calls. -/
def Program.pushes (program : Program) : List Callee :=
  program.statements.flatMap Statement.pushes

theorem Argument.allPushes_eq (arguments : List Argument) :
    Argument.allPushes arguments = arguments.reverse.flatMap Argument.pushes := by
  induction arguments with
  | nil => rfl
  | cons argument rest ih =>
    rw [allPushes, ih, List.reverse_cons, List.flatMap_append, List.flatMap_singleton]

/-- Writing DISPLAY as calls does not change which programs are called. -/
theorem Statement.pushes_lowered (statement : Statement) :
    statement.lowered.flatMap Statement.pushes = statement.pushes := by
  cases statement with
  | call callee arguments returnings => exact List.flatMap_singleton ..
  | goback => rfl
  | display operands =>
    show (operands.map _).flatMap Statement.pushes = operands.flatMap _
    rw [List.flatMap_map]
    congr 1
    funext operand
    show Callee.display :: ([] ++ operand.displayed.pushes) = Callee.display :: operand.pushes
    cases operand <;> rfl

theorem Program.pushes_lowered (program : Program) :
    (program.statements.flatMap Statement.lowered).flatMap Statement.pushes = program.pushes := by
  rw [List.flatMap_assoc, Program.pushes]
  congr 1
  funext statement
  exact statement.pushes_lowered

end Syntax

namespace Machine

/-- The instruction pushes a program. -/
def Instruction.isCallable : Instruction → Bool
  | .imported _ => true
  | .proto _ => true
  | _ => false

/-- The name of the program that an instruction pushes. -/
def Instruction.callee? (programs : List String) (imports : Array Import) :
    Instruction → Option Callee
  | .proto i => programs[i.toNat]?.map fun program => ⟨none, program⟩
  | .imported i => imports[i.toNat]?.map fun target => ⟨some target.owner, target.program⟩
  | _ => none

/-- The programs that code pushes, in order. -/
def pushed (programs : List String) (imports : Array Import) (code : List Instruction) :
    List (Option Callee) :=
  (code.filter Instruction.isCallable).map (Instruction.callee? programs imports)

variable (programs : List String) (imports : Array Import)

theorem pushed_append (code rest : List Instruction) :
    pushed programs imports (code ++ rest) = pushed programs imports code ++
      pushed programs imports rest := by
  rw [pushed, List.filter_append, List.map_append]
  rfl

variable {code : List Instruction}

theorem pushed_of_forall (h : ∀ i ∈ code, i.isCallable = false) :
    pushed programs imports code = [] := by
  rw [pushed, List.filter_eq_nil_iff.mpr (by simpa using h)]
  rfl

theorem pushed_cons_of_not {i : Instruction} (h : i.isCallable = false) (code : List Instruction) :
    pushed programs imports (i :: code) = pushed programs imports code := by
  rw [pushed, List.filter_cons_of_neg (by simpa using h)]
  rfl

/-- An import that code pushes. -/
theorem mem_pushed_of_mem {i : UInt16} (hi : .imported i ∈ code) {target : Import}
    (htarget : imports[i.toNat]? = some target) :
    some ⟨some target.owner, target.program⟩ ∈ pushed programs imports code := by
  have hcallee : Instruction.callee? programs imports (.imported i) =
      some ⟨some target.owner, target.program⟩ := by
    rw [Instruction.callee?, htarget]
    rfl
  rw [← hcallee]
  exact List.mem_map_of_mem (List.mem_filter.mpr ⟨hi, rfl⟩)

/-- A program of another module is only pushed if it is imported. -/
theorem mem_imports_of_pushed {owner program : String}
    (h : some ⟨some owner, program⟩ ∈ pushed programs imports code) :
    ⟨owner, program⟩ ∈ imports.toList := by
  obtain ⟨i, -, hi⟩ := List.mem_map.mp h
  unfold Instruction.callee? at hi
  split at hi
  · obtain ⟨_, -, hcallee⟩ := Option.map_eq_some_iff.mp hi
    cases hcallee
  · obtain ⟨target, htarget, hcallee⟩ := Option.map_eq_some_iff.mp hi
    cases hcallee
    exact Array.mem_toList_iff.mpr (Array.mem_of_getElem? htarget)
  · cases hi

theorem pushed_flatten {α : Type} {items : List α} {codes : List (List Instruction)}
    {callees : α → List Callee}
    (h : List.Forall₂ (fun item code => pushed programs imports code = (callees item).map some)
      items codes) :
    pushed programs imports codes.flatten = (items.flatMap callees).map some := by
  induction h with
  | nil => rfl
  | cons hcode _ ih =>
    rw [List.flatten_cons, pushed_append, hcode, ih, List.flatMap_cons, List.map_append]

end Machine

namespace Translation

variable {ctx : Context} {t : Tables}

theorem CallableCode.pushed_cons {callee : Callee} {i : Instruction}
    (h : CallableCode ctx t callee i) (code : List Instruction) :
    pushed ctx.programs t.imports (i :: code) = some callee ::
      pushed ctx.programs t.imports code := by
  cases h with
  | imported i h =>
    show (t.imports[i.toNat]?.map _) :: pushed ctx.programs t.imports code = _
    rw [h]
    rfl
  | own i h =>
    show (ctx.programs[i.toNat]?.map _) :: pushed ctx.programs t.imports code = _
    rw [h]
    rfl

theorem isCallable_loadOf (slot : Slot) : (loadOf slot).isCallable = false := by
  cases slot <;> rfl

theorem isCallable_storeOf (slot : Slot) : (storeOf slot).isCallable = false := by
  cases slot <;> rfl

theorem pushed_takeBacks {arguments : List Argument} {backs : List Instruction}
    (h : List.Forall₂ (TakeBackCode ctx) arguments backs) :
    pushed ctx.programs t.imports backs = [] := by
  apply pushed_of_forall
  intro i hi
  obtain ⟨argument, -, hback⟩ := exists_of_forall₂_right h hi
  cases hback with
  | reference _ => exact isCallable_storeOf _
  | dropped _ => rfl

theorem pushed_stores {names : List String} {stores : List Instruction}
    (h : List.Forall₂ (StoreCode ctx) names stores) :
    pushed ctx.programs t.imports stores = [] := by
  apply pushed_of_forall
  intro i hi
  obtain ⟨name, -, hstore⟩ := exists_of_forall₂_right h hi
  cases hstore
  exact isCallable_storeOf _

/-- The code of arguments pushes the programs that they call. -/
theorem ArgumentsCode.pushed_eq {depth : Nat} {items : List (Usage × Argument)}
    {code : List Instruction} (h : ArgumentsCode ctx t depth items code) :
    pushed ctx.programs t.imports code = (items.flatMap fun item => item.2.pushes).map some := by
  induction h with
  | nil => rfl
  | field _ _ ih =>
    rw [pushed_cons_of_not _ _ (isCallable_loadOf _), ih]
    rfl
  | number _ _ _ ih | string _ _ ih =>
    rw [pushed_cons_of_not _ _ rfl, ih]
    rfl
  | @call _ _ callee arguments _ _ _ inner backs rest code hcallable hlength _ _ _ _ _ hbacks _
    ihinner ihrest =>
    rw [hcallable.pushed_cons, pushed_append, ihinner, pushed_cons_of_not _ _ rfl,
      pushed_cons_of_not _ _ rfl, pushed_append, pushed_takeBacks hbacks, ihrest,
      Context.flatMap_passed hlength, ← Argument.allPushes_eq, List.flatMap_cons, Argument.pushes]
    simp

/-- The code of a statement pushes the programs that it calls. -/
theorem StatementCode.pushed_eq {statement : Statement} {code : List Instruction}
    (h : StatementCode ctx t statement code) :
    pushed ctx.programs t.imports code = statement.pushes.map some := by
  cases h with
  | call hcallable hlength _ _ _ _ hinner hstores hbacks =>
    rw [hcallable.pushed_cons, pushed_append, hinner.pushed_eq, pushed_cons_of_not _ _ rfl,
      pushed_append, pushed_stores hstores, pushed_append, pushed_takeBacks hbacks,
      Context.flatMap_passed hlength, ← Argument.allPushes_eq, Statement.pushes]
    simp [pushed, Instruction.isCallable]
  | goback => rfl

/-- The code of a program pushes the programs that it calls. -/
theorem CompiledProgram.pushed_eq {programs : List String}
    {interface : Callee → Interface} {program : Program}
    {prototype : Prototype} (h : CompiledProgram t programs interface program prototype) :
    pushed programs t.imports prototype.code.toList = program.pushes.map some := by
  obtain ⟨loads, codes, ending, hcode, hloads, hcodes, hending, -⟩ := h.code.parts
  have hlocals : pushed programs t.imports loads = [] := by
    apply pushed_of_forall
    intro i hi
    obtain ⟨value, -, hlocal⟩ := exists_of_forall₂_right hloads hi
    cases hlocal
    rfl
  have hend : pushed programs t.imports ending = [] := by
    rcases hending with rfl | rfl <;> rfl
  have hstatements := pushed_flatten programs t.imports
    (hcodes.imp fun statement code hstatement => hstatement.pushed_eq)
  rw [hcode, pushed_append, pushed_append, hlocals, hend, hstatements, Program.pushes_lowered,
    List.nil_append, List.append_nil]

end Translation

/-! ### Linked modules -/

/-- The name by which the program that a node is can be called from outside. -/
def Syntax.entryName? (n : Node) : Option String :=
  if (n.child? .exportMark).isSome then some n.name else none

/-- A prototype is linked like a program of a tree. -/
structure LinkedPrototype (policy : FractionPolicy) (programs : List String)
    (imports : Array Import) (n : Node) (prototype : Prototype) : Prop where
  name_eq : prototype.name? = entryName? n
  usings_eq : prototype.usings.toNat = (parameterNames .procedureUsings n).length
  returnings_eq : prototype.returnings.toNat = (parameterNames .procedureReturnings n).length
  fields_eq : prototype.fields.toList = (Program.ofNode policy n).working.map (·.initial)
  /-- Calls push what they name: a prototype if they name a program of the file, and an import
  otherwise. -/
  pushed_eq : pushed programs imports prototype.code.toList =
    (Program.ofNode policy n).pushes.map some

/-- The parts of a module refer to each other as the programs of a tree do. -/
structure LinkedModule (policy : FractionPolicy) (root : Node) (product : Module) : Prop where
  distinct : ((programNodes root).map (·.name)).Nodup
  prototypes :
    List.Forall₂ (LinkedPrototype policy ((programNodes root).map (·.name)) product.imports)
    (programNodes root) product.prototypes.toList
  entries_nodup : (product.entries.map (·.name?)).Nodup
  entry?_eq_some_iff : ∀ name prototype, product.entry? name = some prototype ↔
    ∃ n, (n, prototype) ∈ (programNodes root).zip product.prototypes.toList ∧
    (n.child? .exportMark).isSome ∧ n.name = name
  imports_nodup : product.imports.toList.Nodup
  mem_imports_iff : ∀ target, target ∈ product.imports.toList ↔
    ∃ n ∈ programNodes root, ⟨some target.owner, target.program⟩ ∈ (Program.ofNode policy n).pushes

section linked

variable {policy : FractionPolicy} {root : Node} {product : Module}

variable {name : String}

theorem entryName?_eq_some_iff {n : Node} :
    entryName? n = some name ↔ (n.child? .exportMark).isSome ∧ n.name = name := by
  unfold entryName?
  split
  · next hmark => simp [hmark]
  · next hmark => simp [hmark]

/-- The names of entries do not depend on the numbers of nodes. -/
theorem entryNames_renumber (root : Node) (next : Nat) :
    (programNodes (root.renumber next).1).map entryName? = (programNodes root).map entryName? := by
  have hsame : ∀ tree : Node, (programNodes tree.erased).map entryName? =
      (programNodes tree).map entryName? := by
    intro tree
    rw [programNodes, Node.childrenOf_erased, List.map_map]
    apply List.map_congr_left
    intro n _
    simp only [Function.comp_apply, entryName?, Node.child?_erased, Option.isSome_map,
      Node.name_erased]
  rw [← hsame, Node.erased_renumber, hsame]

/-- Exported programs have different names if all programs have. -/
theorem nodup_entryNames {nodes : List Node} (h : (nodes.map (·.name)).Nodup) :
    ((nodes.map entryName?).filter Option.isSome).Nodup := by
  have hnames : (nodes.map entryName?).filter Option.isSome =
      ((nodes.filter fun n => (entryName? n).isSome).map (·.name)).map some := by
    rw [List.filter_map, List.map_map]
    apply List.map_congr_left
    intro n hn
    obtain ⟨name, hname⟩ := Option.isSome_iff_exists.mp (List.mem_filter.mp hn).2
    rw [hname, Function.comp_apply, (entryName?_eq_some_iff.mp hname).2]
  rw [hnames]
  exact (h.sublist (List.filter_sublist.map _)).map (Option.some_injective _)

/-- The entries of a module that has the names of a tree. -/
theorem entries_nodup_of_names (hdistinct : ((programNodes root).map (·.name)).Nodup)
    (hnames : product.prototypes.toList.map (·.name?) = (programNodes root).map entryName?) :
    (product.entries.map (·.name?)).Nodup := by
  have hentries : product.entries.map (·.name?) = (product.prototypes.toList.map (·.name?)).filter
      Option.isSome := by
    rw [Module.entries, List.filter_map]
    rfl
  rw [hentries, hnames]
  exact nodup_entryNames hdistinct

/-- An entry is found by its name. -/
theorem entry?_eq_some_iff_mem (h : (product.entries.map (·.name?)).Nodup) {prototype : Prototype} :
    product.entry? name = some prototype ↔ prototype ∈ product.prototypes.toList ∧
      prototype.name? = some name := by
  constructor
  · intro hentry
    have hmem := List.mem_of_find?_eq_some hentry
    have hname := List.find?_some hentry
    exact ⟨(List.mem_filter.mp hmem).1, by simpa using hname⟩
  · intro hnamed
    obtain ⟨hmem, hname⟩ := hnamed
    have hentry : prototype ∈ product.entries := List.mem_filter.mpr ⟨hmem, by rw [hname]; rfl⟩
    cases hfound : product.entry? name with
    | none =>
      have hnone := List.find?_eq_none.mp hfound prototype hentry
      simp [hname] at hnone
    | some other =>
      -- two entries of one name are the same
      have hother := List.mem_of_find?_eq_some hfound
      have hsame : other.name? = some name := by simpa using List.find?_some hfound
      rw [List.inj_on_of_nodup_map h hother hentry (hsame.trans hname.symm)]

theorem exists_zip_of_names {nodes : List Node} {prototypes : List Prototype}
    (h : List.Forall₂ (fun n prototype => prototype.name? = entryName? n) nodes prototypes)
    {prototype : Prototype} :
    prototype ∈ prototypes ∧ prototype.name? = some name ↔
      ∃ n, (n, prototype) ∈ nodes.zip prototypes ∧ (n.child? .exportMark).isSome ∧
        n.name = name := by
  obtain ⟨hlength, hzip⟩ := List.forall₂_iff_zip.mp h
  constructor
  · intro hnamed
    obtain ⟨hmem, hname⟩ := hnamed
    have hsnd : (nodes.zip prototypes).map Prod.snd = prototypes := List.map_snd_zip (by omega)
    rw [← hsnd] at hmem
    obtain ⟨pair, hpair, rfl⟩ := List.mem_map.mp hmem
    refine ⟨pair.1, hpair, ?_⟩
    rw [hzip hpair] at hname
    exact entryName?_eq_some_iff.mp hname
  · intro hexported
    obtain ⟨n, hpair, hentry⟩ := hexported
    refine ⟨(List.of_mem_zip hpair).2, ?_⟩
    rw [hzip hpair]
    exact entryName?_eq_some_iff.mpr hentry

/-- A module is linked if its prototypes are, and if it imports nothing twice and nothing in
vain. -/
theorem linkedModule_of_prototypes (hdistinct : ((programNodes root).map (·.name)).Nodup)
    (hprototypes : List.Forall₂ (LinkedPrototype policy ((programNodes root).map (·.name))
      product.imports) (programNodes root) product.prototypes.toList)
    {names : List (Option String)} {open? : Option Nat}
    (hlinked : Assembler.Linked names [] ⟨product, open?⟩) : LinkedModule policy root product := by
  have hname := hprototypes.imp fun _ _ h => h.name_eq
  have hnames : product.prototypes.toList.map (·.name?) = (programNodes root).map entryName? := by
    rw [← List.forall₂_eq_eq_eq, List.forall₂_map_left_iff, List.forall₂_map_right_iff]
    exact hname.flip
  have hentries := entries_nodup_of_names hdistinct hnames
  refine ⟨hdistinct, hprototypes, hentries, ?_, hlinked.nodup, ?_⟩
  · intro name prototype
    rw [entry?_eq_some_iff_mem hentries]
    exact exists_zip_of_names hname
  · intro target
    constructor
    · intro hmem
      -- nothing is left to be used later, so the import is in the code of some prototype
      obtain ⟨j, hj⟩ := List.getElem?_of_mem hmem
      rw [Array.getElem?_toList] at hj
      obtain ⟨hlt, -⟩ := Array.getElem?_eq_some_iff.mp hj
      obtain ⟨i, hi, hused⟩ := hlinked.used j hlt
      obtain ⟨prototype, hprototype, hcode⟩ := hused.resolve_left (by simp)
      obtain ⟨n, hn, hlinkedTo⟩ := exists_of_forall₂_right hprototypes hprototype
      have hpushed :=
        mem_pushed_of_mem ((programNodes root).map (·.name)) product.imports hcode (hi ▸ hj)
      rw [hlinkedTo.pushed_eq] at hpushed
      exact ⟨n, hn, by simpa using hpushed⟩
    · intro hpushed
      obtain ⟨n, hn, hcallee⟩ := hpushed
      obtain ⟨prototype, -, hlinkedTo⟩ := exists_of_forall₂_left hprototypes hn
      have hpushed : some ⟨some target.owner, target.program⟩ ∈
          pushed ((programNodes root).map (·.name)) product.imports prototype.code.toList := by
        rw [hlinkedTo.pushed_eq]
        exact List.mem_map_of_mem hcallee
      exact mem_imports_of_pushed _ _ hpushed

end linked

namespace Session

open Generation

/-- A module that comes out of the compilation of a grammatical tree is linked as the tree says. -/
theorem compiled_module_linked {s t : Session} (hs : s.Reachable) {parser : Parser}
    {source : List UInt8} {file : String}
    {root : Node} (hroot : parser file source s.options.freeFormat = .ok root)
    (hgrammar : root.grammatical = true) (hmodule : root.tag = .module) {output? : Option String}
    {product : Module} (hcompiled : compileSource parser source file output? s = .ok product t) :
    LinkedModule s.options.policy root product := by
  obtain ⟨before, hbefore, hgenerated⟩ :=
    generated_of_compiled hs.sound hroot hgrammar hmodule hcompiled
  have hproduct := hgenerated.compiled
  obtain ⟨open?, hlinked⟩ := hgenerated.linked
  rw [programsOf_eq hbefore] at hproduct
  have hprograms : (modulePrograms s.options.policy root).map (·.name) =
      (programNodes root).map (·.name) := by
    rw [modulePrograms, List.map_map]
    rfl
  have hnames : product.prototypes.toList.map (·.name?) = (programNodes root).map entryName? := by
    rw [← entryNames_renumber root 0, hbefore, before.programNodes_node, List.map_map]
    exact hlinked.names_eq
  have hdistinct := hproduct.distinct
  have hprototypes := hproduct.prototypes
  rw [hprograms] at hdistinct hprototypes
  rw [modulePrograms, List.forall₂_map_left_iff] at hprototypes
  obtain ⟨hlength, hzip⟩ := List.forall₂_iff_zip.mp hprototypes
  apply linkedModule_of_prototypes hdistinct _ hlinked
  rw [← List.forall₂_eq_eq_eq, List.forall₂_map_left_iff, List.forall₂_map_right_iff] at hnames
  obtain ⟨-, hname⟩ := List.forall₂_iff_zip.mp hnames.flip
  refine List.forall₂_iff_zip.mpr ⟨hlength, fun {n prototype} hmem => ?_⟩
  have hcompiledProgram := hzip hmem
  exact ⟨hname hmem, hcompiledProgram.usings_eq, hcompiledProgram.returnings_eq,
    hcompiledProgram.fields_eq, hcompiledProgram.pushed_eq⟩

open Build

/-- Two programs that call each other, forward and by the name of their module. Only the second one
is exported. -/
def circularModule : Node :=
  Build.module "CIRCLE" [
    program "FIRST" [
      procedure [] [] [
        call "SECOND" none [] [], call "FIRST" none [] [], call "SECOND" (some "CIRCLE") [] []]],
    program "SECOND" [
      leaf .exportMark,
      procedure [] [] [call "FIRST" none [] [], call "SECOND" (some "CIRCLE") [] []]]]

/-- The module compiles, and it is linked. The two calls that name the module share an import. -/
theorem circularModule_linked :
    ∃ product t, compileSource (fun _ _ _ => .ok circularModule) [] "CIRCLE.cbl" none
      (start {} .empty) = .ok product t ∧ LinkedModule .truncate circularModule product := by
  have hanswers : answers (compileSource (fun _ _ _ => .ok circularModule) [] "CIRCLE.cbl" none)
      (start {} .empty) = true := by
    decide +kernel
  have hgrammar : circularModule.grammatical = true := by
    decide +kernel
  obtain ⟨product, t, hproduct⟩ := exists_of_answers hanswers
  exact ⟨product, t, hproduct,
    compiled_module_linked (.start {} .empty) rfl hgrammar (by decide) hproduct⟩

/-- Without a module at its root, a tree may get the module that an earlier compilation stopped in
as its result. This one has prototypes, though the tree has no programs. -/
theorem pending_module_unlinked :
    counterSession.Reachable ∧ (Build.identifier "NOTE").grammatical = true ∧
      ∃ product t, compileSource nameParser [] "NOTE.cbl" none counterSession = .ok product t ∧
        ∀ policy, ¬ LinkedModule policy (Build.identifier "NOTE") product := by
  obtain ⟨product, t, ht, -, hcode⟩ := exists_compiled_counterSession
  refine ⟨counterSession_reachable, by decide +kernel, product, t, ht, fun policy hlinked => ?_⟩
  have hcount := hlinked.prototypes.length_eq
  have hlength := congrArg List.length hcode
  rw [List.length_map, ← hcount] at hlength
  exact absurd hlength (by decide)

end Session

end CobolCompiler
