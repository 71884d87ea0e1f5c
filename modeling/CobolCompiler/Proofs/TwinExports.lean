import CobolCompiler.Proofs.ScopeEffect
import CobolCompiler.Proofs.TwinCode

/-!
# The programs that a tree calls in two runs

Of a tree that is declared in two scopes, a call without module means twins. A call with a module
means twins as well if the module is that of the tree and the tree exports the program; otherwise it
means, in both scopes, a program that was there before (`exported_cases`). If such programs are the
same for a caller, the core passes make the same of the tree (`alike_core`).
-/

namespace CobolCompiler

open Syntax

/-! ### Names of called programs -/

namespace Syntax

mutual

/-- The names of the programs that are called for an argument. -/
def Argument.callees : Argument → List Callee
  | .field _ _ => []
  | .number _ => []
  | .string _ => []
  | .call callee arguments => callee :: Argument.allCallees arguments

/-- The names of the programs that are called for arguments. -/
def Argument.allCallees : List Argument → List Callee
  | [] => []
  | argument :: rest => argument.callees ++ Argument.allCallees rest

end

/-- The names of the programs that a statement calls. DISPLAY calls one for each operand. -/
def Statement.callees : Statement → List Callee
  | .call callee arguments _ => callee :: Argument.allCallees arguments
  | .display operands => operands.flatMap fun operand => .display :: operand.callees
  | .goback => []

/-- The names of the programs that a program calls. -/
def Program.callees (program : Program) : List Callee :=
  program.statements.flatMap Statement.callees

theorem Argument.allCallees_eq (arguments : List Argument) :
    Argument.allCallees arguments = arguments.flatMap Argument.callees := by
  induction arguments with
  | nil => rfl
  | cons argument rest ih => rw [allCallees, ih, List.flatMap_cons]

theorem Argument.callees_displayed (operand : Argument) :
    operand.displayed.callees = operand.callees := by
  cases operand <;> rfl

/-- Writing DISPLAY as calls, no other programs are called. -/
theorem Statement.callees_lowered {statement s : Statement} (hs : s ∈ statement.lowered) :
    ∀ callee ∈ s.callees, callee ∈ statement.callees := by
  intro callee hcallee
  cases statement with
  | call _ _ _ =>
    obtain rfl := List.mem_singleton.mp hs
    exact hcallee
  | goback =>
    obtain rfl := List.mem_singleton.mp hs
    exact hcallee
  | display operands =>
    obtain ⟨operand, hoperand, rfl⟩ := List.mem_map.mp hs
    refine List.mem_flatMap.mpr ⟨operand, hoperand, ?_⟩
    simpa [Statement.callees, Argument.allCallees, Argument.callees_displayed] using hcallee

end Syntax

section trees

variable {c n : Node}

/-- The calls in a call: itself, and those in its arguments. -/
theorem IsCall.callee_mem (h : IsCall c)
    (harguments : ∀ a ∈ c.arguments, n ∈ a.nodes → Callee.ofNode n ∈ (Argument.ofNode a).callees)
    (hn : n ∈ c.nodes) (hcall : n.payload = .callStatement ∨ n.payload = .callExpression) :
    Callee.ofNode n ∈ Callee.ofNode c :: Argument.allCallees (c.arguments.map Argument.ofNode) := by
  have htag : n.tag = .callStatement ∨ n.tag = .callExpression :=
    hcall.imp (congrArg Payload.tag) (congrArg Payload.tag)
  rcases h.cases_node hn with rfl | hname | ⟨husings, -⟩ | htarget | ⟨a, ha, hn⟩
  · exact List.mem_cons_self
  · rcases htag with htag | htag <;> simp [htag] at hname
  · simp [husings] at hcall
  · cases h.areTargets n htarget
    simp at hcall
  · rw [Argument.allCallees_eq]
    exact List.mem_cons_of_mem _
      (List.mem_flatMap.mpr ⟨Argument.ofNode a, List.mem_map_of_mem ha, harguments a ha hn⟩)

theorem IsArgument.callee_mem {a : Node} (h : IsArgument a) (hn : n ∈ a.nodes)
    (hcall : n.payload = .callStatement ∨ n.payload = .callExpression) :
    Callee.ofNode n ∈ (Argument.ofNode a).callees := by
  induction h with
  | field id location name byContent | number id location text | string id location text =>
    obtain rfl := List.mem_singleton.mp hn
    simp at hcall
  | call id location hcallee husings harguments ih =>
    have hisCall := (IsArgument.call id location hcallee husings harguments).isCall rfl
    have hargs := arguments_call id .callExpression location hcallee husings
      (.absent : Under .callReturnings [] [])
    rw [List.append_nil] at hargs
    rw [Argument.ofNode_callExpression rfl, Argument.callees]
    refine hisCall.callee_mem ?_ hn hcall
    rw [hargs]
    exact fun a ha hn => ih a ha hn

theorem IsStatement.callee_mem {s : Node} (h : IsStatement s) (hdisplay : s.tag ≠ .displayStatement)
    (hn : n ∈ s.nodes) (hcall : n.payload = .callStatement ∨ n.payload = .callExpression) :
    Callee.ofNode n ∈ (Statement.ofNode s).callees := by
  cases h with
  | call id location hcallee husings harguments hreturnings htargets =>
    have hisCall :=
      (IsStatement.call id location hcallee husings harguments hreturnings htargets).isCall rfl
    exact hisCall.callee_mem (fun a ha hn => (hisCall.areArguments a ha).callee_mem hn hcall) hn
      hcall
  | display => exact absurd rfl hdisplay
  | goback =>
    obtain rfl := List.mem_singleton.mp hn
    simp at hcall

/-- A call in a lowered module was one of the module. -/
theorem CallSite.LowersModule.callee_mem {m lowered : ModuleShape}
    (h : LowersModule m.dropEnds lowered)
    {shape : ProgramShape} (hshape : shape ∈ lowered.programs) (hn : n ∈ shape.nodes)
    (hcall : n.payload = .callStatement ∨ n.payload = .callExpression) (policy : FractionPolicy) :
    ∃ program ∈ Generation.programsOf policy m, Callee.ofNode n ∈ program.callees := by
  have hprograms := h.programs
  rw [ModuleShape.dropEnds, List.forall₂_map_left_iff] at hprograms
  obtain ⟨before, hbefore, hlowers⟩ := exists_of_forall₂_right hprograms hshape
  obtain ⟨s, hs, hn⟩ := List.mem_flatMap.mp hn
  have hcallee := (shape.areStatements s hs).callee_mem (hlowers.noDisplay s hs) hn hcall
  have hlowered :
      Statement.ofNode s ∈ (before.statements.map Statement.ofNode).flatMap Statement.lowered := by
    have hmem : Statement.ofNode s ∈ shape.statements.map Statement.ofNode := List.mem_map_of_mem hs
    rwa [hlowers.statements_eq] at hmem
  obtain ⟨statement, hstatement, hmem⟩ := List.mem_flatMap.mp hlowered
  refine ⟨Program.ofNode policy before.node, List.mem_map_of_mem hbefore, ?_⟩
  rw [Program.callees, ProgramShape.node,
    before.frame.program_ofNode before.tag_ends before.areStatements policy]
  exact List.mem_flatMap.mpr ⟨statement, hstatement, Statement.callees_lowered hmem _ hcallee⟩

end trees

/-! ### What names stand for -/

namespace Globals

variable {g g' : Globals} {file file' : String} {c c' : ChunkId} {before before' : Globals}

/-- The module of a file that is opened is found under its name. -/
theorem openFile_module? (name file : String) :
    (g.openFile name file).2.module? name =
      some ((g.openFile name file).2.chunk (g.openFile name file).1).owner := by
  rw [openFile_chunk]
  change (g.addModule name).2.module? name = some (g.addModule name).1
  unfold addModule
  split
  · next id hid => exact hid
  · rw [module?, Table.get?_define, if_pos rfl]

/-- The file of a module of some name was declared. -/
structure Filed (name file : String) (c : ChunkId) (before g : Globals) :
    Prop extends Grown file c before g where
  before_consistent : before.Consistent
  module_eq : before.module? name = some (g.chunk c).owner

theorem Filed.of_grown (h : g.Consistent) {name file : String} {g' : Globals}
    (hg : Grown file (g.openFile name file).1 (g.openFile name file).2 g') :
    Filed name file (g.openFile name file).1 (g.openFile name file).2 g' where
  toGrown := hg
  before_consistent := (Grown.openFile h name file).consistent
  module_eq := by rw [openFile_module?, (hg.chunk_eq _).2]

variable {name : String}

theorem Filed.module?_eq (h : Filed name file c before g) (owner : String) :
    g.module? owner = before.module? owner := by
  rw [module?, module?, h.table_eq]

/-- The name of the module that a file belongs to. -/
theorem Filed.module_name_eq (h : Filed name file c before g) :
    (g.module (g.chunk c).owner).name = name :=
  (h.consistent.module_name name _
    (module?_eq_some_iff.mp ((h.module?_eq name).trans h.module_eq))).2

/-- A name with a module stands for a program of the file, or for what it stood for before. -/
theorem Filed.exported?_eq (h : Filed name file c before g) (owner program : String) :
    g.exported? owner program =
      if owner = name then (g.ownExport? c program).or (before.exported? owner program)
      else before.exported? owner program := by
  unfold exported?
  rw [h.module?_eq]
  by_cases howner : owner = name
  · rw [howner, h.module_eq, if_pos rfl, Option.bind_some, Option.bind_some, h.exports, if_pos rfl]
  · rw [if_neg howner]
    cases hm : before.module? owner with
    | none => rfl
    | some m =>
      -- another name is that of another module
      have hne : m ≠ (g.chunk c).owner := by
        rintro rfl
        have hname := (h.before_consistent.module_name owner _ (module?_eq_some_iff.mp hm)).2
        rw [← h.module_name, h.module_name_eq] at hname
        exact howner hname.symm
      rw [Option.bind_some, Option.bind_some, h.exports, if_neg hne]

/-- What a module exports is a program of that name, in a chunk of the module. -/
theorem Consistent.exported (h : g.Consistent) {owner program : String} {q : ProgramId}
    (hq : g.exported? owner program = some q) :
    q.index < g.programs.size ∧ (g.program q).name = program ∧
      (g.module (g.chunk (g.program q).owner).owner).name = owner := by
  obtain ⟨m, hm, hq⟩ := Option.bind_eq_some_iff.mp hq
  obtain ⟨hlt, hname, howner⟩ := h.export_name m program q (moduleProgram?_eq_some_iff.mp hq)
  rw [howner]
  exact ⟨hlt, hname, (h.module_name owner m (module?_eq_some_iff.mp hm)).2⟩

/-- Twins are exported together. -/
theorem Twin.ownExport? {o : Offsets} (h : Twin o c c' g g') (program : String) :
    Option.Rel o.Programs (g.ownExport? c program) (g'.ownExport? c' program) := by
  have hnamed := h.named program
  unfold Globals.ownExport?
  generalize g.chunkProgram? c program = found at hnamed ⊢
  generalize g'.chunkProgram? c' program = found' at hnamed ⊢
  cases hnamed with
  | none => exact .none
  | some hp =>
    rw [Option.filter_some, Option.filter_some, (h.program _ _ hp).exported_eq]
    split
    · exact .some hp
    · exact .none

theorem Twin.ownExport?_eq_none_iff {o : Offsets} (h : Twin o c c' g g') (program : String) :
    g.ownExport? c program = none ↔ g'.ownExport? c' program = none := by
  have hown := h.ownExport? program
  generalize g.ownExport? c program = found at hown ⊢
  generalize g'.ownExport? c' program = found' at hown ⊢
  cases hown <;> simp

end Globals

section twins

variable {exact : Prop} {o : Offsets} {g g' before before' : Globals} {name file file' : String}
  {c c' : ChunkId}

/-- For a caller in the file, twins are the same. -/
theorem callable_own (h : Globals.Twin o c c' g g') (hg : Globals.Filed name file c before g)
    (hg' : Globals.Filed name file' c' before' g') (hfile : exact → file = file')
    {program : String} {q q' : ProgramId}
    (hq : g.chunkProgram? c program = some q) (hq' : g'.chunkProgram? c' program = some q') :
    Callable exact o g g' q q' := by
  have hnamed := h.named program
  rw [hq, hq', Option.rel_some_some] at hnamed
  have hprogram := h.program q q' hnamed
  have hsame : ∀ f f', o.Fields f f' → SameParameter exact g g' f f' := fun f f' hf =>
    ⟨by rw [h.field_eq f f' hf], fun _ => by rw [h.field_eq f f' hf]⟩
  obtain ⟨-, -, howner⟩ := hg.own program q hq
  obtain ⟨-, -, howner'⟩ := hg'.own program q' hq'
  constructor
  case usings => exact hprogram.usings.imp hsame
  case returnings => exact fun _ => hprogram.returnings.imp hsame
  case name_eq => exact hprogram.name_eq
  case module_eq => rw [howner, howner', hg.module_name_eq, hg'.module_name_eq]
  case home_eq => exact fun hexact => by rw [howner, howner', hg.file_eq, hg'.file_eq, hfile hexact]
  case known => exact .inl hnamed

/-- What a name with a module stands for in two scopes: programs that are the same for a caller, or
programs that were there before. -/
theorem exported_cases (h : Globals.Twin o c c' g g') (hg : Globals.Filed name file c before g)
    (hg' : Globals.Filed name file' c' before' g') (hfile : exact → file = file')
    {owner program : String} {q q' : ProgramId} (hq : g.exported? owner program = some q)
    (hq' : g'.exported? owner program = some q') :
    Callable exact o g g' q q' ∨ (owner = name → g.ownExport? c program = none) ∧
      before.exported? owner program = some q ∧ before'.exported? owner program = some q' := by
  rw [hg.exported?_eq] at hq
  rw [hg'.exported?_eq] at hq'
  by_cases howner : owner = name
  · rw [if_pos howner] at hq hq'
    -- exports of the file itself are there on both sides or on neither
    have hown := h.ownExport? program
    cases hp : g.ownExport? c program with
    | none =>
      cases hp' : g'.ownExport? c' program with
      | none =>
        rw [hp, Option.none_or] at hq
        rw [hp', Option.none_or] at hq'
        exact .inr ⟨fun _ => rfl, hq, hq'⟩
      | some p' =>
        rw [hp, hp'] at hown
        cases hown
    | some p =>
      cases hp' : g'.ownExport? c' program with
      | none =>
        rw [hp, hp'] at hown
        cases hown
      | some p' =>
        rw [hp, Option.some_or] at hq
        rw [hp', Option.some_or] at hq'
        obtain rfl := Option.some.inj hq
        obtain rfl := Option.some.inj hq'
        exact .inl (callable_own h hg hg' hfile (Option.filter_eq_some_iff.mp hp).1
          (Option.filter_eq_some_iff.mp hp').1)
  · rw [if_neg howner] at hq hq'
    exact .inr ⟨fun heq => absurd heq howner, hq, hq'⟩

end twins

/-! ### The core passes -/

section passes

variable {exact : Prop} {m : ModuleShape} {run run' : Run} {declared declared' : Node} {t t' : Run}

/-- After declaring, the core passes leave the scope as it is. -/
theorem globals_core (root : Node) (run : Run) :
    (stateOf (runAll Pass.core root run)).globals =
      (stateOf (runAll (Pass.core.take 3) root run)).globals := by
  rw [runAll_core, bind_apply]
  cases runAll (Pass.core.take 3) root run with
  | error e t => rfl
  | ok declared t => exact Session.globals_rest declared t

/-- The scope after a file was declared. -/
theorem filed_declaring (hrun : run.globals.Consistent)
    (h : runAll (Pass.core.take 3) m.node run = .ok declared t) :
    Globals.Filed m.node.name run.file (run.globals.openFile m.node.name run.file).1
      (run.globals.openFile m.node.name run.file).2 t.globals :=
  .of_grown hrun ((grown_declaring m hrun).of_ok h)

/-- The core passes make the same of a module in two runs, if the names with a module that are
called in it stand for programs which are the same for a caller. -/
theorem alike_core (hbegin : Run.Begin exact m.node.name run run')
    (hnumbered : Declaration.Numbered m run)
    (hnumbered' : Declaration.Numbered m run') (policy : FractionPolicy)
    (hexports : ∀ declared t declared' t', runAll (Pass.core.take 3) m.node run = .ok declared t →
      runAll (Pass.core.take 3) m.node run' = .ok declared' t' →
      ∀ program ∈ Generation.programsOf policy m, ∀ callee ∈ program.callees,
      ∀ owner, callee.module? = some owner → ExportsAlike exact (Callable exact (Declaration.offsets
        run.globals run'.globals) t.globals t'.globals) t.globals t'.globals owner callee.program) :
    Alike exact (runAll Pass.core m.node)
      (runAll Pass.core m.node) run run'
      fun _ t _ t' => t.product? = t'.product? := by
  have hself : ∀ run, Ensures (runAll (Pass.core.take 3) m.node) run
      (fun declared t => runAll (Pass.core.take 3) m.node run = .ok declared t)
      (fun _ _ => True) := fun run => ensures_iff.mpr ⟨fun _ _ heq => heq, fun _ _ _ => trivial⟩
  rw [runAll_core]
  apply alike_bind
  refine (((Declaration.alike_declaring m hbegin).with (Declaration.ensures_declaring hnumbered)
    (Declaration.ensures_declaring hnumbered')).with (hself run) (hself run')).mono ?_
  rintro declared t declared' t' ⟨⟨⟨rfl, rfl, htwin⟩, hafter, -⟩, ht, ht'⟩
  refine Generation.alike_compiling htwin hafter.unique hafter.free ?_
  intro lowered hlowers shape hshape n hn hcall
  obtain ⟨program, hprogram, hcallee⟩ := hlowers.callee_mem hshape hn hcall policy
  constructor
  · intro name q q' hq hq'
    exact callable_own htwin.globals (filed_declaring hbegin.consistent ht)
      (filed_declaring hbegin.consistent' ht') hbegin.file_eq hq hq'
  · intro owner location hmodule
    exact hexports _ t _ t' ht ht' program hprogram _ hcallee owner
      (by simp [Callee.ofNode, hmodule])

end passes

end CobolCompiler
