import CobolCompiler.Proofs.Prototypes

/-!
# What a compilation yields

The guarantees of the single passes are put together. A grammatical module that goes through the
core passes becomes a module of code that is the translation of its syntax (`ensures_core`);
otherwise the compilation fails with a message, and once calls were checked only for one of a few
reasons (`GenerationStop`).

The interfaces of called programs are taken from two places (`interfaceIn`): those of the file's own
programs from their syntax, those of other modules from the scope.
-/

namespace CobolCompiler

open Machine Translation Syntax

/-- The program that a module exports under a name. -/
def Globals.exported? (g : Globals) (owner program : String) : Option ProgramId :=
  (g.module? owner).bind fun m => g.moduleProgram? m program

/-- The interface of a program that the scope knows. -/
def Globals.interfaceOf (g : Globals) (q : ProgramId) : Interface :=
  ⟨(g.program q).usings.toList.map fun f => (g.field f).usage, (g.program q).returnings.size⟩

/-- What callers in a file know about the program that a name stands for. -/
def interfaceIn (g : Globals) (programs : List Program) : Callee → Interface
  | ⟨none, name⟩ =>
    match programs.find? (·.name = name) with
    | some program => ⟨program.usages, program.returnings.length⟩
    | none => ⟨[], 0⟩
  | ⟨some owner, name⟩ =>
    match g.exported? owner name with
    | some q => g.interfaceOf q
    | none => ⟨[], 0⟩

namespace Generation

variable {g : Generator} {env : Env} {chunk : ChunkId} {names : List String}
  {interface : Callee → Interface}
  {name : String} {prototypes : Std.TreeMap ProgramId UInt16} {done : Array Prototype}
variable {before : ModuleShape} {globals : Globals} {m : ModuleShape} {nodes : List Node}
  {policy : FractionPolicy}
  {programs : List Program} {ps : List ProgramId} {root : Node} {run : Run}

/-! ### Modules -/

/-- Some programs have the numbers of their places in a list. -/
def Indexes (ps known : List ProgramId) (prototypes : Std.TreeMap ProgramId UInt16) : Prop :=
  ∀ q ∈ known, ∃ i, prototypes[q]? = some i ∧ ps[i.toNat]? = some q

/-- Every program of a file gets the number of its prototype. -/
theorem ensures_indexPrograms (h : Between name #[] ∅ g) :
    Ensures (indexPrograms ps) g
      (fun _ g' => ∃ prototypes, Between name #[] prototypes g' ∧ Indexes ps ps prototypes)
      (fun e _ => e.IsLimit) := by
  have hall : ps = ps.zipIdx.map Prod.fst := (List.zipIdx_map_fst 0 _).symm
  have hloop : Ensures (indexPrograms ps) g
      (fun _ g' => ∃ prototypes, Between name #[] prototypes g' ∧
        Indexes ps (ps.zipIdx.map Prod.fst) prototypes) (fun e _ => e.IsLimit) := by
    unfold indexPrograms
    apply ensures_forM fun done g' => ∃ prototypes, Between name #[] prototypes g' ∧
      Indexes ps (done.map Prod.fst) prototypes
    · exact ⟨∅, h, nofun⟩
    · intro done item rest g' hsplit hg'
      obtain ⟨prototypes, hbetween, hindexed⟩ := hg'
      obtain ⟨q, index⟩ := item
      have hget : ps[index]? = some q := by
        have hmem : (q, index) ∈ ps.zipIdx := by rw [hsplit]; simp
        exact List.mk_mem_zipIdx_iff_getElem?.mp hmem
      by_cases hroom : index < Assembler.room
      · simp only [hroom, if_true, ensures_modify]
        have hprograms : g'.prototypes.insert q (UInt16.ofNat index) =
            prototypes.insert q (UInt16.ofNat index) := by
          rw [hbetween.programs_eq]
        refine ⟨prototypes.insert q (UInt16.ofNat index),
          { hbetween with programs_eq := hprograms }, ?_⟩
        -- the number of a program stays when others are numbered after it
        intro q' hq'
        rw [Std.TreeMap.getElem?_insert]
        by_cases heq : q = q'
        · subst heq
          exact ⟨UInt16.ofNat index, by simp, by rw [UInt16.toNat_ofNat_of_lt' hroom, hget]⟩
        · rw [if_neg (by simpa using heq)]
          apply hindexed q'
          rw [List.map_append, List.mem_append, List.map_singleton, List.mem_singleton] at hq'
          rcases hq' with hq' | rfl
          · exact hq'
          · exact absurd rfl heq
      · simp only [hroom, if_false, ensures_throw]
        exact ⟨.tooManyPrototypes, by decide, rfl⟩
  rwa [← hall] at hloop

/-- Whatever was generated before is forgotten when a module begins. -/
theorem ensures_beginModule (n : Node) (hchunk : env.chunk? = some chunk) :
    Ensures (beginModule env n) g
      (fun _ g' => ∃ prototypes, Between n.name #[] prototypes g' ∧
        Indexes (env.globals.chunk chunk).programs.toList (env.globals.chunk chunk).programs.toList
          prototypes)
      (fun e _ => e.IsLimit) := by
  have hbegun : Between n.name #[] ∅ { g with
      assembler := ⟨Module.empty n.name, none⟩, pool := ∅, prototypes := ∅, started := true } := by
    refine ⟨rfl, rfl, fun v i hv => ?_, ?_, rfl, rfl⟩
    · simp at hv
    · change 0 ≤ Assembler.room
      omega
  unfold beginModule
  simp only [ensures_bind, ensures_assemble, ensures_modify, hchunk, ensures_require_some]
  exact ensures_indexPrograms hbegun

/-- Walking the programs of a file adds their prototypes in order. -/
theorem ensures_walk_programs (hfile : FileContext env chunk names interface prototypes)
    {shapes : List ProgramShape}
    (hprograms : List.Forall₂ (fun shape program => ∃ p, ProgramAt env chunk shape p program)
      shapes programs)
    (hnodes : ∀ shape ∈ shapes, ∀ n ∈ shape.nodes, n ∈ nodes) (h : Between name done prototypes g)
    (hnext : ∀ i shape p, shapes[i]? = some shape → env.bindings.programs[shape.frame.id]? =
      some p → prototypes[p]?.map (·.toNat) = some (done.size + i)) :
    Ensures (shapes.forM fun shape => (visitor env).walk shape.reversed.node) g
      (fun _ g' => ∃ added, Between name (done ++ added.toArray) prototypes g' ∧
        g.tables.Le g'.tables ∧
        List.Forall₂ (CompiledProgram g'.tables names interface) programs added)
      (fun e _ => EmissionStop env.file nodes e) := by
  induction hprograms generalizing g done with
  | nil =>
    refine ⟨[], ?_, .refl _, .nil⟩
    simpa using h
  | @cons shape program shapes programs hprogram _ ih =>
    obtain ⟨p, hat⟩ := hprogram
    change Ensures ((visitor env).walk shape.reversed.node >>= fun _ => shapes.forM _) g _ _
    rw [ensures_bind]
    apply (ensures_walk_program hfile hat h (hnext 0 shape p rfl hat.bound)).mono _
      fun _ _ hstop => hstop.mono (hnodes shape List.mem_cons_self)
    intro _ g' hg'
    obtain ⟨prototype, hbetween, hle, hcompiled⟩ := hg'
    -- one more prototype is done, and there is one program less to come
    have hrest : ∀ i shape p, shapes[i]? = some shape → env.bindings.programs[shape.frame.id]? =
        some p → prototypes[p]?.map (·.toNat) = some ((done.push prototype).size + i) := by
      intro i other q hother hq
      rw [Array.size_push, Nat.add_right_comm, Nat.add_assoc]
      exact hnext (i + 1) other q hother hq
    apply (ih (fun other hother =>
      hnodes other (List.mem_cons_of_mem shape hother)) hbetween hrest).imp
    intro _ g'' hg''
    obtain ⟨added, hbetween', hle', hcompiled'⟩ := hg''
    refine ⟨prototype :: added, ?_, hle.trans hle', .cons (hcompiled.mono hle') hcompiled'⟩
    simpa using hbetween'

/-! ### Files -/

/-- What generation reads of a run. -/
def envOf (run : Run) : Env :=
  { CallSite.Env.ofRun run with bindings := run.bindings }

/-- A file in which all calls are right, with the programs it has. -/
structure CheckedFile (programs : List Program) (m : ModuleShape) (run : Run)
    (chunk : ChunkId) : Prop where
  chunk?_eq : run.chunk? = some chunk
  chunk_last : chunk.index + 1 = run.globals.chunks.size
  consistent : run.globals.Consistent
  distinct : (programs.map (·.name)).Nodup
  /-- The programs of the chunk, in order. -/
  numbers : List.Forall₂ (fun q program => Describes run.globals q program ∧
    (run.globals.program q).name = program.name) (run.globals.chunk chunk).programs.toList programs
  /-- The programs of the tree, in order. -/
  shapes : List.Forall₂ (fun shape program => ∃ p, ProgramAt (envOf run) chunk shape p program)
    m.programs programs
  /-- The programs of the chunk are those that the programs of the tree are bound to. -/
  bound : List.Forall₂ (fun q (shape : ProgramShape) =>
    run.bindings.programs[shape.frame.id]? = some q ∧ Declaration.header (run.globals.program q) =
    (shape.frame.nameText, chunk, !shape.frame.exports.isEmpty))
    (run.globals.chunk chunk).programs.toList m.programs

/-- Programs that are described by their syntax have the names of the syntax. -/
theorem map_name_of_forall₂ (h : List.Forall₂ (fun q program => Describes globals q program ∧
      (globals.program q).name = program.name) ps programs) :
    ps.map (fun q => (globals.program q).name) = programs.map (·.name) := by
  induction h with
  | nil => rfl
  | cons hprogram _ ih => rw [List.map_cons, List.map_cons, ih, hprogram.2]

/-- A module of the scope, and what it exports. -/
theorem Globals.exported?_of_entries {g : Globals} {owner program : String}
    {m : ModuleId} {q : ProgramId} (howner : g.table.get? owner = some (.module m))
    (hprogram : (g.module m).table.get? program = some (.program q)) :
    g.exported? owner program = some q := by
  rw [Globals.exported?, Globals.module?_eq_some_iff.mpr howner]
  exact Globals.moduleProgram?_eq_some_iff.mpr hprogram

namespace CheckedFile

variable {programs : List Program} {m : ModuleShape} {run : Run}
  (h : CheckedFile programs m run chunk)

include h

theorem interfaceIn_own {program : Program} (hmem : program ∈ programs) :
    interfaceIn run.globals programs ⟨none, program.name⟩ =
      ⟨program.usages, program.returnings.length⟩ := by
  rw [interfaceIn, find?_of_nodup h.distinct hmem]

/-- The interface of a program is what the scope knows about it. -/
theorem interfaceIn_eq {callee : Callee} {q : ProgramId}
    (hnames : Names run.globals chunk callee q) :
    interfaceIn run.globals programs callee = run.globals.interfaceOf q := by
  cases hnames with
  | own hmem hname =>
    obtain ⟨program, hprogram, hdescribes, hsame⟩ := exists_of_forall₂_left h.numbers hmem
    rw [← hname, hsame, h.interfaceIn_own hprogram, Globals.interfaceOf, hdescribes.usages_eq,
      ← hdescribes.returnings_eq, List.length_map, Array.length_toList]
  | exported howner hprogram => rw [interfaceIn, Globals.exported?_of_entries howner hprogram]

theorem fileContext {prototypes : Std.TreeMap ProgramId UInt16}
    (hindexes : Indexes (run.globals.chunk chunk).programs.toList
      (run.globals.chunk chunk).programs.toList prototypes) :
    FileContext (envOf run) chunk (programs.map (·.name)) (interfaceIn run.globals programs)
      prototypes where
  consistent := h.consistent
  prototypes := by
    intro q hq
    obtain ⟨i, hi, hget⟩ := hindexes q hq
    refine ⟨i, hi, ?_⟩
    rw [← map_name_of_forall₂ h.numbers, List.getElem?_map, hget]
    rfl
  interface := fun callee q hnames => h.interfaceIn_eq hnames

/-- The programs of the tree are numbered in their order. -/
theorem number_eq {prototypes : Std.TreeMap ProgramId UInt16}
    (hindexes : Indexes (run.globals.chunk chunk).programs.toList
      (run.globals.chunk chunk).programs.toList prototypes)
    {i : Nat} {shape : ProgramShape} {p : ProgramId} (hshape : m.programs[i]? = some shape)
    (hp : run.bindings.programs[shape.frame.id]? = some p) :
    prototypes[p]?.map (·.toNat) = some i := by
  have hnodup : (run.globals.chunk chunk).programs.toList.Nodup := by
    apply List.Nodup.of_map
    rw [map_name_of_forall₂ h.numbers]
    exact h.distinct
  obtain ⟨hi, hget⟩ := List.getElem?_eq_some_iff.mp hshape
  obtain ⟨hlength, hbound⟩ := List.forall₂_iff_get.mp h.bound
  have hlt : i < (run.globals.chunk chunk).programs.toList.length := hlength ▸ hi
  have hq := (hbound i hlt hi).1
  rw [List.get_eq_getElem, hget, hp] at hq
  have hat : (run.globals.chunk chunk).programs.toList[i]? = some p :=
    (List.getElem?_eq_getElem hlt).trans hq.symm
  -- no program has two numbers
  obtain ⟨j, hj, hknown⟩ := hindexes p (List.mem_of_getElem? hat)
  rw [hj, Option.map_some, (List.getElem?_inj hlt hnodup).mp (hat.trans hknown.symm)]

end CheckedFile

/-! ### Generation -/

/-- Why generation stops: emission does, or the output file cannot be written. -/
inductive GenerationStop (file : String) (output? : Option String) (nodes : List Node) : Stop → Prop
  | emission {e : Stop} (h : EmissionStop file nodes e) : GenerationStop file output? nodes e
  | output {path : String} (error : FileError) (h : output? = some path) :
      GenerationStop file output? nodes (.failed (.file path error))

theorem GenerationStop.isFailure {file : String} {output? : Option String} {e : Stop}
    (h : GenerationStop file output? nodes e) : e.IsFailure := by
  cases h with
  | emission h =>
    cases h with
    | limit h =>
      obtain ⟨error, -, rfl⟩ := h
      exact isFailure_failed _
    | literal => exact isFailure_fault ..
  | output error h => exact isFailure_failed _

theorem GenerationStop.mono {file : String} {output? : Option String} {nodes nodes' : List Node}
    {e : Stop} (h : GenerationStop file output? nodes e) (hsub : ∀ n ∈ nodes, n ∈ nodes') :
    GenerationStop file output? nodes' e := by
  cases h with
  | emission h => exact .emission (h.mono hsub)
  | output error h => exact .output error h

theorem walkAll_reversed_module (env : Env) (m : ModuleShape) :
    (visitor env).walkAll m.reversed.node.children =
      m.programs.forM fun shape => (visitor env).walk shape.reversed.node := by
  have hname : (visitor env).InertOn [.identifier] := by
    intro n hn
    have hsub : [Tag.identifier] ⊆ headingTags := by decide
    exact visitor_headings _ n (hsub hn)
  rw [Visitor.walkAll_module m.reversed hname]
  exact List.forM_map

/-- The walk of a module: it is begun, and its programs are walked. -/
theorem visit_reversed (env : Env) (m : ModuleShape) :
    (visitor env).visit m.reversed.node = (do
      beginModule env m.reversed.node
      m.programs.forM fun shape => (visitor env).walk shape.reversed.node) := by
  have hleave : (visitor env).leave m.reversed.node = pure () := rfl
  rw [Visitor.visit, Visitor.walk_of_leave hleave, walkAll_reversed_module]
  exact bind_pure_unit

/-- Walking a checked module generates the code of its programs. -/
theorem ensures_visit (h : CheckedFile programs m run chunk) :
    Ensures ((visitor (envOf run)).visit m.reversed.node) g
      (fun _ g' => g'.started = true ∧
        CompiledModule (interfaceIn run.globals programs) programs g'.assembler.built)
      (fun e _ => EmissionStop run.file (m.programs.flatMap ProgramShape.nodes) e) := by
  have hnodes : ∀ shape ∈ m.programs, ∀ n ∈ shape.nodes,
      n ∈ m.programs.flatMap ProgramShape.nodes :=
    fun shape hshape n hn => List.mem_flatMap.mpr ⟨shape, hshape, hn⟩
  have hchunk : (envOf run).chunk? = some chunk := h.chunk?_eq
  have hbegin := ensures_beginModule (g := g) m.reversed.node hchunk
  rw [visit_reversed]
  apply (ensures_of_limit hbegin run.file (m.programs.flatMap ProgramShape.nodes)).bind
  intro _ g₁ hg₁
  obtain ⟨prototypes, hbetween, hindexes⟩ := hg₁
  have hnext : ∀ i shape p, m.programs[i]? = some shape → run.bindings.programs[shape.frame.id]? =
      some p → prototypes[p]?.map (·.toNat) = some ((#[] : Array Prototype).size + i) := by
    intro i shape p hshape hp
    rw [h.number_eq hindexes hshape hp, Array.size_empty, Nat.zero_add]
  apply (ensures_walk_programs (h.fileContext hindexes) h.shapes hnodes hbetween hnext).imp
  intro _ g₂ hg₂
  obtain ⟨added, hbetween', -, hcompiled⟩ := hg₂
  have hprototypes : g₂.assembler.built.prototypes.toList = added := by
    rw [hbetween'.prototypes_eq]
    simp
  refine ⟨hbetween'.started, h.distinct, fun program hmem => h.interfaceIn_own hmem, ?_⟩
  rw [hprototypes]
  exact hcompiled

/-- Handing over the module of a run: it is written to the output file if there is one, and becomes
the product. -/
theorem ensures_finish (hstarted : run.memory.generator.started = true) :
    Ensures finish run
      (fun _ run' => run'.product? = some run.memory.generator.assembler.built ∧
        run'.globals = run.globals)
      (fun e _ => GenerationStop run.file run.output? nodes e) := by
  unfold finish onGenerator writeOutput
  simp only [ensures_bind, ensures_get, hstarted, if_true, ensures_onPart, ensures_modify]
  split
  · next path hpath =>
    split
    · next files _ => exact ⟨rfl, rfl⟩
    · next error _ => exact .output error hpath
  · exact ⟨rfl, rfl⟩

/-- Generating code for a checked file yields what the walk assembles, or stops for one of a few
reasons. -/
theorem ensures_generate (h : CheckedFile programs m run chunk) :
    Ensures (generate m.reversed.node) run
      (fun _ run' => run'.globals = run.globals ∧ ∃ g,
        (visitor (envOf run)).visit m.reversed.node run.memory.generator = .ok () g ∧
          run'.product? = some g.assembler.built)
      (fun e _ =>
        GenerationStop run.file run.output? (m.programs.flatMap ProgramShape.nodes) e) := by
  unfold generate Pass.ofWalk
  simp only [ensures_bind, ensures_get, onGenerator, ensures_onPart, ensures_pure]
  rw [ensures_iff]
  constructor
  · intro _ g hg
    apply (ensures_finish ((ensures_visit h).of_ok hg).1).imp
    intro _ run' hrun'
    exact ⟨hrun'.2, g, hg, hrun'.1⟩
  · intro e g hg
    exact .emission ((ensures_visit h).of_error hg)

/-! ### All passes -/

/-- The programs of a module, as they were before the passes rewrote it. -/
def programsOf (policy : FractionPolicy) (m : ModuleShape) : List Program :=
  m.programs.map fun shape => Program.ofNode policy shape.node

/-- The syntax of a program whose parts are known. -/
theorem describes_shape {p : ProgramId} {shape : ProgramShape}
    (h : Declaration.Declared policy globals chunk p shape.frame) :
    Describes globals p (Program.ofNode policy shape.node) := by
  have hprogram := shape.frame.program_ofNode shape.tag_ends shape.areStatements policy
  rw [ProgramShape.node, hprogram]
  exact describes_of_declared h rfl rfl rfl rfl

/-- The names of the programs of a declared file are distinct. -/
theorem nodup_names {b : Bindings} {frames : List ProgramFrame}
    (h : Declaration.DeclaredModule policy globals b chunk ps frames) :
    (ps.map fun q => (globals.program q).name).Nodup := by
  apply h.nodup.map_on
  intro q hq q' hq' hname
  have hfound := (h.chunkProgram?_iff _ q).mpr ⟨hq, hname⟩
  exact Option.some.inj (hfound.symm.trans ((h.chunkProgram?_iff _ q').mpr ⟨hq', rfl⟩))

/-- Once the call passes have succeeded, everything about a file is known that generation needs. -/
theorem checkedFile {before m : ModuleShape} {run run' : Run}
    (h : CallSite.LoweredFile before.dropEnds m run chunk ps)
    (hafter : CallSite.AfterCalls chunk m run root run') :
    CheckedFile (programsOf run.options.policy before) m run' chunk := by
  obtain ⟨calling?, hrun'⟩ := hafter.run_eq
  have hglobals : run'.globals = run.globals := by rw [hrun']
  have hmodule := h.declared.module
  -- neither dropping end markers nor lowering touches the frames
  have hframes : m.programs.map (·.frame) = before.programs.map (·.frame) := by
    rw [CallSite.LowersModule.frames_eq h.lowers, before.frames_dropEnds]
  have hnumbers : List.Forall₂ (fun q (shape : ProgramShape) =>
      Declaration.Declared run.options.policy run.globals chunk q shape.frame) ps
        before.programs := by
    rw [← List.forall₂_map_right_iff (f := ProgramShape.frame), ← hframes]
    exact hmodule.declared
  have hlowers : List.Forall₂ (fun (shape : ProgramShape) (shape₀ : ProgramShape) =>
      shape ∈ m.programs ∧ CallSite.LowersProgram shape₀.dropEnds shape) m.programs
        before.programs := by
    have hprograms := h.lowers.programs
    rw [ModuleShape.dropEnds, List.forall₂_map_left_iff] at hprograms
    exact (List.forall₂_and_left _ _).mpr ⟨fun _ hshape => hshape, hprograms.flip⟩
  have hdescribed : List.Forall₂ (fun q program => Describes run'.globals q program ∧
      (run'.globals.program q).name = program.name) (run'.globals.chunk chunk).programs.toList
      (programsOf run.options.policy before) := by
    rw [hglobals, hmodule.programs_eq, programsOf, List.forall₂_map_right_iff]
    exact hnumbers.imp fun q shape hdeclared =>
      ⟨describes_shape hdeclared, hdeclared.name_eq.trans (ProgramFrame.name_node shape.frame).symm⟩
  have hbound : List.Forall₂ (fun q (shape : ProgramShape) =>
      run'.bindings.programs[shape.frame.id]? = some q ∧ Declaration.header
      (run'.globals.program q) = (shape.frame.nameText, chunk, !shape.frame.exports.isEmpty))
      (run'.globals.chunk chunk).programs.toList m.programs := by
    -- declared and bound are known separately, for the same programs in the same order
    obtain ⟨hlength, hdeclared⟩ :=
      List.forall₂_iff_zip.mp (List.forall₂_map_right_iff.mp hmodule.declared)
    obtain ⟨-, hnumbered⟩ := List.forall₂_iff_zip.mp (List.forall₂_map_right_iff.mp hmodule.bound)
    rw [hglobals, hafter.programs_eq, hmodule.programs_eq]
    exact List.forall₂_iff_zip.mpr
      ⟨hlength, fun hmem => ⟨hnumbered hmem, (hdeclared hmem).header_eq⟩⟩
  refine ⟨?_, ?_, ?_, ?_, hdescribed, ?_, hbound⟩
  · rw [hrun']
    exact h.declared.chunk?_eq
  · rw [hglobals]
    exact h.sound.chunk_last chunk h.declared.chunk?_eq
  · rw [hglobals]
    exact h.sound.consistent
  · rw [← map_name_of_forall₂ hdescribed, hglobals, hmodule.programs_eq]
    exact nodup_names hmodule
  · rw [programsOf, List.forall₂_map_right_iff]
    apply hlowers.imp
    intro shape shape₀ hshape
    obtain ⟨hmem, hlowered⟩ := hshape
    obtain ⟨p, -, hdeclared, hbound⟩ := hmodule.exists_program (List.mem_map_of_mem hmem)
    have hframe : shape.frame = shape₀.frame := hlowered.frame_eq
    refine ⟨p, ?_, ?_, ?_, hlowered.noDisplay, ?_⟩
    · rw [hframe] at hdeclared
      change Describes run'.globals p _
      rw [hglobals]
      exact describes_shape hdeclared
    · change run'.bindings.programs[shape.frame.id]? = some p
      rw [hafter.programs_eq]
      exact hbound
    · rw [hlowered.statements_eq, ProgramShape.node,
        shape₀.frame.program_ofNode shape₀.tag_ends shape₀.areStatements run.options.policy]
      rfl
    · intro n hn
      change CallSite.Ready run'.globals chunk p run'.bindings n
      rw [hglobals]
      exact hafter.ready shape hmem p hbound n hn

/-- What the passes up to checking have reached: a file whose calls are all right, with the programs
of the tree that was parsed. -/
structure AfterChecking (before : ModuleShape) (start : Run) (root : Node) (run : Run) : Prop where
  settings_eq : Declaration.settings run = Declaration.settings start
  checked : ∃ m chunk, root = m.node ∧
    CheckedFile (programsOf start.options.policy before) m run chunk ∧
    m.programs.map (·.frame) = before.programs.map (·.frame)

variable {start : Run}

/-- The passes from lowering to checking make a declared file a checked one. -/
theorem ensures_checking {run : Run} (h : Declaration.AfterDeclaring before start root run) :
    Ensures (runAll ((Pass.core.drop 3).take 4) root) run
      (AfterChecking before start) (fun e _ => e.IsFailure) := by
  rw [CallSite.runAll_callPasses, ensures_bind]
  apply (CallSite.ensures_lowering h).mono _ fun _ _ he => he.elim
  intro _ run₁ hrun₁
  obtain ⟨m, chunk, ps, rfl, hfile, hsame⟩ := hrun₁
  apply (CallSite.ensures_callPasses hfile.lowered).mono _ fun _ _ he => he.1
  intro _ run₂ hafter
  obtain ⟨calling?, hrun₂⟩ := hafter.run_eq
  have hsettings : Declaration.settings run₁ = Declaration.settings start := by
    rw [hsame, ← h.settings_eq]
    rfl
  have hpolicy : run₁.options.policy = start.options.policy :=
    congrArg (fun settings => settings.2.2.policy) hsettings
  refine ⟨?_, m, chunk, hafter.root_eq, ?_, ?_⟩
  · rw [← hsettings, hrun₂]
    rfl
  · rw [← hpolicy]
    exact checkedFile hfile hafter
  · rw [CallSite.LowersModule.frames_eq hfile.lowers, before.frames_dropEnds]

/-- A module is what the walk assembles of a checked file, the programs of which are those of a tree
and have the headings that the tree gives them. -/
def Generated (policy : FractionPolicy) (before : ModuleShape) (globals : Globals)
    (product : Module) : Prop :=
  ∃ m run chunk g, CheckedFile (programsOf policy before) m run chunk ∧ run.globals = globals ∧
    m.programs.map (·.frame) = before.programs.map (·.frame) ∧
    (visitor (envOf run)).visit m.reversed.node run.memory.generator = .ok () g ∧
    g.assembler.built = product

/-- What is generated is the translation of the programs of the tree. -/
theorem Generated.compiled {product : Module} (h : Generated policy before globals product) :
    CompiledModule (interfaceIn globals (programsOf policy before)) (programsOf policy before)
      product := by
  obtain ⟨m, run, chunk, g, hfile, rfl, -, hvisit, rfl⟩ := h
  exact ((ensures_visit hfile).of_ok hvisit).2

/-- The last passes turn a checked file into code, or stop for one of a few reasons. -/
theorem ensures_generating {run : Run} (h : AfterChecking before start root run) :
    Ensures (runAll (Pass.core.drop 7) root) run
      (fun _ run' => ∃ product, run'.product? = some product ∧
        Generated start.options.policy before run'.globals product)
      (fun e _ => GenerationStop start.file start.output? root.nodes e) := by
  have hpasses : runAll (Pass.core.drop 7) root =
      (reverseArguments root >>= generate) := by
    change (pure root >>= fun root => reverseArguments root >>= fun root =>
      generate root >>= pure) = _
    simp only [pure_bind, bind_pure]
  obtain ⟨m, chunk, rfl, hfile, hframes⟩ := h.checked
  have hsettings := Prod.ext_iff.mp h.settings_eq
  have hfileName : run.file = start.file := hsettings.1
  have houtput : run.output? = start.output? := (Prod.ext_iff.mp hsettings.2).1
  rw [hpasses, ensures_bind]
  -- reversing cannot fail, and leaves the run as it is
  apply (ensures_reverseArguments m run).mono _ fun _ _ he => he.elim
  intro _ _ hreversed
  obtain ⟨rfl, rfl⟩ := hreversed
  apply (ensures_generate hfile).mono
  · intro _ run' hrun'
    obtain ⟨hglobals, g, hvisit, hproduct⟩ := hrun'
    exact ⟨_, hproduct, m, _, chunk, g, hfile, hglobals.symm, hframes, hvisit, rfl⟩
  · intro e _ hstop
    rw [hfileName, houtput] at hstop
    apply hstop.mono
    intro n hn
    obtain ⟨shape, hshape, hn⟩ := List.mem_flatMap.mp hn
    exact CallSite.mem_module hshape hn

/-- The core passes make code of a module, or fail with a message, unless a picture is too large. -/
theorem ensures_core (h : Declaration.Numbered m start) :
    Ensures (runAll Pass.core m.node) start
      (fun _ run => ∃ product, run.product? = some product ∧
        Generated start.options.policy m run.globals product)
      (fun e _ => e.IsFailure ∨ Declaration.Oversized m.node) := by
  have hsplit : Pass.core = Pass.core.take 3 ++ ((Pass.core.drop 3).take 4 ++ Pass.core.drop 7) :=
    rfl
  rw [hsplit, runAll_append]
  apply (Declaration.ensures_declaring h).bind
  intro root run hdeclared
  rw [runAll_append, ensures_bind]
  apply (ensures_checking hdeclared).mono _ fun _ _ he => Or.inl he
  intro root' run' hchecked
  exact (ensures_generating hchecked).mono (fun _ _ hok => hok) fun _ _ hstop =>
    Or.inl hstop.isFailure

/-- The programs of a tree do not depend on the numbers of its nodes. -/
theorem programsOf_eq (h : (root.renumber 0).1 = m.node) (policy : FractionPolicy) :
    programsOf policy m = modulePrograms policy root := by
  rw [← modulePrograms_renumber policy root 0, h, modulePrograms, m.programNodes_node, List.map_map]
  rfl

end Generation

end CobolCompiler
