import CobolCompiler.Proofs.ConstantPool
import CobolCompiler.Proofs.PendingModule
import CobolCompiler.Proofs.Safety

/-!
# Which constants a module has

The constants of a compiled module can be read off its tree: the initial values of the linkage
fields of its programs, and the literals among the arguments of its calls, as the parameters take
them. Each stands in the module once, in the order of first use, and whenever code generation asked
for one of them it was given its index (`Session.compiled_constants_pooled`). Values of
working-storage fields are no constants, and nothing is left over from other compilations.

Arguments are pushed from the last to the first, so this is also the order in which their literals
are used.
-/

namespace CobolCompiler

open Machine Translation Syntax

/-! ### Constants of syntax -/

namespace Syntax

namespace Argument

variable (interface : Callee → Interface)

mutual

/-- The constants that an argument uses, if its parameter has some usage. -/
def constants : Argument → Usage → List Value
  | .field _ _, _ => []
  | .number text, usage => (Generation.literalValue (some usage) text).toOption.toList
  | .string text, _ => [.display text]
  | .call callee arguments, _ => constantsOf arguments (interface callee).usages

/-- The constants that arguments use, if their parameters have some usages: those of the last
argument come first. -/
def constantsOf : List Argument → List Usage → List Value
  | argument :: rest, usage :: usages => constantsOf rest usages ++ constants argument usage
  | _, _ => []

end

theorem constantsOf_eq (arguments : List Argument) (usages : List Usage) :
    constantsOf interface arguments usages =
      (usages.zip arguments).reverse.flatMap fun item => item.2.constants interface item.1 := by
  induction arguments generalizing usages with
  | nil => cases usages <;> simp [constantsOf]
  | cons argument rest ih =>
    cases usages with
    | nil => simp [constantsOf]
    | cons usage usages => simp [constantsOf, ih]

/-- Passing a field by content makes no difference. -/
theorem constants_displayed (argument : Argument) (usage : Usage) :
    argument.displayed.constants interface usage = argument.constants interface usage := by
  cases argument <;> simp [displayed, constants]

end Argument

/-- The constants that a statement uses. DISPLAY calls a program for one operand after the other. -/
def Statement.constants (interface : Callee → Interface) : Statement → List Value
  | .call callee arguments _ => Argument.constantsOf interface arguments (interface callee).usages
  | .display operands => operands.flatMap fun operand =>
      Argument.constantsOf interface [operand] (interface .display).usages
  | .goback => []

theorem Statement.constants_lowered (interface : Callee → Interface) (s : Statement) :
    s.lowered.flatMap (constants interface) = s.constants interface := by
  have hdisplayed (operand : Argument) (usages : List Usage) : Argument.constantsOf interface
      [operand.displayed] usages = Argument.constantsOf interface [operand] usages := by
    cases usages <;> simp [Argument.constantsOf, Argument.constants_displayed]
  cases s with
  | display operands => simp [lowered, constants, List.flatMap_map, hdisplayed]
  | call callee arguments returnings => simp [lowered]
  | goback => simp [lowered]

/-- The constants that a program uses: its linkage fields come before its statements. -/
def Program.constants (interface : Callee → Interface) (program : Program) : List Value :=
  program.linkage.map (·.initial) ++ program.statements.flatMap (Statement.constants interface)

end Syntax

namespace Generation

variable {α : Type} {env : Env} {chunk : ChunkId} {p : ProgramId} {interface : Callee → Interface}

/-! ### Steps -/

/-- Literals are arguments, or they are not. -/
abbrev Procedural (inside : Bool) (g : Generator) : Prop :=
  g.inProcedure = inside

section steps

variable {inside : Bool}

theorem uses_quiet {step : GenM α} (h : Quiet step) :
    Uses (Procedural inside) (Procedural inside) [] step := by
  apply uses_still h.leaves_pool
  intro g hg
  exact (h.leaves.comp fun background => background.2.2.2.1) g |>.mono (fun _ _ heq => heq.trans hg)
    fun _ _ _ => trivial

theorem uses_intern (v : Value) : Uses (Procedural inside) (Procedural inside) [v] (intern v) := by
  have hleaves : Leaves (fun g : Generator => g.inProcedure) (intern v) :=
    leaves_intern v (fun _ _ => rfl) fun _ _ => rfl
  intro g hg
  rw [ensures_iff]
  refine ⟨?_, fun _ _ _ => trivial⟩
  intro i g' hok
  exact ⟨(hleaves.eq_of_ok hok).trans hg, [(v, i)], rfl, .intern hok⟩

theorem uses_pushConstant (v : Value) :
    Uses (Procedural inside) (Procedural inside) [v] (pushConstant v) :=
  (uses_intern v).bind fun index => uses_quiet (quiet_emitPush (.load index))

/-- A number literal that has no value for its parameter stops the walk. -/
theorem uses_pushNumber {n : Node} {usage : Usage} (hparam : env.bindings.param? n = some usage)
    (text : String) :
    Uses (Procedural inside) (Procedural inside) (literalValue (some usage) text).toOption.toList
      (pushNumber env n text) := by
  unfold pushNumber
  rw [hparam]
  cases literalValue (some usage) text with
  | ok value => exact uses_pushConstant value
  | error problem => exact fun _ _ => trivial

/-- A literal counts only if it is an argument. -/
theorem uses_ifInProcedure {values : List Value} {step : GenM Unit}
    (h : inside = true → Uses (Procedural true) (Procedural true) values step) :
    Uses (Procedural inside) (Procedural inside) (if inside then values else [])
      (ifInProcedure step) := by
  intro g hg
  have hrest : Uses (· = g) (Procedural inside) (if inside then values else [])
      (if g.inProcedure then step else pure ()) := by
    rintro _ rfl
    rw [hg]
    cases inside with
    | true => exact h rfl _ hg
    | false => exact uses_pure () _ hg
  -- the state is looked at first, and what follows depends on what is found
  unfold ifInProcedure
  rw [ensures_bind, ensures_get]
  apply (hrest g rfl).mono _ fun _ _ _ => trivial
  intro a g' hg'
  obtain ⟨hpost, log, hlog, hinterns⟩ := hg'
  exact ⟨hpost, log, hlog, .bind (.still leaves_get) rfl hinterns⟩

end steps

/-! ### Arguments and statements -/

/-- A call uses the constants of its arguments. -/
theorem uses_beginCall (hknows : KnowsCallees env chunk interface) {c : Node} {q : ProgramId}
    (hcall : CallAt env chunk p c q)
    (harguments : ∀ a ∈ c.arguments, ∀ usage, env.bindings.param? a = some usage →
      Uses (Procedural true) (Procedural true) ((Argument.ofNode a).constants interface usage)
        ((visitor env).walk a.reversed)) :
    Uses (Procedural true) (Procedural true)
      (Argument.constantsOf interface (c.arguments.map Argument.ofNode)
        (interface (Callee.ofNode c)).usages)
      (pushCallable env c.reversed >>= fun _ => (visitor env).walkAll c.reversed.children) := by
  have hvalues : Argument.constantsOf interface (c.arguments.map Argument.ofNode)
      (interface (Callee.ofNode c)).usages =
      ((interface (Callee.ofNode c)).usages.zip c.arguments).reverse.flatMap fun item =>
        (Argument.ofNode item.2).constants interface item.1 := by
    rw [Argument.constantsOf_eq, List.zip_map_right, ← List.map_reverse, List.flatMap_map]
    rfl
  rw [hvalues, hcall.walkAll_children hknows]
  apply (uses_quiet (.pushCallable c.reversed)).bind
  intro _
  apply uses_walkAll
  intro item hitem
  have hmem := List.mem_reverse.mp hitem
  exact harguments item.2 (List.of_mem_zip hmem).2 item.1 (hcall.param hknows hmem)

theorem uses_argument (hknows : KnowsCallees env chunk interface) {a : Node} (ha : IsArgument a)
    (hready : ∀ n ∈ a.nodes, CallSite.Ready env.globals chunk p env.bindings n) {usage : Usage}
    (hparam : env.bindings.param? a = some usage) :
    Uses (Procedural true) (Procedural true) ((Argument.ofNode a).constants interface usage)
      ((visitor env).walk a.reversed) := by
  induction ha generalizing usage with
  | field id location name byContent =>
    rw [walk_reversed_leaf (by simp) rfl rfl]
    exact uses_quiet ((quiet_require _ _).bind quiet_load)
  | number id location text =>
    rw [walk_reversed_leaf (by simp) rfl rfl]
    exact uses_ifInProcedure fun _ => uses_pushNumber hparam text
  | string id location text =>
    rw [walk_reversed_leaf (by simp) rfl rfl]
    exact uses_ifInProcedure fun _ => uses_pushConstant (.display text)
  | @call id location callee usings arguments hcallee husings harguments ih =>
    have hisCall := (IsArgument.call id location hcallee husings harguments).isCall rfl
    have hargs := arguments_call id .callExpression location hcallee husings
      (.absent : Under .callReturnings [] [])
    rw [List.append_nil] at hargs
    obtain ⟨q, hcall⟩ := exists_callAt hisCall hready
    have hbegin := uses_beginCall hknows hcall fun a ha usage hparam =>
      ih a (hargs ▸ ha) (fun n hn => hready n (Node.nodes_trans (Node.argument_mem_nodes ha) hn))
        hparam
    have hpayload := Node.payload_reversed ⟨id, .callExpression, location, callee :: usings⟩
    have hleave :
        (visitor env).leave (Node.reversed ⟨id, .callExpression, location, callee :: usings⟩) =
        finishExpression env (Node.reversed ⟨id, .callExpression, location, callee :: usings⟩) := by
      simp only [visitor, hpayload]
    have hall := hbegin.bind fun _ => uses_quiet (hleave ▸ quiet_finishExpression _)
    rw [List.append_nil] at hall
    rw [walk_call (Or.inr hpayload), Argument.ofNode_callExpression rfl, Argument.constants]
    exact hall

theorem uses_statement (hknows : KnowsCallees env chunk interface) {s : Node} (hs : IsStatement s)
    (hdisplay : s.tag ≠ .displayStatement)
    (hready : ∀ n ∈ s.nodes, CallSite.Ready env.globals chunk p env.bindings n) :
    Uses (Procedural true) (Procedural true) ((Statement.ofNode s).constants interface)
      ((visitor env).walk s.reversed) := by
  by_cases hpayload : s.payload = .callStatement
  · have hc := hs.isCall hpayload
    obtain ⟨q, hcall⟩ := exists_callAt hc hready
    have hbegin := uses_beginCall hknows hcall fun a ha usage hparam =>
      uses_argument hknows (hc.areArguments a ha)
        (fun n hn => hready n (Node.nodes_trans (Node.argument_mem_nodes ha) hn)) hparam
    have hreversed := (Node.payload_reversed s).trans hpayload
    have hleave : (visitor env).leave s.reversed = finishStatement env s.reversed := by
      simp only [visitor, hreversed]
    have hall := hbegin.bind fun _ => uses_quiet (hleave ▸ quiet_finishStatement _)
    rw [List.append_nil] at hall
    rw [walk_call (Or.inl hreversed), Statement.ofNode, hpayload]
    exact hall
  · cases hs with
    | call => exact absurd rfl hpayload
    | display => exact absurd rfl hdisplay
    | goback id location =>
      rw [walk_reversed_leaf (by simp) rfl rfl]
      exact uses_quiet (.emit .ret)

/-! ### Programs -/

/-- What is asked for is there. -/
theorem Uses.require {β : Type} {pre post : Generator → Prop} {values : List Value}
    {o : Option β} {b : β} {next : β → GenM α} (h : Uses pre post values (next b)) (hb : o = some b)
    (invariant : Invariant) :
    Uses pre post values (CobolCompiler.require invariant o >>= next) := by
  subst hb
  exact h

theorem uses_placeField {f : FieldId} {v : Value}
    (hinitial : initialValue? (env.globals.field f) = some v)
    (linkage : Std.TreeMap FieldId UInt16) :
    Uses (Procedural false) (Procedural false) (if isWorking env.globals f then [] else [v])
      (placeField env linkage f) := by
  unfold placeField isWorking
  apply Uses.require _ hinitial
  cases (env.globals.field f).home with
  | workingStorage =>
    apply uses_quiet
    refine (Quiet.addField v).bind fun index => Quiet.bind (quiet_modify fun _ => rfl) fun _ => ?_
    exact .still (leaves_pure linkage)
  | linkage => exact (uses_intern v).bind fun index => uses_pure (linkage.insert f index)

variable {programs : List Program} {program : Program} {g : Generator}

/-- The initial values of linkage fields are those of the syntax. -/
theorem flatMap_initial (h : Describes env.globals p program) :
    ((env.globals.program p).fields.toList.flatMap fun f =>
      if isWorking env.globals f then [] else [(Declaration.fieldSyntax env.globals f).initial]) =
        program.linkage.map (·.initial) := by
  rw [← h.linkage_eq, List.map_map]
  generalize (env.globals.program p).fields.toList = fs
  induction fs with
  | nil => rfl
  | cons f rest ih => cases hworking : isWorking env.globals f <;> simp [hworking, ih]

/-- Opening a program uses the initial values of its linkage fields, and no others. -/
theorem uses_openProgram {n : Node} (hbound : env.bindings.program? n = some p)
    (hdescribes : Describes env.globals p program) :
    Uses (fun _ => True) (Procedural false) (program.linkage.map (·.initial))
      (openProgram env n) := by
  have hany {β : Type} {step : GenM β} (h : Leaves poolOf step) :
      Uses (fun _ => True) (fun _ => True) [] step :=
    uses_still h fun _ _ => ensures_iff.mpr ⟨fun _ _ _ => trivial, fun _ _ _ => trivial⟩
  have hfields :=
    uses_foldlM (fun linkage f hf => uses_placeField (hdescribes.initial f hf) linkage)
    (∅ : Std.TreeMap FieldId UInt16)
  rw [flatMap_initial hdescribes] at hfields
  have hplaced :
      Uses (Procedural false) (Procedural false) (program.linkage.map (·.initial) ++ []) (do
      let linkage ← (env.globals.program p).fields.toList.foldlM (placeField env) ∅
      placeUsings (env.globals.program p).usings.toList
      (localFields (env.globals.program p) linkage).forM (placeLocal linkage)) := by
    apply hfields.bind
    intro linkage
    apply uses_quiet
    exact (quiet_placeUsings _).bind fun _ => quiet_forM (quiet_placeLocal linkage) _
  rw [List.append_nil] at hplaced
  unfold openProgram
  apply Uses.require _ hbound
  refine (hany (leaves_argumentCount _)).bind fun usings =>
    (hany (leaves_argumentCount _)).bind fun returnings => ?_
  refine (hany (leaves_pool
    (leaves_ground (leaves_heading (Assembler.leaves_openPrototype _ _ _))))).bind fun _ => ?_
  exact hplaced.after_modify (fun _ => rfl) fun _ _ => rfl

/-- Outside of procedures nothing is interned. -/
theorem uses_head (env : Env) (shape : ProgramShape) :
    Uses (Procedural false) (Procedural false) [] ((visitor env).walkAll shape.head) := by
  have hclause (step : GenM Unit) :
      Uses (Procedural false) (Procedural false) (if false then [] else []) (ifInProcedure step) :=
    uses_ifInProcedure fun h => by cases h
  have hhead : Uses (Procedural false) (Procedural false) (shape.head.flatMap fun _ => [])
      ((visitor env).walkAll (shape.head.map fun n => n)) := by
    apply uses_walkAll
    intro n hn
    apply uses_walk_nil
    intro m hm
    have htag := shape.tags_head n hn m hm
    obtain ⟨id, payload, location, children⟩ := m
    cases payload with
    | numberLiteral text => exact ⟨hclause _, uses_pure ()⟩
    | stringLiteral text => exact ⟨hclause _, uses_pure ()⟩
    | _ =>
      first
      | exact ⟨uses_pure (), uses_pure ()⟩
      | simp [Node.tag, Payload.tag, Tag.frameTags] at htag
  rwa [List.flatMap_eq_nil_iff.mpr fun _ _ => rfl, List.map_id'] at hhead

/-- The walk of a program uses the constants of its syntax. -/
theorem uses_walk_program (hknows : KnowsCallees env chunk interface) {shape : ProgramShape}
    (hprogram : ProgramAt env chunk shape p program) :
    Uses (fun _ => True) (fun _ => True) (program.constants interface)
      ((visitor env).walk shape.reversed.node) := by
  have hstatements : Uses (Procedural true) (Procedural true)
      (shape.statements.flatMap fun s => (Statement.ofNode s).constants interface)
      ((visitor env).walkAll shape.reversed.statements) := by
    apply uses_walkAll
    intro s hs
    apply uses_statement hknows (shape.areStatements s hs) (hprogram.noDisplay s hs)
    intro n hn
    exact hprogram.ready n (List.mem_flatMap.mpr ⟨s, hs, hn⟩)
  have hvalues : (shape.statements.flatMap fun s => (Statement.ofNode s).constants interface) =
      program.statements.flatMap (Statement.constants interface) := by
    have hlowered := congrArg (List.flatMap (Statement.constants interface)) hprogram.statements_eq
    rw [List.flatMap_map, List.flatMap_assoc] at hlowered
    simpa only [Statement.constants_lowered] using hlowered
  have hclose : Uses (Procedural true) (fun _ => True) [] closeProgram := by
    refine uses_still (leaves_pool (leaves_get.bind fun g => ?_)) fun _ _ => ?_
    · have hend : Leaves ground (do
          assemble Assembler.close
          modify fun g : Generator => { g with inProcedure := false }) :=
        (leaves_ground (leaves_heading Assembler.leaves_close)).bind fun _ =>
          leaves_modify fun _ => rfl
      split
      · exact (leaves_ground (Quiet.emit .ret).leaves).bind fun _ => hend
      · exact hend
    · exact ensures_iff.mpr ⟨fun _ _ _ => trivial, fun _ _ _ => trivial⟩
  rw [hvalues] at hstatements
  rw [walk_program, Program.constants]
  apply (uses_openProgram (n := shape.reversed.node) hprogram.bound hprogram.describes).bind
  intro _
  refine (uses_quiet (.still (leaves_assertOrder _))).bind fun _ =>
    (uses_head env shape.reversed).bind fun _ => ?_
  have hprocedure := hstatements.bind fun _ => hclose
  rw [List.append_nil] at hprocedure
  exact hprocedure.after_modify (fun _ => rfl) fun _ _ => rfl

theorem uses_walk_programs (hknows : KnowsCallees env chunk interface) {shapes : List ProgramShape}
    (hprograms : List.Forall₂ (fun shape program => ∃ p, ProgramAt env chunk shape p program) shapes
      programs) :
    Uses (fun _ => True) (fun _ => True) (programs.flatMap (Program.constants interface))
      (shapes.forM fun shape => (visitor env).walk shape.reversed.node) := by
  induction hprograms with
  | nil => exact uses_pure ()
  | cons hprogram _ ih =>
    obtain ⟨p, hat⟩ := hprogram
    rw [List.flatMap_cons]
    exact (uses_walk_program hknows hat).bind fun _ => ih

/-! ### Modules -/

/-- The module of a tree was begun, and then walking the parts of the tree interned the values of a
log. -/
def WalkInterns (env : Env) (root : Node) (start : Generator) (log : List (Value × UInt16))
    (g : Generator) : Prop :=
  ∃ begun, beginModule env root start = .ok () begun ∧
    (visitor env).walkAll root.children begun = .ok () g ∧
    Interns ((visitor env).walkAll root.children) begun log

/-- Whatever was generated before, the constants of the module are those that were interned since it
was begun. -/
theorem WalkInterns.pools {root : Node} {start : Generator} {log : List (Value × UInt16)}
    (h : WalkInterns env root start log g) : Pools log g.assembler.built := by
  obtain ⟨begun, hbegun, hwalk, hinterns⟩ := h
  have hend := hinterns.logged ((logged_beginModule root).of_ok hbegun).1
  rw [hwalk] at hend
  exact hend.pools

theorem CheckedFile.knowsCallees {m : ModuleShape} {run : Run}
    (h : CheckedFile programs m run chunk) :
    KnowsCallees (envOf run) chunk (interfaceIn run.globals programs) where
  consistent := h.consistent
  interface := fun _ _ hnames => h.interfaceIn_eq hnames

/-- Walking a checked module interns the constants of its programs. -/
theorem CheckedFile.exists_log {m : ModuleShape} {run : Run} (h : CheckedFile programs m run chunk)
    {start : Generator} (hvisit : (visitor (envOf run)).visit m.reversed.node start = .ok () g) :
    ∃ log, WalkInterns (envOf run) m.reversed.node start log g ∧
      log.map Prod.fst = programs.flatMap
        (Program.constants (interfaceIn run.globals programs)) := by
  have hprograms := uses_walk_programs h.knowsCallees h.shapes
  rw [← walkAll_reversed_module] at hprograms
  rw [visit_reversed, ← walkAll_reversed_module, bind_apply] at hvisit
  split at hvisit
  · next begun hbegun =>
    obtain ⟨-, log, hlog, hinterns⟩ := (hprograms begun trivial).of_ok hvisit
    exact ⟨log, ⟨begun, hbegun, hvisit, hinterns⟩, hlog⟩
  · cases hvisit

/-- If a module is under construction, then what was interned for it can be told. -/
def Accounted (g : Generator) : Prop :=
  g.started = true → ∃ log, Since log g

theorem accounted_of_not_started (h : g.started = false) : Accounted g := by
  intro hstarted
  rw [h] at hstarted
  cases hstarted

theorem Grounded.accounted {names : List (Option String)} {step : GenM α}
    (h : Grounded names step) : Preserves Accounted Accounted step := by
  intro g hg
  apply ensures_of_stateOf
  intro hstarted
  have hpending := holds_stateOf (P := fun g' => pendingOf g' = pendingOf g) (h.keepsPending g)
  obtain ⟨log, hlog⟩ := hg ((congrArg Prod.fst hpending).symm.trans hstarted)
  obtain ⟨log', hlog'⟩ := h.exists_interns g
  exact ⟨log ++ log', .step hlog hlog'⟩

/-- This is so after a walk over any tree, whatever modules there are in it and wherever it
stops. -/
theorem accounted_visit (env : Env) (root : Node) :
    Preserves Accounted Accounted ((visitor env).visit root) := by
  intro g hg
  rw [Visitor.visit, show (visitor env).finish = pure () from rfl, bind_pure_unit]
  refine Visitor.ensures_walk_of_mem ?_ (fun n _ => (grounded_leave n).accounted) hg
  intro n _ g' hg'
  by_cases hn : n.tag = .module
  · have hbegin : (visitor env).enter n = beginModule env n := by
      simp only [visitor, payload_of_tag hn rfl]
    rw [hbegin]
    exact ensures_of_stateOf fun _ => ⟨[], .begun env n g'⟩
  · obtain ⟨names, henter⟩ := exists_grounded_enter hn
    exact henter.accounted g' hg'

/-- The module that code generation hands over is the one whose constants were accounted for. -/
theorem accounted_generate (root : Node) {run : Run} (hg : Accounted run.memory.generator)
    (hproduct : run.product? = none) :
    Ensures (generate root) run
      (fun _ t => Accounted t.memory.generator ∧
        ∀ product, t.product? = some product → ∃ log g, Since log g ∧ product = g.assembler.built)
      (fun _ t => Accounted t.memory.generator) := by
  rw [ensures_generate_iff]
  refine (accounted_visit _ root _ hg).imp ?_
  intro _ g hg
  cases hstarted : g.started with
  | true =>
    refine (handsOver_finish hstarted).mono ?_ fun _ _ hsettled => accounted_of_not_started hsettled
    intro _ t ht
    refine ⟨accounted_of_not_started ht.settled, fun product hsome => ?_⟩
    obtain ⟨log, hlog⟩ := hg hstarted
    exact ⟨log, g, hlog, Option.some.inj (hsome.symm.trans ht.product?_eq)⟩
  | false =>
    rw [ensures_of_eq (finish_of_settled hstarted)]
    refine ⟨hg, fun product hsome => ?_⟩
    rw [show run.product? = some product from hsome] at hproduct
    cases hproduct

end Generation

/-! ### Compilations -/

namespace Session

open Generation

variable {s : Session}

theorem Generating.accounted {parser : Parser} {source : List UInt8} {file : String}
    {output? : Option String} {u : Session} {root checked : Node} {run : Run}
    (h : Generating parser source file output? s u root checked run)
    (hs : s.passes = Pass.core) (hg : Accounted s.memory.generator) :
    Ensures (generate checked) run
      (fun _ t => Accounted t.memory.generator ∧
        ∀ product, t.product? = some product → ∃ log g, Since log g ∧ product = g.assembler.built)
      (fun _ t => Accounted t.memory.generator) := by
  obtain ⟨houtcome, -⟩ := h.harmless
  simp only [Run.outcome, Prod.mk.injEq] at houtcome
  obtain ⟨hproduct, -, -, hgenerator⟩ := houtcome
  rw [← (h.untouched hs).generator_eq, ← hgenerator] at hg
  exact accounted_generate checked hg hproduct

theorem Reachable.accounted (hs : s.Reachable) : Accounted s.memory.generator := by
  induction hs with
  | start options files => exact accounted_of_not_started rfl
  | @compiled s hs parser source file output? ih =>
    have hpasses := hs.sound.passes_eq
    rw [after_eq_stateOf]
    rcases compileSource_cases hpasses parser source file output?
      with ⟨e, t, he, ht⟩ | ⟨u, root, checked, run, hgenerating⟩
    · rw [he]
      exact ht.generator_eq.symm ▸ ih
    · rw [hgenerating.compileSource_eq hpasses, stateOf_conclude]
      exact holds_stateOf (P := fun t : Run => Accounted t.memory.generator)
        ((hgenerating.accounted hpasses ih).mono (fun _ _ h => h.1) fun _ _ h => h)
  | @declared s hs parser source file ih =>
    have hdeclared := holds_after
      (@Untouched.declareSource parser source file s s ⟨hs.sound.passes_eq, rfl, rfl, rfl⟩)
    exact hdeclared.generator_eq.symm ▸ ih
  | files _ files ih => exact ih

/-- Whatever the tree, the module that comes out was begun once, and its constants are those that
were interned since. -/
theorem Reachable.exists_since {t : Session} (hs : s.Reachable) {parser : Parser}
    {source : List UInt8} {file : String} {output? : Option String} {product : Module}
    (hcompiled : compileSource parser source file output? s = .ok product t) :
    ∃ log g, Since log g ∧ product = g.assembler.built := by
  have hpasses := hs.sound.passes_eq
  rcases compileSource_cases hpasses parser source file output?
    with ⟨e, t', herror, -⟩ | ⟨u, root, checked, run, hgenerating⟩
  · rw [hcompiled] at herror
    cases herror
  · rw [hgenerating.compileSource_eq hpasses] at hcompiled
    have haccounted := hgenerating.accounted hpasses hs.accounted
    cases hgenerate : generate checked run with
    | error e run' =>
      rw [hgenerate] at hcompiled
      cases hcompiled
    | ok last run' =>
      obtain ⟨-, hsince⟩ := haccounted.of_ok hgenerate
      rw [hgenerate, conclude] at hcompiled
      cases hproduct : run'.product? with
      | none =>
        rw [hproduct] at hcompiled
        cases hcompiled
      | some product' =>
        rw [hproduct] at hcompiled
        obtain ⟨rfl, -⟩ := EStateM.Result.ok.inj hcompiled
        exact hsince _ hproduct

/-- The passes before code generation leave a checked module with its arguments reversed. -/
theorem ensures_reversed {u : Session} (hu : u.Sound) {root : Node}
    (hgrammar : root.grammatical = true)
    (hmodule : root.tag = .module) (file : String) (output? : Option String) :
    Ensures (runAll (Pass.core.take 9) (root.renumber 0).1)
      (u.beginRun file output? (root.renumber 0).2)
      (fun checked run => ∃ before m chunk, (root.renumber 0).1 = before.node ∧
        checked = m.reversed.node ∧ CheckedFile (programsOf u.options.policy before) m run chunk)
      (fun _ _ => True) := by
  have hsplit : Pass.core.take 9 = Pass.core.take 3 ++
      ((Pass.core.drop 3).take 4 ++ (Pass.core.drop 7).take 2) := rfl
  obtain ⟨before, hbefore, hnumbered⟩ :=
    Declaration.exists_numbered hu hgrammar hmodule file output?
  rw [hbefore, hsplit, runAll_append, ensures_bind]
  apply (Declaration.ensures_declaring hnumbered).mono _ fun _ _ _ => trivial
  intro declared run₁ hdeclared
  rw [runAll_append, ensures_bind]
  apply (ensures_checking hdeclared).mono _ fun _ _ _ => trivial
  intro checked run₂ hchecked
  obtain ⟨m, chunk, rfl, hfile, -⟩ := hchecked.checked
  have hlast : runAll ((Pass.core.drop 7).take 2) m.node = reverseArguments m.node := by
    change (pure m.node >>= fun root => reverseArguments root >>= pure) = _
    rw [pure_bind, bind_pure]
  rw [hlast]
  apply (ensures_reverseArguments m run₂).mono _ fun _ _ _ => trivial
  intro _ _ hreversed
  obtain ⟨rfl, rfl⟩ := hreversed
  exact ⟨before, m, chunk, rfl, rfl, hfile⟩

/-- The constants of a module that comes out are those that were interned since it was begun, each
once and in the order of first use; equal values were given one index and different values were not,
and the indices are those of the finished module. This holds whatever the session has compiled
before, and also if the module is one that an earlier compilation stopped in.

The constants of a module that was compiled from a grammatical tree are exactly those that its
programs use. They were interned while this tree was walked, after the passes before code
generation. -/
theorem compiled_constants_pooled {s t : Session} (hs : s.Reachable) {parser : Parser}
    {source : List UInt8} {file : String} {output? : Option String} {product : Module}
    (hcompiled : compileSource parser source file output? s = .ok product t) :
    (∃ log g, Since log g ∧ product = g.assembler.built ∧ Pools log product) ∧
    ∀ root, parser file source s.options.freeFormat = .ok root → root.grammatical = true →
      root.tag = .module →
      ∃ u checked run g log, Generating parser source file output? s u root checked run ∧
        (visitor (envOf run)).visit checked run.memory.generator = .ok () g ∧
          product = g.assembler.built ∧
        WalkInterns (envOf run) checked run.memory.generator log g ∧ Pools log product ∧
        log.map Prod.fst = (modulePrograms s.options.policy root).flatMap
          (Program.constants (interfaceIn t.globals (modulePrograms s.options.policy root))) := by
  obtain ⟨log, g, hsince, hproduct⟩ := hs.exists_since hcompiled
  refine ⟨⟨log, g, hsince, hproduct, hproduct ▸ hsince.logged.pools⟩, ?_⟩
  intro root hroot hgrammar hmodule
  have hpasses := hs.sound.passes_eq
  rcases compileSource_cases hpasses parser source file output?
    with ⟨e, t', herror, -⟩ | ⟨u, tree, checked, run, hgenerating⟩
  · rw [hcompiled] at herror
    cases herror
  have hoptions : u.options = s.options := (hgenerating.untouched hpasses).options_eq
  obtain rfl : root = tree := by
    have hparsed := hgenerating.parsed
    rw [hoptions, hroot] at hparsed
    exact Except.ok.inj hparsed
  have hsound := ((keeps_loadSystem parser hs.sound).of_ok hgenerating.loaded).sound
  have hlogged : (u.logged file source).Sound := ⟨hsound.passes_eq, hsound.consistent⟩
  obtain ⟨before, m, chunk, hbefore, rfl, hfile⟩ :=
    (ensures_reversed hlogged hgrammar hmodule file output?).of_ok hgenerating.passing_eq
  have hpolicy : (u.logged file source).options.policy = s.options.policy :=
    congrArg Options.policy hoptions
  rw [hpolicy, programsOf_eq hbefore] at hfile
  -- the module that came out is the one that the walk assembled
  rw [hgenerating.compileSource_eq hpasses] at hcompiled
  cases hgenerate : generate m.reversed.node run with
  | error e run' =>
    rw [hgenerate] at hcompiled
    cases hcompiled
  | ok last run' =>
    obtain ⟨hglobals, g, hvisit, hproduct⟩ := (ensures_generate hfile).of_ok hgenerate
    simp only [hgenerate, conclude, hproduct] at hcompiled
    obtain ⟨rfl, rfl⟩ := EStateM.Result.ok.inj hcompiled
    obtain ⟨log, hwalk, hlog⟩ := hfile.exists_log hvisit
    have hsame : ((u.logged file source).endRun run').globals = run.globals := hglobals
    rw [hsame]
    exact ⟨u, m.reversed.node, run, g, log, hgenerating, hvisit, rfl, hwalk, hwalk.pools, hlog⟩

open Build

/-- Two programs that use one text three times, and a number once for each usage of a parameter. -/
def greetingModule : Node :=
  Build.module "SYSTEM" [
    program "DISPLAY" [
      leaf .exportMark,
      node .dataDivision [
        node .workingStorageSection [field 1 "GREETING" [leaf (.stringLiteral "HELLO")]],
        node .linkageSection [
          field 1 "VALUE" [leaf (.usage .any)],
          field 1 "REPEATS" [leaf (.usage .comp2), leaf (.numberLiteral "2")]]],
      procedure ["VALUE"] [] []],
    program "TWICE" [
      node .dataDivision [node .linkageSection [
        field 1 "FIRST" [leaf (.usage .comp2)], field 1 "SECOND" [leaf (.usage .any)]]],
      procedure ["FIRST", "SECOND"] [] [
        node .displayStatement [leaf (.stringLiteral "BYE"), leaf (.numberLiteral "2")],
        call "TWICE" none [leaf (.numberLiteral "2"), leaf (.stringLiteral "BYE")] []]]]

/-- The module has five constants, although eight are asked for. Nothing is left over from the
module that is pending, and the text of the working-storage field is not among them. -/
theorem greetingModule_constants_pooled :
    ∃ product t log, compileSource (fun _ _ _ => .ok greetingModule) [] "GREET.cbl" none
      counterSession = .ok product t ∧ product.constants =
      #[.display "", .comp2 0x4000000000000000, .comp2 0, .display "BYE", .comp4 1 0 "2"] ∧
      Pools log product := by
  have hconstants : (answerOf? (compileSource (fun _ _ _ => .ok greetingModule) [] "GREET.cbl" none)
      counterSession).map (·.constants) =
      some #[.display "", .comp2 0x4000000000000000, .comp2 0, .display "BYE", .comp4 1 0 "2"] := by
    decide +kernel
  have hgrammar : greetingModule.grammatical = true := by
    decide +kernel
  obtain ⟨product, hanswer, hproduct⟩ := Option.map_eq_some_iff.mp hconstants
  obtain ⟨t, hcompiled⟩ := exists_of_answerOf? hanswer
  obtain ⟨-, hgrammatical⟩ := compiled_constants_pooled counterSession_reachable hcompiled
  obtain ⟨u, checked, run, g, log, -, -, -, -, hpools, -⟩ :=
    hgrammatical greetingModule rfl hgrammar (by decide)
  exact ⟨product, t, log, hcompiled, hproduct, hpools⟩

end Session

end CobolCompiler
