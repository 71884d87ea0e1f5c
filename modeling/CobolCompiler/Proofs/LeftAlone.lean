import CobolCompiler.Pass.Generation
import CobolCompiler.Proofs.Outcome

/-!
# What steps leave alone

A step that changes only a part of its state leaves every view of the rest alone, whether it answers
or stops (`Leaves`). This is closed under the ways in which steps are put together, so it can be
read off a step from its parts. So can an invariant that each part keeps (`Preserves`).

Most of code generation only emits instructions. It leaves the background of the generator alone
(`Quiet`): the name and the constants of the module, where constants and programs are found, whether
literals are arguments, and whether a module was begun. In the walk over a module, only interning
changes what the background says about the module as a whole (`Grounded`). So an invariant of that
which interning keeps is kept by all of the walk.
-/

namespace CobolCompiler

open Machine

/-- A step leaves a part of the state alone, whether it answers or stops. -/
def Leaves {ε σ τ α : Type} (view : σ → τ) (step : EStateM ε σ α) : Prop :=
  ∀ s, Ensures step s (fun _ t => view t = view s) (fun _ t => view t = view s)

section leaves

variable {ε σ τ τ' α β : Type} {view : σ → τ}

theorem leaves_pure (a : α) : Leaves view (pure a : EStateM ε σ α) := fun _ => rfl

theorem leaves_throw (e : ε) : Leaves view (throw e : EStateM ε σ α) := fun _ => rfl

theorem leaves_get : Leaves view (get : EStateM ε σ σ) := fun _ => rfl

theorem leaves_modify {f : σ → σ} (h : ∀ s, view (f s) = view s) :
    Leaves view (modify f : EStateM ε σ PUnit) := h

theorem leaves_require {view : σ → τ} (invariant : Invariant) (o : Option α) :
    Leaves view (require invariant o : EStateM Stop σ α) := by
  intro s
  rw [ensures_require]
  exact ⟨fun _ _ => rfl, fun _ => rfl⟩

theorem Leaves.bind {step : EStateM ε σ β} {next : β → EStateM ε σ α} (h : Leaves view step)
    (hnext : ∀ b, Leaves view (next b)) : Leaves view (step >>= next) := by
  intro s
  refine (h s).bind ?_
  intro b t ht
  exact (hnext b t).mono (fun _ _ hu => hu.trans ht) fun _ _ hu => hu.trans ht

theorem leaves_forM {f : α → EStateM ε σ PUnit} (h : ∀ item, Leaves view (f item))
    (items : List α) :
    Leaves view (items.forM f) := by
  intro s
  refine ensures_forM (fun _ t => view t = view s) rfl fun _ item _ t _ ht => ?_
  exact (h item t).mono (fun _ _ hu => hu.trans ht) fun _ _ hu => hu.trans ht

/-- What is left alone is so in every part of it. -/
theorem Leaves.comp {step : EStateM ε σ α} (h : Leaves view step) (part : τ → τ') :
    Leaves (fun s => part (view s)) step := by
  intro s
  exact (h s).mono (fun _ _ ht => congrArg part ht) fun _ _ ht => congrArg part ht

/-- A part of the state is as it was when the step answers. -/
theorem Leaves.eq_of_ok {step : EStateM ε σ α} (h : Leaves view step) {s t : σ} {a : α}
    (hok : step s = .ok a t) :
    view t = view s :=
  (h s).of_ok hok

end leaves

/-! ### Invariants -/

/-- A step that answers keeps an invariant. A step that stops may keep less. -/
def Preserves {ε σ α : Type} (I J : σ → Prop) (step : EStateM ε σ α) : Prop :=
  ∀ s, I s → Ensures step s (fun _ => I) (fun _ => J)

section preserves

variable {ε σ τ α β : Type} {I J : σ → Prop}

/-- An invariant of what is left alone is kept. -/
theorem Leaves.preserves {view : σ → τ} {step : EStateM ε σ α} (h : Leaves view step)
    (hview : ∀ s t, view t = view s → I s → I t) (hless : ∀ s, I s → J s) : Preserves I J step := by
  intro s hs
  exact (h s).mono (fun _ t ht => hview s t ht hs) fun _ t ht => hless t (hview s t ht hs)

theorem Preserves.bind {step : EStateM ε σ β} {next : β → EStateM ε σ α} (h : Preserves I J step)
    (hnext : ∀ b, Preserves I J (next b)) : Preserves I J (step >>= next) := by
  intro s hs
  rw [ensures_bind]
  exact (h s hs).imp fun b t ht => hnext b t ht

end preserves

/-! ### The assembler -/

namespace Machine.Assembler

variable {α τ : Type} {view : Assembler → τ}

/-- The name and the constants of the module under construction. -/
def heading (a : Assembler) : String × Array Value :=
  (a.built.name, a.built.constants)

theorem leaves_append (size : Module → Nat) (full : AssembleError) {change : Module → Module}
    (h : ∀ a : Assembler, view { a with built := change a.built } = view a) :
    Leaves view (append size full change) := by
  intro a
  unfold Ensures append
  by_cases hroom : size a.built < room
  · simpa [hroom] using h a
  · simp [hroom]

theorem leaves_opened : Leaves view opened := by
  intro a
  unfold Ensures opened
  cases a.open? <;> rfl

theorem leaves_openPrototype (name? : Option String) (usings returnings : UInt8) :
    Leaves heading (openPrototype name? usings returnings) := by
  refine Leaves.bind ?_ fun index => Leaves.bind ?_ fun _ => leaves_pure index
  · exact leaves_append _ _ fun _ => rfl
  · exact leaves_modify fun _ => rfl

theorem leaves_close : Leaves heading close :=
  leaves_modify fun _ => rfl

theorem leaves_addField (value : Value) : Leaves heading (addField value) := by
  refine leaves_opened.bind fun _ => ?_
  exact leaves_append _ _ fun _ => rfl

theorem leaves_addImport (owner program : String) : Leaves heading (addImport owner program) := by
  refine leaves_get.bind fun a => ?_
  split
  · exact leaves_pure _
  · exact leaves_append _ _ fun _ => rfl

theorem leaves_emit (instruction : Instruction) : Leaves heading (emit instruction) := by
  refine leaves_opened.bind fun _ => ?_
  exact leaves_modify fun _ => rfl

end Machine.Assembler

/-! ### Code generation -/

/-- What emitting instructions leaves alone. -/
def Generator.background (g : Generator) :
    (String × Array Value) × Std.TreeMap Value UInt16 × Std.TreeMap ProgramId UInt16 ×
      Bool × Bool :=
  (g.assembler.heading, g.pool, g.prototypes, g.inProcedure, g.started)

namespace Generation

variable {α τ τ' : Type} {env : Env}

variable {step : AssembleM α} {n : Node}

theorem ensures_assemble {g : Generator} {ok : α → Generator → Prop}
    {err : Stop → Generator → Prop} :
    Ensures (assemble step) g ok err ↔
      Ensures step g.assembler (fun a assembler => ok a { g with assembler })
      (fun e assembler => err (.failed (.assemble e)) { g with assembler }) := by
  obtain ⟨assembler, pool, prototypes, slots, depth, calls, inProcedure, started⟩ := g
  unfold Ensures assemble
  simp only
  cases step assembler <;> exact Iff.rfl

theorem leaves_assemble {part : Assembler → τ} (h : Leaves part step) {view : Generator → τ'}
    (hview : ∀ g assembler, part assembler = part g.assembler →
      view { g with assembler } = view g) :
    Leaves view (assemble step) := by
  intro g
  rw [ensures_assemble]
  exact (h g.assembler).mono (fun _ assembler => hview g assembler) fun _ assembler =>
    hview g assembler

section everything

variable {view : Generator → τ}

theorem leaves_frameIndex (position : Nat) : Leaves view (frameIndex position) := by
  unfold frameIndex
  split
  · exact leaves_pure _
  · exact leaves_throw _

theorem leaves_argumentCount (n : Nat) : Leaves view (argumentCount n) := by
  unfold argumentCount
  split
  · exact leaves_pure _
  · exact leaves_throw _

end everything

/-- Interning changes the pool and the constants of the module. -/
theorem leaves_intern {view : Generator → τ} (value : Value)
    (hconstants : ∀ (g : Generator) constants, view { g with
      assembler := { g.assembler with built := { g.assembler.built with constants } } } = view g)
    (hpool : ∀ (g : Generator) pool, view { g with pool } = view g) :
    Leaves view (intern value) := by
  have hadd : Leaves view (assemble (Assembler.addConstant value)) := by
    intro g
    rw [ensures_assemble]
    have happend : Leaves (fun assembler => view { g with assembler })
        (Assembler.addConstant value) :=
      Assembler.leaves_append _ _ fun assembler => hconstants { g with assembler } _
    exact happend g.assembler
  refine leaves_get.bind fun g => ?_
  cases g.pool[value]? with
  | some index => exact leaves_pure index
  | none =>
    exact hadd.bind fun index => Leaves.bind (leaves_modify fun g => hpool g _) fun _ =>
      leaves_pure index

theorem leaves_heading (h : Leaves Assembler.heading step) :
    Leaves Generator.background (assemble step) := by
  apply leaves_assemble h
  intro g assembler heq
  simp only [Generator.background, heq]

theorem leaves_assertOrder {view : Generator → τ} (n : Node) : Leaves view (assertOrder env n) := by
  refine leaves_get.bind fun g => ?_
  split
  · exact leaves_throw _
  · exact leaves_pure _

/-- A step that emits instructions, among them those that push what is called, gives fields to the
open program, and otherwise leaves the assembler and the background alone. -/
inductive Quiet : {α : Type} → GenM α → Prop
  | still {α : Type} {step : GenM α} (h : Leaves (fun g =>
    (g.assembler, g.background)) step) : Quiet step
  | emit (instruction : Instruction) : Quiet (emit instruction)
  | addField (value : Value) : Quiet (assemble (Assembler.addField value))
  | pushCallable {env : Env} (call : Node) : Quiet (pushCallable env call)
  | bind {α β : Type} {step : GenM β} {next : β → GenM α} (h : Quiet step)
      (hnext : ∀ b, Quiet (next b)) : Quiet (step >>= next)

theorem Quiet.leaves {step : GenM α} (h : Quiet step) : Leaves Generator.background step := by
  have hemit (i : Instruction) : Leaves Generator.background (Generation.emit i) :=
    leaves_heading (Assembler.leaves_emit i)
  induction h with
  | still h => exact h.comp Prod.snd
  | emit i => exact hemit i
  | addField value => exact leaves_heading (Assembler.leaves_addField value)
  | @pushCallable env call =>
    have hcallable : Leaves Generator.background (callableOf env call) := by
      refine (leaves_require _ _).bind fun callee => ?_
      split
      · exact (leaves_heading (Assembler.leaves_addImport _ _)).bind fun _ => leaves_pure _
      · exact leaves_get.bind fun _ => (leaves_require _ _).bind fun _ => leaves_pure _
    refine hcallable.bind fun i => Leaves.bind (leaves_modify fun _ => rfl) fun _ => ?_
    exact (hemit i).bind fun _ => leaves_modify fun _ => rfl
  | bind _ _ ih ihnext => exact ih.bind ihnext

theorem quiet_modify {f : Generator → Generator}
    (h : ∀ g, ((f g).assembler, (f g).background) = (g.assembler, g.background)) :
    Quiet (modify f) :=
  .still (leaves_modify h)

theorem quiet_require (invariant : Invariant) (o : Option α) : Quiet (require invariant o) :=
  .still (leaves_require invariant o)

theorem quiet_forM {f : α → GenM PUnit} (h : ∀ item, Quiet (f item)) (items : List α) :
    Quiet (items.forM f) := by
  induction items with
  | nil => exact .still (leaves_pure _)
  | cons item rest ih => exact (h item).bind fun _ => ih

theorem quiet_emitPush (instruction : Instruction) : Quiet (emitPush instruction) :=
  (Quiet.emit instruction).bind fun _ => quiet_modify fun _ => rfl

theorem quiet_emitPop (instruction : Instruction) : Quiet (emitPop instruction) := by
  refine (Quiet.emit instruction).bind fun _ => .still (leaves_get.bind fun g => ?_)
  cases g.depth with
  | zero => exact leaves_throw _
  | succ depth => exact leaves_modify fun _ => rfl

theorem quiet_load (field : FieldId) : Quiet (load field) := by
  refine Quiet.bind (.still (leaves_get.bind fun _ => leaves_require _ _)) fun slot => ?_
  cases slot <;> exact quiet_emitPush _

theorem quiet_store (field : FieldId) : Quiet (store field) := by
  refine Quiet.bind (.still (leaves_get.bind fun _ => leaves_require _ _)) fun slot => ?_
  cases slot <;> exact quiet_emitPop _

theorem quiet_placeUsings (usings : List FieldId) : Quiet (placeUsings usings) := by
  refine .still (leaves_forM (fun item => ?_) _)
  exact (leaves_frameIndex _).bind fun _ => leaves_modify fun _ => rfl

theorem quiet_placeLocal (linkage : Std.TreeMap FieldId UInt16) (id : FieldId) :
    Quiet (placeLocal linkage id) := by
  refine (quiet_require _ _).bind fun constant => (Quiet.emit _).bind fun _ =>
    .still (leaves_get.bind fun g => ?_)
  exact (leaves_frameIndex _).bind fun _ => leaves_modify fun _ => rfl

theorem quiet_emitCall (usings returnings : Nat) : Quiet (emitCall usings returnings) := by
  refine Quiet.bind (.still (leaves_argumentCount usings)) fun _ => ?_
  refine Quiet.bind (.still (leaves_argumentCount returnings)) fun _ => ?_
  exact (Quiet.emit _).bind fun _ => quiet_modify fun _ => rfl

theorem quiet_takeBack (argument : Node) : Quiet (takeBack env argument) := by
  unfold takeBack
  split
  · exact (quiet_require _ _).bind quiet_store
  · exact quiet_emitPop _

theorem quiet_finishStatement (call : Node) : Quiet (finishStatement env call) := by
  refine (quiet_emitCall _ _).bind fun _ => ?_
  refine (quiet_forM (fun target => (quiet_require _ _).bind quiet_store) _).bind fun _ => ?_
  refine (quiet_forM quiet_takeBack _).bind fun _ => ?_
  exact Quiet.bind (quiet_modify fun _ => rfl) fun _ => quiet_emitPop _

theorem quiet_finishExpression (call : Node) : Quiet (finishExpression env call) := by
  refine (quiet_emitCall _ _).bind fun _ => Quiet.bind (.still leaves_get) fun g => ?_
  refine (quiet_require _ _).bind fun callable => Quiet.bind (quiet_modify fun _ => rfl) fun _ => ?_
  refine Quiet.bind (.still (leaves_frameIndex _)) fun _ => ?_
  exact (quiet_emitPop _).bind fun _ => quiet_forM quiet_takeBack _

/-! ### What only interning changes -/

/-- The part of the background that is the same in all of a module, but for what is interned. -/
def ground (g : Generator) : (String × Array Value) × Std.TreeMap Value UInt16 × Bool :=
  (g.assembler.heading, g.pool, g.started)

theorem leaves_ground {step : GenM α} (h : Leaves Generator.background step) : Leaves ground step :=
  h.comp fun background => (background.1, background.2.1, background.2.2.2.2)

/-- A step that changes the ground by interning only, and opens prototypes that go by `names`. -/
inductive Grounded : {α : Type} → List (Option String) → GenM α → Prop
  | quiet {α : Type} {step : GenM α} (h : Quiet step) : Grounded [] step
  | modify {f : Generator → Generator}
      (h : ∀ g, ((f g).assembler, ground (f g)) = (g.assembler, ground g)) : Grounded [] (modify f)
  | intern (value : Value) : Grounded [] (intern value)
  | openPrototype (name? : Option String) (usings returnings : UInt8) :
      Grounded [name?] (assemble (Assembler.openPrototype name? usings returnings))
  | close : Grounded [] (assemble Assembler.close)
  | bind {α β : Type} {names more : List (Option String)} {step : GenM β} {next : β → GenM α}
      (h : Grounded names step) (hnext : ∀ b, Grounded more (next b)) :
      Grounded (names ++ more) (step >>= next)

variable {names : List (Option String)}

/-- A property of steps that those have which leave the ground alone, interning has, and sequences
have with their parts. -/
theorem Grounded.holds {step : GenM α} (h : Grounded names step) {P : {α : Type} → GenM α → Prop}
    (hstill : ∀ {α : Type} {step : GenM α}, Leaves ground step → P step)
    (hintern : ∀ value, P (Generation.intern value))
    (hbind : ∀ {α β : Type} {step : GenM β} {next : β → GenM α}, P step → (∀ b, P (next b)) →
      P (step >>= next)) :
    P step := by
  induction h with
  | quiet h => exact hstill (leaves_ground h.leaves)
  | modify h => exact hstill (leaves_modify fun g => congrArg Prod.snd (h g))
  | intern value => exact hintern value
  | openPrototype =>
    exact hstill (leaves_ground (leaves_heading (Assembler.leaves_openPrototype _ _ _)))
  | close => exact hstill (leaves_ground (leaves_heading Assembler.leaves_close))
  | bind _ _ ih ihnext => exact hbind ih ihnext

/-- An invariant of the ground that interning keeps is kept. -/
theorem Grounded.preserves {step : GenM α} (h : Grounded names step) {I : Generator → Prop}
    (hground : ∀ g g', ground g' = ground g → I g → I g')
    (hintern : ∀ value, Preserves I I (Generation.intern value)) :
    Preserves I I step :=
  h.holds (fun hleaves => hleaves.preserves hground fun _ hg => hg) hintern Preserves.bind

theorem grounded_foldlM {f : β → α → GenM β} (h : ∀ b item, Grounded [] (f b item))
    (items : List α) (b : β) :
    Grounded [] (items.foldlM f b) := by
  induction items generalizing b with
  | nil => exact .quiet (.still (leaves_pure b))
  | cons item rest ih =>
    rw [List.foldlM_cons]
    exact (h b item).bind ih

theorem grounded_pushConstant (value : Value) : Grounded [] (pushConstant value) :=
  (Grounded.intern value).bind fun _ => .quiet (quiet_emitPush _)

theorem grounded_pushNumber (n : Node) (text : String) : Grounded [] (pushNumber env n text) := by
  unfold pushNumber
  split
  · exact grounded_pushConstant _
  · exact .quiet (.still (leaves_throw _))

theorem grounded_ifInProcedure {step : GenM Unit} (h : Grounded [] step) :
    Grounded [] (ifInProcedure step) := by
  refine (Grounded.quiet (.still leaves_get)).bind fun g => ?_
  split
  · exact h
  · exact .quiet (.still (leaves_pure _))

theorem grounded_placeField (linkage : Std.TreeMap FieldId UInt16) (id : FieldId) :
    Grounded [] (placeField env linkage id) := by
  refine (Grounded.quiet (quiet_require _ _)).bind fun value => ?_
  cases (env.globals.field id).home with
  | workingStorage =>
    refine .quiet
      ((Quiet.addField value).bind fun index => Quiet.bind (quiet_modify fun _ => rfl) fun _ => ?_)
    exact .still (leaves_pure linkage)
  | linkage => exact (Grounded.intern value).bind fun _ => .quiet (.still (leaves_pure _))

/-- The name by which a program can be called from outside. -/
def outerName? (program : ProgramScope) : Option String :=
  if program.exported then some program.name else none

/-- Opening a program adds a prototype that has its name if it is exported. -/
theorem grounded_openProgram {p : ProgramId} (hbound : env.bindings.program? n = some p) :
    Grounded [outerName? (env.globals.program p)] (openProgram env n) := by
  have hid : (require .boundProgram (some p) : GenM ProgramId) = pure p := rfl
  rw [openProgram, hbound, hid, pure_bind]
  refine (Grounded.quiet (.still (leaves_argumentCount _))).bind fun usings => ?_
  refine (Grounded.quiet (.still (leaves_argumentCount _))).bind fun returnings => ?_
  refine (Grounded.openPrototype _ _ _).bind fun _ => Grounded.bind (.modify ?_) fun _ => ?_
  · exact fun _ => rfl
  refine (grounded_foldlM grounded_placeField _ _).bind fun linkage => ?_
  exact .quiet ((quiet_placeUsings _).bind fun _ => quiet_forM (quiet_placeLocal linkage) _)

/-- Closing a program ends its procedure. -/
theorem grounded_closeProgram : Grounded [] closeProgram := by
  have hclose : Grounded [] (do
      assemble Assembler.close
      modify fun g : Generator => { g with inProcedure := false }) :=
    Grounded.close.bind fun _ => .modify fun _ => rfl
  refine (Grounded.quiet (.still leaves_get)).bind fun g => ?_
  split
  · exact (Grounded.quiet (.emit .ret)).bind fun _ => hclose
  · exact hclose

theorem enter_program (hn : n.payload = .program) :
    (visitor env).enter n = (do openProgram env n; assertOrder env n) := by
  simp only [visitor, hn]

/-- Only modules and programs change which prototypes there are. -/
theorem grounded_enter (hmodule : n.tag ≠ .module) (hprogram : n.payload ≠ .program) :
    Grounded [] ((visitor env).enter n) := by
  unfold visitor
  dsimp only
  split
  · next hpayload => exact absurd (congrArg Payload.tag hpayload) hmodule
  · next hpayload => exact absurd hpayload hprogram
  · exact .modify fun _ => rfl
  · exact .quiet (.pushCallable n)
  · exact .quiet (.pushCallable n)
  · exact .quiet ((quiet_require _ _).bind quiet_load)
  · exact grounded_ifInProcedure (grounded_pushNumber n _)
  · exact grounded_ifInProcedure (grounded_pushConstant _)
  · exact .quiet (.emit _)
  · exact .quiet (.still (leaves_pure _))

/-- Only at a module something else may happen. -/
theorem exists_grounded_enter (hn : n.tag ≠ .module) :
    ∃ names, Grounded names ((visitor env).enter n) := by
  by_cases hprogram : n.payload = .program
  · rw [enter_program hprogram]
    cases hbound : env.bindings.program? n with
    | some p =>
      exact ⟨_, (grounded_openProgram hbound).bind fun _ => .quiet (.still (leaves_assertOrder n))⟩
    | none =>
      have hstop : openProgram env n = throw (.broken .boundProgram) := by
        rw [openProgram, hbound]
        rfl
      rw [hstop]
      exact ⟨_, (Grounded.quiet (.still (leaves_throw _))).bind fun _ =>
        .quiet (.still (leaves_assertOrder n))⟩
  · exact ⟨[], grounded_enter hn hprogram⟩

theorem grounded_leave (n : Node) : Grounded [] ((visitor env).leave n) := by
  unfold visitor
  dsimp only
  split
  · exact .quiet (quiet_finishStatement n)
  · exact .quiet (quiet_finishExpression n)
  · exact grounded_closeProgram
  · exact .quiet (.still (leaves_pure _))

end Generation

end CobolCompiler
