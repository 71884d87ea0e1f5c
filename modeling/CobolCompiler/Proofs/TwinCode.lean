import CobolCompiler.Proofs.TwinCalls

/-!
# The code of one tree in two runs

For the generator, the number of a field or program is only a key: under it the place of the field
is found, or the prototype of the program. Two runs in which the numbers are twins therefore find
the same places and prototypes, and emit the same instructions (`Generator.Twin` between programs,
`Generator.TwinIn` inside of one).

Nothing is asked of the generators that two runs start with. What an earlier run left there is
dropped before it is read: beginning a module drops the one part of it, and opening a program the
other.
-/

namespace CobolCompiler

open Machine

/-- Two generators that have made the same of a module, between two of its programs. -/
structure Generator.Twin (o : Offsets) (g g' : Generator) : Prop where
  assembler_eq : g.assembler = g'.assembler
  pool_eq : g.pool = g'.pool
  prototypes : MapsAlike o.Known Eq g.prototypes g'.prototypes
  started : g.started = true
  started' : g'.started = true

/-- Two generators that have made the same of a program so far. -/
structure Generator.TwinIn (o : Offsets) (g g' : Generator) :
    Prop extends Generator.Twin o g g' where
  slots : MapsAlike o.Fields Eq g.slots g'.slots
  depth_eq : g.depth = g'.depth
  calls_eq : g.calls = g'.calls
  inProcedure_eq : g.inProcedure = g'.inProcedure

/-- Related items of two lists have the same positions. -/
theorem forall₂_zipIdx {α β : Type} {R : α → β → Prop} {as : List α} {bs : List β}
    (h : List.Forall₂ R as bs) (start : Nat) :
    List.Forall₂ (fun a b => R a.1 b.1 ∧ a.2 = b.2) (as.zipIdx start) (bs.zipIdx start) := by
  induction h generalizing start with
  | nil => exact .nil
  | cons hab _ ih => exact .cons ⟨hab, rfl⟩ (ih (start + 1))

namespace Generation

/-- What generation reads is the same in two runs, up to twins. -/
structure Env.Twin (exact : Prop) (o : Offsets) (c c' : ChunkId) (env env' : Env) : Prop where
  calls : CallSite.Env.Twin exact o c c' env.toEnv env'.toEnv
  bindings : CallSite.Env.Bound exact o env.toEnv env'.toEnv env.bindings env'.bindings

section emitting

variable {α : Type} {exact : Prop} {o : Offsets} {I : Generator → Generator → Prop}
variable {f f' : FieldId}

theorem lockstep_assemble_of (hI : ∀ g g', I g g' → g.assembler = g'.assembler)
    (hput : ∀ g g' a, I g g' → I { g with assembler := a } { g' with assembler := a })
    (step : AssembleM α) :
    Lockstep exact I (assemble step) (assemble step) Eq I := by
  intro g g' h
  have heq := hI g g' h
  have hput := fun a => hput g g' a h
  obtain ⟨assembler, pool, prototypes, slots, depth, calls, inProcedure, started⟩ := g
  obtain ⟨assembler', pool', prototypes', slots', depth', calls', inProcedure', started'⟩ := g'
  dsimp only at heq
  subst heq
  unfold Alike assemble
  dsimp only
  cases step assembler with
  | ok a next => exact ⟨rfl, hput next⟩
  | error e next => exact fun _ => rfl

theorem lockstep_assemble (step : AssembleM α) :
    Lockstep exact (Generator.TwinIn o) (assemble step) (assemble step) Eq (Generator.TwinIn o) :=
  lockstep_assemble_of (fun _ _ h => h.assembler_eq) (fun _ _ _ h => { h with assembler_eq := rfl })
    step

theorem lockstep_frameIndex (position : Nat) :
    Lockstep exact I (frameIndex position) (frameIndex position) Eq I := by
  unfold frameIndex
  split
  · exact .pure rfl
  · exact .throw fun _ => rfl

theorem lockstep_argumentCount (n : Nat) :
    Lockstep exact I (argumentCount n) (argumentCount n) Eq I := by
  unfold argumentCount
  split
  · exact .pure rfl
  · exact .throw fun _ => rfl

theorem lockstep_intern (value : Value) :
    Lockstep exact (Generator.TwinIn o) (intern value) (intern value) Eq (Generator.TwinIn o) := by
  unfold intern
  apply Lockstep.get_bind
  intro g g' h
  rw [h.pool_eq]
  cases g'.pool[value]? with
  | some index => exact .pure rfl
  | none =>
    refine .bind (lockstep_assemble _) ?_
    rintro index _ rfl
    refine .bind (J := Generator.TwinIn o) (.modify fun g g' h => { h with pool_eq := ?_ })
      fun _ _ _ => .pure rfl
    rw [h.pool_eq]

theorem lockstep_emit (instruction : Instruction) :
    Lockstep exact (Generator.TwinIn o) (emit instruction) (emit instruction) Eq
      (Generator.TwinIn o) :=
  lockstep_assemble _

theorem lockstep_emitPush (instruction : Instruction) :
    Lockstep exact (Generator.TwinIn o) (emitPush instruction) (emitPush instruction) Eq
      (Generator.TwinIn o) := by
  refine .bind (lockstep_emit instruction) fun _ _ _ => .modify fun g g' h =>
    { h with depth_eq := ?_ }
  rw [h.depth_eq]

theorem lockstep_emitPop (instruction : Instruction) :
    Lockstep exact (Generator.TwinIn o) (emitPop instruction) (emitPop instruction) Eq
      (Generator.TwinIn o) := by
  refine .bind (lockstep_emit instruction) fun _ _ _ => .get_bind fun g g' h => ?_
  rw [h.depth_eq]
  cases g'.depth with
  | zero => exact .throw fun _ => rfl
  | succ depth => exact .modify fun g g' h => { h with depth_eq := rfl }

/-- Twin fields have the same place. -/
theorem lockstep_slotOf (hf : o.Fields f f') :
    Lockstep exact (Generator.TwinIn o) (slotOf f) (slotOf f') Eq (Generator.TwinIn o) :=
  .get_bind fun _ _ h => .require (h.slots f f' hf) .slot

theorem lockstep_load (hf : o.Fields f f') :
    Lockstep exact (Generator.TwinIn o) (load f) (load f') Eq (Generator.TwinIn o) := by
  refine .bind (lockstep_slotOf hf) ?_
  rintro slot _ rfl
  cases slot with
  | field index => exact lockstep_emitPush _
  | frame index => exact lockstep_emitPush _

theorem lockstep_store (hf : o.Fields f f') :
    Lockstep exact (Generator.TwinIn o) (store f) (store f') Eq (Generator.TwinIn o) := by
  refine .bind (lockstep_slotOf hf) ?_
  rintro slot _ rfl
  cases slot with
  | field index => exact lockstep_emitPop _
  | frame index => exact lockstep_emitPop _

theorem lockstep_pushConstant (value : Value) :
    Lockstep exact (Generator.TwinIn o) (pushConstant value) (pushConstant value) Eq
      (Generator.TwinIn o) := by
  refine .bind (lockstep_intern value) ?_
  rintro index _ rfl
  exact lockstep_emitPush _

end emitting

/-! ### Modules and programs -/

section frames

variable {exact : Prop} {o : Offsets} {c c' : ChunkId} {env env' : Env}
variable {linkage linkage' : Std.TreeMap FieldId UInt16}

/-- The programs of a file get the same prototypes. -/
theorem lockstep_indexPrograms {ps ps' : List ProgramId} (h : List.Forall₂ o.Programs ps ps') :
    Lockstep exact (Generator.Twin o) (indexPrograms ps) (indexPrograms ps') Eq
      (Generator.Twin o) := by
  refine .forM (forall₂_zipIdx h 0) ?_
  rintro ⟨p, index⟩ ⟨p', _⟩ ⟨hp, rfl⟩
  dsimp only
  split
  · exact .modify fun g g' h =>
      { h with prototypes := h.prototypes.insert (fun _ _ => hp.eq_iff_known) rfl }
  · exact .throw fun _ => rfl

/-- A module is begun, whatever the generators hold. -/
theorem lockstep_beginModule (henv : Env.Twin exact o c c' env env') (n : Node) :
    Lockstep exact (fun _ _ => True) (beginModule env n) (beginModule env' n) Eq
      (Generator.Twin o) := by
  have hbegin : Lockstep exact (fun _ _ => True) (assemble (Assembler.begin n.name))
      (assemble (Assembler.begin n.name)) Eq fun g g' => g.assembler = g'.assembler :=
    fun _ _ _ => ⟨rfl, rfl⟩
  have hchunk : Option.Rel (fun d d' => d = c ∧ d' = c') env.chunk? env'.chunk? := by
    rw [henv.calls.chunk_eq, henv.calls.chunk_eq']
    exact .some ⟨rfl, rfl⟩
  refine .bind hbegin fun _ _ _ => .bind (J := Generator.Twin o) (.modify fun g g' h => ?_)
    fun _ _ _ => ?_
  · exact ⟨h, rfl, .empty, rfl, rfl⟩
  refine .bind (.require hchunk _) ?_
  rintro _ _ ⟨rfl, rfl⟩
  exact lockstep_indexPrograms henv.calls.globals.programs

theorem lockstep_placeField (h : Globals.Twin o c c' env.globals env'.globals)
    (hlinkage : MapsAlike o.Fields Eq linkage linkage') {f f' : FieldId} (hf : o.Fields f f') :
    Lockstep exact (Generator.TwinIn o) (placeField env linkage f) (placeField env' linkage' f')
      (MapsAlike o.Fields Eq) (Generator.TwinIn o) := by
  have hvalue : Option.Rel Eq (initialValue? (env.globals.field f))
      (initialValue? (env'.globals.field f')) := by
    rw [h.field_eq f f' hf]
    cases initialValue? (env'.globals.field f') with
    | none => exact .none
    | some value => exact .some rfl
  refine .bind (.require hvalue _) ?_
  rintro value _ rfl
  rw [h.field_eq f f' hf]
  split
  · refine .bind (lockstep_assemble _) ?_
    rintro index _ rfl
    exact .bind (J := Generator.TwinIn o)
      (.modify fun g g' h => { h with slots := h.slots.insert (fun _ _ => hf.eq_iff) rfl })
      fun _ _ _ => .pure hlinkage
  · refine .bind (lockstep_intern _) ?_
    rintro index _ rfl
    exact .pure (hlinkage.insert (fun _ _ => hf.eq_iff) rfl)

theorem lockstep_placeUsings {fs fs' : List FieldId} (h : List.Forall₂ o.Fields fs fs') :
    Lockstep exact (Generator.TwinIn o) (placeUsings fs) (placeUsings fs') Eq
      (Generator.TwinIn o) := by
  refine .forM (forall₂_zipIdx h 0) ?_
  rintro ⟨f, position⟩ ⟨f', _⟩ ⟨hf, rfl⟩
  refine .bind (lockstep_frameIndex _) ?_
  rintro index _ rfl
  exact .modify fun g g' h => { h with slots := h.slots.insert (fun _ _ => hf.eq_iff) rfl }

/-- The fields that are pushed on entry are twins. -/
theorem localFields_twin {p p' : ProgramScope} (h : p.Twin o p')
    (hlinkage : MapsAlike o.Fields Eq linkage linkage') :
    List.Forall₂ o.Fields (localFields p linkage) (localFields p' linkage') := by
  apply List.rel_append h.returnings
  refine List.rel_filter ?_ h.fields
  intro f f' hf
  have hcontains : linkage.contains f = linkage'.contains f' := by
    rw [Std.TreeMap.contains_eq_isSome_getElem?, Std.TreeMap.contains_eq_isSome_getElem?,
      hlinkage.eq hf]
  have husings : f ∈ p.usings ↔ f' ∈ p'.usings := by simpa using hf.mem_iff h.usings
  have hreturnings : f ∈ p.returnings ↔ f' ∈ p'.returnings := by simpa using hf.mem_iff h.returnings
  simp [hcontains, husings, hreturnings]

theorem lockstep_placeLocal (hlinkage : MapsAlike o.Fields Eq linkage linkage') {f f' : FieldId}
    (hf : o.Fields f f') :
    Lockstep exact (Generator.TwinIn o) (placeLocal linkage f) (placeLocal linkage' f') Eq
      (Generator.TwinIn o) := by
  refine .bind (.require (hlinkage f f' hf) _) ?_
  rintro constant _ rfl
  refine .bind (lockstep_emit _) fun _ _ _ => .get_bind fun g g' h => ?_
  rw [h.depth_eq]
  refine .bind (lockstep_frameIndex _) ?_
  rintro index _ rfl
  refine .modify fun g g' h =>
    { h with slots := h.slots.insert (fun _ _ => hf.eq_iff) rfl, depth_eq := ?_ }
  rw [h.depth_eq]

/-- A program is opened. What was made of the program before it is dropped. -/
theorem lockstep_openProgram (henv : Env.Twin exact o c c' env env') (n : Node) :
    Lockstep exact (Generator.Twin o) (openProgram env n) (openProgram env' n) Eq
      (Generator.TwinIn o) := by
  refine .bind (.require (henv.bindings.program? n) _) fun p p' hp => ?_
  have hprogram := henv.calls.globals.program p p' hp
  have husings : (env.globals.program p).usings.size = (env'.globals.program p').usings.size := by
    simpa using hprogram.usings.length_eq
  have hreturnings : (env.globals.program p).returnings.size =
      (env'.globals.program p').returnings.size := by
    simpa using hprogram.returnings.length_eq
  dsimp only
  rw [husings, hreturnings, hprogram.exported_eq, hprogram.name_eq]
  refine .bind (lockstep_argumentCount _) ?_
  rintro usings _ rfl
  refine .bind (lockstep_argumentCount _) ?_
  rintro returnings _ rfl
  refine .bind (lockstep_assemble_of (fun _ _ h => h.assembler_eq)
    (fun _ _ _ h => { h with assembler_eq := rfl }) _) fun _ _ _ => ?_
  refine .bind (J := Generator.TwinIn o) (.modify fun g g' h => ?_) fun _ _ _ => ?_
  · exact ⟨⟨h.assembler_eq, h.pool_eq, h.prototypes, h.started, h.started'⟩, .empty, rfl, rfl, rfl⟩
  refine .bind (R := MapsAlike o.Fields Eq) (.foldlM hprogram.fields .empty ?_)
    fun linkage linkage' hlinkage => ?_
  · intro f f' linkage linkage' hf hlinkage
    exact lockstep_placeField henv.calls.globals hlinkage hf
  refine .bind (lockstep_placeUsings hprogram.usings) fun _ _ _ => ?_
  exact .forM (localFields_twin hprogram hlinkage) fun f f' hf => lockstep_placeLocal hlinkage hf

/-- The program that is open has the same number in both runs. -/
theorem lockstep_assertOrder (henv : Env.Twin exact o c c' env env') (n : Node) :
    Lockstep exact (Generator.TwinIn o) (assertOrder env n) (assertOrder env' n) Eq
      (Generator.TwinIn o) := by
  refine .get_bind fun g g' h => ?_
  have hknown : (env.bindings.program? n).bind (g.prototypes[·]?) =
      (env'.bindings.program? n).bind (g'.prototypes[·]?) := by
    have hbound := henv.bindings.program? n
    generalize env.bindings.program? n = p? at hbound ⊢
    generalize env'.bindings.program? n = p?' at hbound ⊢
    cases hbound with
    | none => rfl
    | some hp => exact h.prototypes.eq (Or.inl hp)
  rw [hknown, h.assembler_eq]
  split
  · exact .throw fun _ => rfl
  · exact .pure rfl

theorem lockstep_closeProgram :
    Lockstep exact (Generator.TwinIn o) closeProgram closeProgram Eq (Generator.Twin o) := by
  have hclose : Lockstep exact (Generator.TwinIn o)
      (do assemble Assembler.close; modify fun g => { g with inProcedure := false })
      (do assemble Assembler.close; modify fun g => { g with inProcedure := false }) Eq
      (Generator.Twin o) :=
    .bind (lockstep_assemble _) fun _ _ _ => .modify fun g g' h =>
      ⟨h.assembler_eq, h.pool_eq, h.prototypes, h.started, h.started'⟩
  refine .get_bind fun g g' h => ?_
  rw [h.assembler_eq]
  split
  · exact .bind (lockstep_emit _) fun _ _ _ => hclose
  · exact hclose

end frames

/-! ### Calls -/

section calls

variable {exact : Prop} {o : Offsets} {c c' : ChunkId} {env env' : Env}
variable (henv : Env.Twin exact o c c' env env')

include henv

theorem lockstep_boundField (n : Node) :
    Lockstep exact (Generator.TwinIn o) (boundField env n) (boundField env' n) o.Fields
      (Generator.TwinIn o) :=
  .require (henv.bindings.field? n) _

/-- A call of another module names it in both runs, and a call within the file has the same
prototype. -/
theorem lockstep_callableOf (call : Node) :
    Lockstep exact (Generator.TwinIn o) (callableOf env call) (callableOf env' call) Eq
      (Generator.TwinIn o) := by
  refine .bind (.require (henv.bindings.callee? call) _) fun q q' hq => ?_
  split
  · dsimp only
    rw [hq.module_eq, hq.name_eq]
    refine .bind (lockstep_assemble _) ?_
    rintro index _ rfl
    exact .pure rfl
  · refine .get_bind fun g g' h => .bind (.require (h.prototypes q q' hq.known) _) ?_
    rintro index _ rfl
    exact .pure rfl

theorem lockstep_pushCallable (call : Node) :
    Lockstep exact (Generator.TwinIn o) (pushCallable env call) (pushCallable env' call) Eq
      (Generator.TwinIn o) := by
  refine .bind (lockstep_callableOf henv call) ?_
  rintro instruction _ rfl
  refine .bind (J := Generator.TwinIn o) (.modify fun g g' h => { h with calls_eq := ?_ })
    fun _ _ _ => lockstep_emitPush _
  rw [h.calls_eq, h.depth_eq]

theorem lockstep_pushNumber (n : Node) (text : String) :
    Lockstep exact (Generator.TwinIn o) (pushNumber env n text) (pushNumber env' n text) Eq
      (Generator.TwinIn o) := by
  unfold pushNumber
  rw [henv.bindings.param? n]
  split
  · exact lockstep_pushConstant _
  · exact .throw fun hexact => by rw [henv.calls.file_eq hexact]

omit henv in
theorem lockstep_emitCall (usings returnings : Nat) :
    Lockstep exact (Generator.TwinIn o) (emitCall usings returnings) (emitCall usings returnings) Eq
      (Generator.TwinIn o) := by
  refine .bind (lockstep_argumentCount _) ?_
  rintro usings _ rfl
  refine .bind (lockstep_argumentCount _) ?_
  rintro count _ rfl
  refine .bind (lockstep_emit _) fun _ _ _ => .modify fun g g' h => { h with depth_eq := ?_ }
  rw [h.depth_eq]

theorem lockstep_storeBound (n : Node) :
    Lockstep exact (Generator.TwinIn o) (do store (← boundField env n))
      (do store (← boundField env' n)) Eq (Generator.TwinIn o) :=
  .bind (lockstep_boundField henv n) fun _ _ hf => lockstep_store hf

theorem lockstep_takeBack (argument : Node) :
    Lockstep exact (Generator.TwinIn o) (takeBack env argument) (takeBack env' argument) Eq
      (Generator.TwinIn o) := by
  unfold takeBack
  split
  · exact lockstep_storeBound henv argument
  · exact lockstep_emitPop _

theorem lockstep_finishStatement (call : Node) :
    Lockstep exact (Generator.TwinIn o) (finishStatement env call) (finishStatement env' call) Eq
      (Generator.TwinIn o) := by
  refine .bind (lockstep_emitCall _ _) fun _ _ _ => ?_
  refine .bind (.forM (R := Eq) (List.forall₂_refl _) ?_) fun _ _ _ => ?_
  · rintro target _ rfl
    exact lockstep_storeBound henv target
  refine .bind (.forM (R := Eq) (List.forall₂_refl _) ?_) fun _ _ _ => ?_
  · rintro argument _ rfl
    exact lockstep_takeBack henv argument
  refine .bind (J := Generator.TwinIn o) (.modify fun g g' h => { h with calls_eq := ?_ })
    fun _ _ _ => lockstep_emitPop _
  rw [h.calls_eq]

theorem lockstep_finishExpression (call : Node) :
    Lockstep exact (Generator.TwinIn o) (finishExpression env call) (finishExpression env' call) Eq
      (Generator.TwinIn o) := by
  refine .bind (lockstep_emitCall _ _) fun _ _ _ => .get_bind fun g g' h => ?_
  rw [h.calls_eq]
  have hhead : Option.Rel Eq g'.calls.head? g'.calls.head? := by
    cases g'.calls.head? with
    | none => exact .none
    | some depth => exact .some rfl
  refine .bind (.require hhead _) ?_
  rintro callable _ rfl
  refine .bind (J := Generator.TwinIn o) (.modify fun g g' h => { h with calls_eq := ?_ })
    fun _ _ _ => ?_
  · rw [h.calls_eq]
  refine .bind (lockstep_frameIndex _) ?_
  rintro index _ rfl
  refine .bind (lockstep_emitPop _) fun _ _ _ => .forM (R := Eq) (List.forall₂_refl _) ?_
  rintro argument _ rfl
  exact lockstep_takeBack henv argument

omit henv in
theorem lockstep_ifInProcedure {step step' : GenM Unit}
    (h : Lockstep exact (Generator.TwinIn o) step step' Eq (Generator.TwinIn o)) :
    Lockstep exact (Generator.TwinIn o) (ifInProcedure step) (ifInProcedure step') Eq
      (Generator.TwinIn o) := by
  refine .get_bind fun g g' hg => ?_
  rw [hg.inProcedure_eq]
  split
  · exact h
  · exact .pure rfl

end calls

/-! ### The walk -/

section walk

variable {exact : Prop} {o : Offsets} {c c' : ChunkId} {env env' : Env}
variable {run run' : Run}

/-- Below the node of a program, the same code is emitted in both runs. -/
theorem lockstep_walk_below (henv : Env.Twin exact o c c' env env') (shape : ProgramShape) :
    Lockstep exact (Generator.TwinIn o) ((visitor env).walkAll shape.node.children)
      ((visitor env').walkAll shape.node.children) Eq (Generator.TwinIn o) := by
  apply Visitor.lockstep_walkAll
  · intro n hn m hm
    obtain ⟨hmodule, hprogram⟩ := shape.tag_below hn hm
    obtain ⟨id, payload, location, children⟩ := m
    cases payload
    case module => exact absurd rfl hmodule
    case program => exact absurd rfl hprogram
    case procedureDivision => exact .modify fun g g' h => { h with inProcedure_eq := rfl }
    case callStatement => exact lockstep_pushCallable henv _
    case callExpression => exact lockstep_pushCallable henv _
    case callUsingId name byContent =>
      exact .bind (lockstep_boundField henv _) fun _ _ hf => lockstep_load hf
    case numberLiteral text => exact lockstep_ifInProcedure (lockstep_pushNumber henv _ text)
    case stringLiteral text => exact lockstep_ifInProcedure (lockstep_pushConstant _)
    case gobackStatement => exact lockstep_emit _
    all_goals exact .pure rfl
  · intro n hn m hm
    have hprogram := (shape.tag_below hn hm).2
    obtain ⟨id, payload, location, children⟩ := m
    cases payload
    case program => exact absurd rfl hprogram
    case callStatement => exact lockstep_finishStatement henv _
    case callExpression => exact lockstep_finishExpression henv _
    all_goals exact .pure rfl

theorem lockstep_walk_program (henv : Env.Twin exact o c c' env env') (shape : ProgramShape) :
    Lockstep exact (Generator.Twin o) ((visitor env).walk shape.node)
      ((visitor env').walk shape.node) Eq (Generator.Twin o) := by
  rw [Visitor.walk_eq, Visitor.walk_eq]
  refine .bind (.bind (lockstep_openProgram henv _) fun _ _ _ => lockstep_assertOrder henv _)
    fun _ _ _ => ?_
  exact .bind (lockstep_walk_below henv shape) fun _ _ _ => lockstep_closeProgram

/-- A module has the same code in both runs. -/
theorem lockstep_visit (henv : Env.Twin exact o c c' env env') (m : ModuleShape) :
    Lockstep exact (fun _ _ => True) ((visitor env).visit m.node) ((visitor env').visit m.node) Eq
      (Generator.Twin o) := by
  have hname : ∀ env : Env, (visitor env).InertOn [.identifier] :=
    fun env n hn => visitor_headings env n (by simp_all [headingTags])
  rw [Visitor.visit_module m (hname env) rfl rfl, Visitor.visit_module m (hname env') rfl rfl]
  refine .bind (lockstep_beginModule henv _) fun _ _ _ => .forM (R := Eq) (List.forall₂_refl _) ?_
  rintro shape _ rfl
  exact lockstep_walk_program henv shape

/-- Writing the output changes nothing but files. -/
theorem keeps_writeOutput (run : Run) :
    Ensures writeOutput run (fun _ t => t.memory = run.memory) (fun _ _ => True) := by
  unfold writeOutput
  rw [ensures_bind, ensures_get]
  split
  · split
    · rfl
    · trivial
  · rfl

theorem alike_writeOutput
    (hbuilt : run.memory.generator.assembler = run'.memory.generator.assembler)
    (houtput : exact → run.output? = run'.output?)
    (hwrites : exact → ∀ path, run.output? = some path →
      ∀ content, SameWrite (run.files.write path content) (run'.files.write path content)) :
    Alike exact writeOutput writeOutput run run' fun _ t _ t' => t.memory = run.memory ∧
      t'.memory = run'.memory := by
  by_cases hexact : exact
  swap
  · exact alike_of_ensures hexact (keeps_writeOutput run) (keeps_writeOutput run')
  unfold writeOutput
  rw [alike_get_bind, ← houtput hexact, ← hbuilt]
  have hwrites := hwrites hexact
  cases hpath : run.output? with
  | none => exact ⟨rfl, rfl⟩
  | some path =>
    have hwrite := hwrites path hpath run.memory.generator.assembler.built.toBytes
    dsimp only
    cases hw : run.files.write path run.memory.generator.assembler.built.toBytes with
    | ok files =>
      cases hw' : run'.files.write path run.memory.generator.assembler.built.toBytes with
      | ok files' => exact ⟨rfl, rfl⟩
      | error e' => rw [hw, hw'] at hwrite; exact hwrite.elim
    | error e =>
      cases hw' : run'.files.write path run.memory.generator.assembler.built.toBytes with
      | ok files' => rw [hw, hw'] at hwrite; exact hwrite.elim
      | error e' =>
        rw [hw, hw'] at hwrite
        exact alike_stop rfl rfl fun _ => by rw [show e = e' from hwrite]

/-- Once a module is written, handing it over cannot fail. -/
theorem ensures_handOver (run : Run) :
    Ensures (do
        let product ← onGenerator (assemble Assembler.finish)
        modify fun run => { run with product? := some product }
        onGenerator (modify forget)) run
      (fun _ t => t.product? = some run.memory.generator.assembler.built) (fun _ _ => False) := by
  simp only [ensures_bind, onGenerator, ensures_onPart, ensures_modify]
  rfl

theorem alike_finish (h : Generator.Twin o run.memory.generator run'.memory.generator)
    (houtput : exact → run.output? = run'.output?)
    (hwrites : exact → ∀ path, run.output? = some path →
      ∀ content, SameWrite (run.files.write path content) (run'.files.write path content)) :
    Alike exact finish finish run run' fun _ t _ t' => t.product? = t'.product? := by
  unfold finish
  rw [alike_get_bind, if_pos h.started, if_pos h.started']
  apply alike_bind
  unfold onGenerator
  rw [alike_onPart, alike_modify]
  apply alike_bind
  refine Alike.mono (alike_writeOutput ?_ ?_ ?_) ?_
  · exact h.assembler_eq
  · exact houtput
  · exact hwrites
  rintro _ t _ t' ⟨hmemory, hmemory'⟩
  refine (alike_of_total (ensures_handOver t) (ensures_handOver t')).mono ?_
  rintro _ u _ u' ⟨hu, hu'⟩
  rw [hu, hu', hmemory, hmemory']
  exact congrArg (some ·.built) h.assembler_eq

/-- Generation yields the same module in both runs. -/
theorem alike_generate
    (h : Run.Twin exact o c c' (Callable exact o run.globals run'.globals) run run')
    (m : ModuleShape) :
    Alike exact (generate m.node) (generate m.node) run run' fun _ t _ t' =>
      t.product? = t'.product? := by
  have henv : Env.Twin exact o c c' (envOf run) (envOf run') :=
    ⟨CallSite.Env.twin_ofRun h, h.bindings⟩
  apply alike_bind
  rw [alike_get_bind]
  apply alike_bind
  unfold onGenerator
  rw [alike_onPart]
  refine (lockstep_visit henv m _ _ trivial).mono ?_
  rintro _ g _ g' ⟨-, hg⟩
  refine Alike.mono (alike_finish (o := o) ?_ ?_ ?_) fun _ _ _ _ heq => heq
  · exact hg
  · exact h.output_eq
  · exact h.writes

/-- The passes after declaring yield the same module in both runs, if the calls of the tree mean
programs that are the same for a caller. -/
theorem alike_compiling (h : Run.Twin exact o c c' (fun _ _ => False) run run') {m : ModuleShape}
    (hunique : m.node.UniqueIds) (hfree : ∀ x ∈ m.node.ids, x < run.nextId)
    (hcalls : ∀ lowered, CallSite.LowersModule m lowered → ∀ shape ∈ lowered.programs,
      ∀ n ∈ shape.nodes, n.payload = .callStatement ∨ n.payload = .callExpression → CallSite.Relates
      exact (Callable exact o run.globals run'.globals) c c' run.globals run'.globals n) :
    Alike exact (runAll (Pass.core.drop 3) m.node)
      (runAll (Pass.core.drop 3) m.node) run run'
      fun _ t _ t' => t.product? = t'.product? := by
  have hpasses : runAll (Pass.core.drop 3) m.node = (do
      let root ← CallSite.lowerDisplay m.node
      let root ← CallSite.callPasses root
      let root ← reverseArguments root
      generate root) := by
    have hsplit : Pass.core.drop 3 = (Pass.core.drop 3).take 4 ++ Pass.core.drop 7 := rfl
    rw [hsplit, runAll_append, CallSite.runAll_callPasses, bind_assoc]
    change (_ >>= fun root => CallSite.callPasses root >>= fun root => pure root >>= fun root =>
      reverseArguments root >>= fun root => generate root >>= pure) = _
    simp only [pure_bind, bind_pure]
  have hfree' : ∀ x ∈ m.node.ids, x < run'.nextId := h.nextId_eq ▸ hfree
  rw [hpasses]
  apply alike_bind
  refine ((CallSite.alike_lowerDisplay h m.node).with (CallSite.ensures_lowerDisplay m run hunique
    hfree) (CallSite.ensures_lowerDisplay m run' hunique hfree')).mono ?_
  -- lowering gives one tree in both runs, for which the calls are related
  rintro _ r _ r' ⟨⟨rfl, hglobals, hglobals', hr⟩, ⟨lowered, rfl, hlowers, -⟩, -⟩
  rw [← hglobals, ← hglobals'] at hcalls
  apply alike_bind
  refine (CallSite.alike_callPasses hr lowered (hcalls lowered hlowers)).mono ?_
  rintro _ u _ u' ⟨rfl, rfl, hglobals, hglobals', hu⟩
  rw [← hglobals, ← hglobals'] at hu
  apply alike_bind
  refine (alike_of_total (ensures_reverseArguments lowered u)
    (ensures_reverseArguments lowered u')).mono ?_
  rintro _ _ _ _ ⟨⟨rfl, rfl⟩, rfl, rfl⟩
  exact alike_generate hu lowered.reversed

end walk

end Generation

end CobolCompiler
