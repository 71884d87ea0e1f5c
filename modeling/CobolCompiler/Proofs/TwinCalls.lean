import CobolCompiler.Proofs.Compilation
import CobolCompiler.Proofs.Twins

/-!
# The calls of one tree in two runs

Two runs over one tree resolve its calls to programs that a caller cannot tell apart (`Callable`):
twins, or programs of other files that look the same. Then arguments have the same types in both
runs, the same calls are accepted, and the same is known about the arguments of each.

Where the two runs may stop at different points, only the parameters of the called programs have to
agree. The types of results matter for what is accepted, but not for what comes out.
-/

namespace CobolCompiler

/-! ### Called programs -/

/-- Two fields are the same for a caller. -/
structure SameParameter (exact : Prop) (g g' : Globals) (f f' : FieldId) : Prop where
  type_eq : (g.field f).type = (g'.field f').type
  location_eq : exact → (g.field f).location = (g'.field f').location

/-- Two programs are the same for a caller. They are twins, or both come from other files. -/
structure Callable (exact : Prop) (o : Offsets) (g g' : Globals) (q q' : ProgramId) : Prop where
  usings : List.Forall₂ (SameParameter exact g g') (g.program q).usings.toList
    (g'.program q').usings.toList
  returnings : exact → List.Forall₂ (SameParameter exact g g') (g.program q).returnings.toList
    (g'.program q').returnings.toList
  name_eq : (g.program q).name = (g'.program q').name
  module_eq : (g.module (g.chunk (g.program q).owner).owner).name =
    (g'.module (g'.chunk (g'.program q').owner).owner).name
  home_eq : exact → (g.chunk (g.program q).owner).name = (g'.chunk (g'.program q').owner).name
  known : o.Known q q'

/-- What a qualified name stands for in two scopes is related. For an exact comparison, it stands
for something in both or in neither. -/
structure ExportsAlike (exact : Prop) (C : ProgramId → ProgramId → Prop) (g g' : Globals)
    (owner name : String) : Prop where
  module_iff : exact → ((g.module? owner).isSome ↔ (g'.module? owner).isSome)
  program_iff : exact → ((g.exported? owner name).isSome ↔ (g'.exported? owner name).isSome)
  related : ∀ q q', g.exported? owner name = some q → g'.exported? owner name = some q' → C q q'

/-- Twin runs in which only the bindings and what the passes keep are changed. -/
theorem Run.Twin.bind {exact : Prop} {o : Offsets} {c c' : ChunkId}
    {C C' : ProgramId → ProgramId → Prop} {run run' : Run} (h : Run.Twin exact o c c' C run run')
    {b b' : Bindings} (hbindings : Bindings.Twin exact o C' b b') (memory memory' : Memory) :
    Run.Twin exact o c c' C' { run with bindings := b, memory }
      { run' with bindings := b', memory := memory' } :=
  ⟨h.file_eq, h.output_eq, h.writes, h.nextId_eq, h.globals, hbindings, h.chunk_eq, h.chunk_eq'⟩

namespace CallSite

/-- What the call passes read is the same in two runs, up to twins. -/
structure Env.Twin (exact : Prop) (o : Offsets) (c c' : ChunkId) (env env' : Env) : Prop where
  file_eq : exact → env.file = env'.file
  globals : Globals.Twin o c c' env.globals env'.globals
  chunk_eq : env.chunk? = some c
  chunk_eq' : env'.chunk? = some c'

/-- Bindings in which callees are the same for the callers of two runs. -/
def Env.Bound (exact : Prop) (o : Offsets) (env env' : Env) : Bindings → Bindings → Prop :=
  Bindings.Twin exact o (Callable exact o env.globals env'.globals)

section resolution

variable {exact : Prop} {o : Offsets} {c c' : ChunkId} {C : ProgramId → ProgramId → Prop}
  {env env' : Env}
variable (henv : Env.Twin exact o c c' env env')

include henv

/-- The programs that a call can mean in the two runs are related. -/
structure Relates (exact : Prop) (C : ProgramId → ProgramId → Prop) (c c' : ChunkId)
    (g g' : Globals) (call : Node) : Prop where
  own : ∀ name q q', g.chunkProgram? c name = some q → g'.chunkProgram? c' name = some q' → C q q'
  qualified : ∀ owner location, (calleeName call).module? = some (owner, location) →
    ExportsAlike exact C g g' owner (calleeName call).program

theorem alike_resolveCallee {σ τ : Type} {s : σ} {t : τ} {call : Node}
    (hcall : Relates exact C c c' env.globals env'.globals call) :
    Alike exact (resolveCallee env call) (resolveCallee env' call) s t
      fun q s₁ q' t₁ => C q q' ∧ s₁ = s ∧ t₁ = t := by
  unfold resolveCallee
  dsimp only
  cases hname : (calleeName call).module? with
  | some qualifier =>
    obtain ⟨owner, location⟩ := qualifier
    obtain ⟨hmodule, hprogram, hrelated⟩ := hcall.qualified owner location hname
    unfold Globals.exported? at hprogram hrelated
    dsimp only
    refine alike_lookup hmodule (fun hm => by rw [hm]; rfl) (fun hm' => by rw [hm']; rfl)
      (fun hexact => by rw [henv.file_eq hexact]) ?_
    intro m m' hm hm'
    rw [hm, hm'] at hprogram hrelated ⊢
    dsimp only [Option.bind_some] at hprogram hrelated ⊢
    refine alike_lookup hprogram (fun hq => by rw [hq]; rfl) (fun hq' => by rw [hq']; rfl)
      (fun hexact => by rw [henv.file_eq hexact]) ?_
    intro q q' hq hq'
    rw [hq, hq']
    exact ⟨hrelated q q' hq hq', rfl, rfl⟩
  | none =>
    dsimp only
    have hchunk : Option.Rel (fun d d' => d = c ∧ d' = c') env.chunk? env'.chunk? := by
      rw [henv.chunk_eq, henv.chunk_eq']
      exact .some ⟨rfl, rfl⟩
    apply alike_bind
    apply alike_require hchunk
    rintro _ _ ⟨rfl, rfl⟩
    have hnamed := henv.globals.named (calleeName call).program
    have hown := hcall.own (calleeName call).program
    -- the two lookups, now related as options and no longer as calls
    generalize env.globals.chunkProgram? _ (calleeName call).program = found at hnamed hown ⊢
    generalize env'.globals.chunkProgram? _ (calleeName call).program = found' at hnamed hown ⊢
    cases hnamed with
    | none => exact alike_stop rfl rfl fun hexact => by rw [henv.file_eq hexact]
    | some hp => exact ⟨hown _ _ rfl rfl, rfl, rfl⟩

variable {s' s : State}

variable (h : Bindings.Twin exact o C s.bindings s'.bindings)

include h

theorem alike_resolveCall (hprogram : Option.Rel o.Programs s.program? s'.program?) {call : Node}
    (hcall : Relates exact C c c' env.globals env'.globals call) :
    Alike exact (resolveCall env call) (resolveCall env' call) s s' fun _ t _ t' =>
      Bindings.Twin exact o C t.bindings t'.bindings ∧
        Option.Rel o.Programs t.program? t'.program? := by
  unfold resolveCall
  apply alike_bind
  apply (alike_resolveCallee henv hcall).mono
  rintro q _ q' _ ⟨hq, rfl, rfl⟩
  rw [alike_modify_bind]
  cases repeated? ∅ (writtenNames call) with
  | none => exact ⟨h.bindCallee call hq, hprogram⟩
  | some found => exact alike_stop rfl rfl fun hexact => by rw [henv.file_eq hexact]

theorem alike_resolveField (hprogram : Option.Rel o.Programs s.program? s'.program?) (name : String)
    (n : Node) :
    Alike exact (resolveField env name n) (resolveField env' name n) s s' fun _ t _ t' =>
      Bindings.Twin exact o C t.bindings t'.bindings ∧
        Option.Rel o.Programs t.program? t'.program? := by
  have hfield : Option.Rel o.Fields (s.program?.bind fun p => (env.globals.program p).field? name)
      (s'.program?.bind fun p => (env'.globals.program p).field? name) := by
    generalize s.program? = p at hprogram ⊢
    generalize s'.program? = p' at hprogram ⊢
    cases hprogram with
    | none => exact .none
    | some hp => exact (henv.globals.program _ _ hp).field? name
  unfold resolveField
  rw [alike_get_bind]
  generalize (s.program?.bind fun p => (env.globals.program p).field? name) = found at hfield ⊢
  generalize (s'.program?.bind fun p => (env'.globals.program p).field? name) = found' at hfield ⊢
  cases hfield with
  | none => exact alike_stop rfl rfl fun hexact => by rw [henv.file_eq hexact]
  | some hf => exact ⟨h.bindField n hf, hprogram⟩

theorem alike_walk_resolver (shape : ProgramShape)
    (hcalls : ∀ n ∈ shape.nodes, n.payload = .callStatement ∨ n.payload = .callExpression →
      Relates exact C c c' env.globals env'.globals n) :
    Alike exact ((resolver env).walk shape.node) ((resolver env').walk shape.node) s s'
      fun _ t _ t' => Bindings.Twin exact o C t.bindings t'.bindings := by
  rw [Visitor.walk_program shape fun n hn => resolver_inert env n (List.mem_cons_of_mem _ hn),
    Visitor.walk_program shape fun n hn => resolver_inert env' n (List.mem_cons_of_mem _ hn),
    walkAll_resolver, walkAll_resolver]
  apply alike_bind
  change Alike exact (shape.nodes.forM (resolver env).enter >>= fun _ =>
    (resolver env).leave shape.node)
    (shape.nodes.forM (resolver env').enter >>= fun _ => (resolver env').leave shape.node)
    { s with program? := s.bindings.program? shape.node }
    { s' with program? := s'.bindings.program? shape.node } _
  apply alike_bind
  -- within the program, its calls are resolved one by one
  refine Alike.mono (alike_forM_same (I := fun t t' : State =>
    Bindings.Twin exact o C t.bindings t'.bindings ∧ Option.Rel o.Programs t.program? t'.program?)
    ⟨h, h.program? shape.node⟩ ?_)
    fun _ _ _ _ ht => ht.1
  rintro n hn t t' ⟨ht, hprogram⟩
  have htag := ProgramShape.tag_ne_program hn
  have hcall := hcalls n hn
  obtain ⟨id, payload, location, children⟩ := n
  cases payload
  case program => exact absurd rfl htag
  case callStatement => exact alike_resolveCall henv ht hprogram (hcall (.inl rfl))
  case callExpression => exact alike_resolveCall henv ht hprogram (hcall (.inr rfl))
  case callUsingId name _ => exact alike_resolveField henv ht hprogram name _
  case callReturningId name => exact alike_resolveField henv ht hprogram name _
  all_goals exact ⟨ht, hprogram⟩

/-- All calls of a module mean related programs, and all its names stand for twins. -/
theorem alike_visit_resolver (m : ModuleShape)
    (hcalls : ∀ shape ∈ m.programs, ∀ n ∈ shape.nodes, n.payload = .callStatement ∨
      n.payload = .callExpression → Relates exact C c c' env.globals env'.globals n) :
    Alike exact ((resolver env).visit m.node) ((resolver env').visit m.node) s s' fun _ t _ t' =>
      Bindings.Twin exact o C t.bindings t'.bindings := by
  rw [Visitor.visit_module m (fun n hn => resolver_inert env n (by simp_all)) rfl rfl,
    Visitor.visit_module m (fun n hn => resolver_inert env' n (by simp_all)) rfl rfl]
  apply alike_bind
  refine alike_forM_same (I := fun t t' : State => Bindings.Twin exact o C t.bindings t'.bindings) h
    ?_
  intro shape hshape t t' ht
  exact alike_walk_resolver henv ht shape (hcalls shape hshape)

end resolution

/-! ### Types of arguments -/

section types

variable {exact : Prop} {o : Offsets} {c c' : ChunkId} {C : ProgramId → ProgramId → Prop}
  {env env' : Env} {b b' : Bindings}

/-- Finding out a type changes nothing. -/
theorem keeps_argumentType (env : Env) (a : Node) (b : Bindings) :
    Ensures (argumentType env a) b (fun _ t => t = b) (fun _ _ => True) := by
  unfold argumentType
  split
  · simp only [ensures_bind, ensures_get, ensures_require]
    exact ⟨fun _ _ => rfl, fun _ => trivial⟩
  · rfl
  · rfl
  · simp only [ensures_bind, ensures_get, ensures_require]
    refine ⟨fun callee _ => ?_, fun _ => trivial⟩
    split
    · rfl
    · trivial
  · trivial

variable (henv : Env.Twin exact o c c' env env') (h : Env.Bound exact o env env' b b')

include henv h

theorem alike_argumentType (a : Node) :
    Alike exact (argumentType env a) (argumentType env' a) b b' fun type t type' t' =>
      (exact → type = type') ∧ t = b ∧ t' = b' := by
  -- without an exact comparison nothing is asked of the types
  by_cases hexact : exact
  swap
  · exact (alike_of_ensures hexact (keeps_argumentType env a b) (keeps_argumentType env' a b')).mono
      fun _ _ _ _ ht => ⟨fun hexact' => absurd hexact' hexact, ht⟩
  have hfile := henv.file_eq hexact
  unfold argumentType
  obtain ⟨id, payload, location, children⟩ := a
  cases payload
  case callUsingId name byContent =>
    rw [alike_get_bind]
    apply alike_bind
    apply alike_require (h.field? _)
    intro f f' hf
    rw [alike_pure, henv.globals.field_eq f f' hf]
    exact ⟨fun _ => rfl, rfl, rfl⟩
  case callExpression =>
    rw [alike_get_bind]
    apply alike_bind
    apply alike_require (h.callee? _)
    intro q q' hq
    dsimp only
    have hreturnings := hq.returnings hexact
    rw [← Array.getElem?_toList, ← Array.getElem?_toList]
    generalize (env.globals.program q).returnings.toList = rs at hreturnings ⊢
    generalize (env'.globals.program q').returnings.toList = rs' at hreturnings ⊢
    cases hreturnings with
    | nil => exact alike_stop rfl rfl fun _ => by rw [hfile, hq.name_eq]
    | cons hfirst _ => exact ⟨fun _ => congrArg ArgumentType.usage hfirst.type_eq, rfl, rfl⟩
  case numberLiteral text => exact ⟨fun _ => rfl, rfl, rfl⟩
  case stringLiteral text => exact ⟨fun _ => rfl, rfl, rfl⟩
  all_goals exact alike_stop rfl rfl fun _ => by rw [hfile]

theorem alike_noteType (a : Node) :
    Alike exact (noteType env a) (noteType env' a) b b' fun _ t _ t' =>
      Env.Bound exact o env env' t t' := by
  unfold noteType
  apply alike_bind
  apply (alike_argumentType henv h a).mono
  rintro type _ type' _ ⟨htype, rfl, rfl⟩
  exact h.setType a htype

theorem alike_visit_typer (root : Node) :
    Alike exact ((typer env).visit root) ((typer env').visit root) b b' fun _ t _ t' =>
      Env.Bound exact o env env' t t' := by
  apply alike_bind
  refine (Visitor.alike_walk (I := Env.Bound exact o env env') ?_ ?_ h).mono fun _ _ _ _ ht => ht
  swap
  · exact fun _ _ _ _ ht => ht
  intro n _ t t' ht
  obtain ⟨id, payload, location, children⟩ := n
  cases payload
  case callUsings =>
    apply alike_forM_same ht
    intro a _ u u' hu
    exact alike_noteType henv hu a
  all_goals exact ht

end types

/-! ### Signatures -/

section signatures

variable {exact : Prop} {o : Offsets} {c c' : ChunkId} {C : ProgramId → ProgramId → Prop}
  {env env' : Env} {b b' : Bindings}

/-- Numbered nodes with parameters that are the same for a caller. -/
structure SamePair (exact : Prop) (x x' : Nat × Node × Field) : Prop where
  position_eq : x.1 = x'.1
  node_eq : x.2.1 = x'.2.1
  type_eq : x.2.2.type = x'.2.2.type
  location_eq : exact → x.2.2.location = x'.2.2.location

theorem pairs_alike {g g' : Globals} (nodes : List Node) {fs fs' : Array FieldId}
    (h : List.Forall₂ (SameParameter exact g g') fs.toList fs'.toList) :
    List.Forall₂ (SamePair exact) (pairs g nodes fs) (pairs g' nodes fs') := by
  unfold pairs
  generalize fs.toList = fs at h ⊢
  generalize fs'.toList = fs' at h ⊢
  -- for the induction, the numbering may begin anywhere
  generalize 0 = start
  induction h generalizing nodes start with
  | nil => simp
  | cons hf _ ih =>
    cases nodes with
    | nil => exact .nil
    | cons n rest => exact .cons ⟨rfl, rfl, hf.type_eq, hf.location_eq⟩ (ih rest (start + 1))

theorem keeps_checkArgument (env : Env) (home : String) (position : Nat) (a : Node) (param : Field)
    (b : Bindings) :
    Ensures (checkArgument env home position a param) b (fun _ t => t = b) (fun _ _ => True) := by
  unfold checkArgument
  simp only [ensures_bind, ensures_get, ensures_require]
  refine ⟨fun found _ => ?_, fun _ => trivial⟩
  split
  · trivial
  · rfl

theorem keeps_checkReturning (env : Env) (home : String) (position : Nat) (target : Node)
    (declared : Field) (b : Bindings) :
    Ensures (checkReturning env home position target declared) b (fun _ t => t = b)
      (fun _ _ => True) := by
  unfold checkReturning
  simp only [ensures_bind, ensures_get, ensures_require]
  refine ⟨fun found _ => ?_, fun _ => trivial⟩
  split
  · trivial
  · rfl

/-- Checks that are made in a loop and change nothing. -/
theorem alike_checks {check check' : Nat × Node × Field → EStateM Stop Bindings Unit}
    {items items' : List (Nat × Node × Field)}
    (hitems : exact → List.Forall₂ (SamePair exact) items items')
    (hkeeps : ∀ x, Ensures (check x) b (fun _ t => t = b) fun _ _ => True)
    (hkeeps' : ∀ x, Ensures (check' x) b' (fun _ t => t = b') fun _ _ => True)
    (hsame : exact → ∀ x x', SamePair exact x x' →
      Alike exact (check x) (check' x') b b' fun _ t _ t' => t = b ∧ t' = b') :
    Alike exact (items.forM check) (items'.forM check') b b' fun _ t _ t' => t = b ∧ t' = b' := by
  by_cases hexact : exact
  · apply alike_forM (I := fun t t' => t = b ∧ t' = b') (hitems hexact) ⟨rfl, rfl⟩
    rintro x x' _ _ hx ⟨rfl, rfl⟩
    exact hsame hexact x x' hx
  · have hloop : ∀ {b : Bindings} {check : Nat × Node × Field → EStateM Stop Bindings Unit}
        (_ : ∀ x, Ensures (check x) b (fun _ t => t = b) fun _ _ => True)
        (items : List (Nat × Node × Field)),
        Ensures (items.forM check) b (fun _ t => t = b) fun _ _ => True := by
      intro b check hkeeps items
      apply ensures_forM (fun _ t => t = b) rfl
      rintro _ x _ _ _ rfl
      exact hkeeps x
    exact alike_of_ensures hexact (hloop hkeeps items) (hloop hkeeps' items')

section checks

variable (hexact : exact) (henv : Env.Twin exact o c c' env env') (h : Bindings.Twin exact o C b b')
  {home home' : String} (hhome : home = home') {x x' : Nat × Node × Field}
  (hx : SamePair exact x x')

include hexact henv h hhome hx

theorem alike_checkArgument :
    Alike exact (checkArgument env home x.1 x.2.1 x.2.2)
      (checkArgument env' home' x'.1 x'.2.1 x'.2.2) b b' fun _ t _ t' => t = b ∧ t' = b' := by
  unfold checkArgument
  rw [alike_get_bind, ← hx.node_eq]
  apply alike_bind
  apply alike_require (h.type? x.2.1)
  intro found found' hfound
  obtain rfl := hfound hexact
  rw [← hx.type_eq]
  split
  · exact alike_stop rfl rfl fun _ => by
      rw [henv.file_eq hexact, hhome, hx.position_eq, hx.location_eq hexact]
  · exact ⟨rfl, rfl⟩

theorem alike_checkReturning :
    Alike exact (checkReturning env home x.1 x.2.1 x.2.2)
      (checkReturning env' home' x'.1 x'.2.1 x'.2.2) b b' fun _ t _ t' => t = b ∧ t' = b' := by
  unfold checkReturning
  rw [alike_get_bind, ← hx.node_eq]
  apply alike_bind
  apply alike_require (h.field? x.2.1)
  intro f f' hf
  dsimp only
  rw [← hx.type_eq, henv.globals.field_eq f f' hf]
  split
  · exact alike_stop rfl rfl fun _ => by
      rw [henv.file_eq hexact, hhome, hx.position_eq, hx.location_eq hexact]
  · exact ⟨rfl, rfl⟩

end checks

variable (henv : Env.Twin exact o c c' env env') (h : Env.Bound exact o env env' b b')

include henv h

theorem alike_checkCall (call : Node) :
    Alike exact (checkCall env call) (checkCall env' call) b b' fun _ t _ t' =>
      Env.Bound exact o env env' t t' := by
  unfold checkCall
  rw [alike_get_bind]
  apply alike_bind
  apply alike_require (h.callee? call)
  intro q q' hq
  have husings : (env.globals.program q).usings.size = (env'.globals.program q').usings.size := by
    simpa using hq.usings.length_eq
  dsimp only
  rw [← husings, ← hq.name_eq]
  split
  · exact alike_stop rfl rfl fun hexact => by rw [henv.file_eq hexact]
  have hreturnings : exact →
      (env.globals.program q).returnings.size = (env'.globals.program q').returnings.size := by
    intro hexact
    simpa using (hq.returnings hexact).length_eq
  generalize (if call.is .callExpression then 1 else call.returnings.length) = requested
  split
  · next hmany =>
    split
    · exact alike_stop rfl rfl fun hexact => by rw [henv.file_eq hexact, hreturnings hexact]
    · next hfew => exact alike_stop_left rfl fun hexact => hfew (hreturnings hexact ▸ hmany)
  next hfew =>
  split
  · next hmany => exact alike_stop_right rfl fun hexact => hfew (hreturnings hexact ▸ hmany)
  -- the counts are right, so the types are checked, and then the parameters are noted
  apply alike_bind
  refine (alike_checks (fun _ => pairs_alike call.arguments hq.usings) ?_ ?_ ?_).mono ?_
  · exact fun x => keeps_checkArgument ..
  · exact fun x => keeps_checkArgument ..
  · exact fun hexact x x' hx => alike_checkArgument hexact henv h (hq.home_eq hexact) hx
  rintro _ _ _ _ ⟨rfl, rfl⟩
  apply alike_bind
  refine (alike_checks (fun hexact => pairs_alike call.returnings (hq.returnings hexact)) ?_ ?_
    ?_).mono ?_
  · exact fun x => keeps_checkReturning ..
  · exact fun x => keeps_checkReturning ..
  · exact fun hexact x x' hx => alike_checkReturning hexact henv h (hq.home_eq hexact) hx
  rintro _ _ _ _ ⟨rfl, rfl⟩
  apply alike_forM (I := Env.Bound exact o env env')
    (pairs_alike call.arguments hq.usings) h
  intro x x' t t' hx ht
  rw [alike_modify, hx.node_eq]
  exact ht.setParam _ hx.type_eq

theorem alike_visit_checker (root : Node) :
    Alike exact ((checker env).visit root) ((checker env').visit root) b b' fun _ t _ t' =>
      Env.Bound exact o env env' t t' := by
  apply alike_bind
  refine (Visitor.alike_walk (I := Env.Bound exact o env env') ?_ ?_ h).mono fun _ _ _ _ ht => ht
  swap
  · exact fun _ _ _ _ ht => ht
  intro n _ t t' ht
  obtain ⟨id, payload, location, children⟩ := n
  cases payload
  case callStatement => exact alike_checkCall henv ht _
  case callExpression => exact alike_checkCall henv ht _
  all_goals exact ht

end signatures

/-! ### The call passes -/

section passes

variable {exact : Prop} {o : Offsets} {c c' : ChunkId} {C : ProgramId → ProgramId → Prop}
  {run run' : Run}

/-- The environments of twin runs. -/
theorem Env.twin_ofRun (h : Run.Twin exact o c c' C run run') :
    Env.Twin exact o c c' (Env.ofRun run) (Env.ofRun run') :=
  ⟨h.file_eq, h.globals, h.chunk_eq, h.chunk_eq'⟩

theorem alike_lowerDisplay (h : Run.Twin exact o c c' C run run') (root : Node) :
    Alike exact (lowerDisplay root) (lowerDisplay root) run run' fun lowered t lowered' t' =>
      lowered = lowered' ∧ t.globals = run.globals ∧ t'.globals = run'.globals ∧
        Run.Twin exact o c c' C t t' := by
  unfold lowerDisplay
  rw [alike_onPart, h.nextId_eq]
  apply alike_self
  intro lowered next _
  exact ⟨rfl, rfl, rfl, h.file_eq, h.output_eq, h.writes, rfl, h.globals, h.bindings, h.chunk_eq,
    h.chunk_eq'⟩

/-- What a pass that only looks at calls leaves of two runs. -/
structure Looked (exact : Prop) (o : Offsets) (c c' : ChunkId) (g g' : Globals) (root : Node)
    (a : Node) (t : Run) (a' : Node) (t' : Run) : Prop where
  root_eq : a = root
  root_eq' : a' = root
  globals_eq : t.globals = g
  globals_eq' : t'.globals = g'
  twin : Run.Twin exact o c c' (Callable exact o g g') t t'

theorem alike_resolve (h : Run.Twin exact o c c' (fun _ _ => False) run run') (m : ModuleShape)
    (hcalls : ∀ shape ∈ m.programs, ∀ n ∈ shape.nodes, n.payload = .callStatement ∨
      n.payload = .callExpression →
      Relates exact (Callable exact o run.globals run'.globals) c c' run.globals run'.globals n) :
    Alike exact (resolve m.node) (resolve m.node) run run'
      (Looked exact o c c' run.globals run'.globals m.node) := by
  let s : State := ⟨run.bindings, run.memory.calling?⟩
  let s' : State := ⟨run'.bindings, run'.memory.calling?⟩
  have hs :
      Bindings.Twin exact o (Callable exact o run.globals run'.globals) s.bindings s'.bindings :=
    h.bindings.mono fun _ _ hfalse => hfalse.elim
  apply alike_bind
  rw [alike_get_bind, alike_onPart]
  refine (alike_visit_resolver (Env.twin_ofRun h) hs m hcalls).mono ?_
  intro _ t _ t' ht
  exact ⟨rfl, rfl, rfl, rfl, h.bind ht _ _⟩

theorem alike_argumentTypes
    (h : Run.Twin exact o c c' (Callable exact o run.globals run'.globals) run run') (root : Node) :
    Alike exact (argumentTypes root) (argumentTypes root) run run'
      (Looked exact o c c' run.globals run'.globals root) := by
  apply alike_bind
  rw [alike_get_bind, alike_onPart]
  refine (alike_visit_typer (Env.twin_ofRun h) h.bindings root).mono ?_
  intro _ t _ t' ht
  exact ⟨rfl, rfl, rfl, rfl, h.bind ht _ _⟩

theorem alike_check (h : Run.Twin exact o c c' (Callable exact o run.globals run'.globals) run run')
    (root : Node) :
    Alike exact (check root) (check root) run run'
      (Looked exact o c c' run.globals run'.globals root) := by
  apply alike_bind
  rw [alike_get_bind, alike_onPart]
  refine (alike_visit_checker (Env.twin_ofRun h) h.bindings root).mono ?_
  intro _ t _ t' ht
  exact ⟨rfl, rfl, rfl, rfl, h.bind ht _ _⟩

/-- The passes that find out what calls mean and whether they are right. -/
theorem alike_callPasses (h : Run.Twin exact o c c' (fun _ _ => False) run run') (m : ModuleShape)
    (hcalls : ∀ shape ∈ m.programs, ∀ n ∈ shape.nodes, n.payload = .callStatement ∨
      n.payload = .callExpression →
      Relates exact (Callable exact o run.globals run'.globals) c c' run.globals run'.globals n) :
    Alike exact (callPasses m.node) (callPasses m.node) run run'
      (Looked exact o c c' run.globals run'.globals m.node) := by
  apply alike_bind
  apply (alike_resolve h m hcalls).mono
  rintro _ r _ r' ⟨rfl, rfl, hglobals, hglobals', hr⟩
  rw [← hglobals, ← hglobals'] at hr ⊢
  apply alike_bind
  apply (alike_argumentTypes hr m.node).mono
  rintro _ u _ u' ⟨rfl, rfl, hglobals, hglobals', hu⟩
  rw [← hglobals, ← hglobals'] at hu ⊢
  apply (alike_check hu m.node).mono
  rintro _ t _ t' ⟨rfl, rfl, hglobals, hglobals', ht⟩
  exact ⟨rfl, rfl, hglobals, hglobals', ht⟩

end passes

end CallSite

end CobolCompiler
