import CobolCompiler.Session
import CobolCompiler.Proofs.Walk
import Mathlib.Logic.Relation

/-!
# What declaring changes

Only two of the core passes change the scope: the one that declares a file and the one that looks up
usages. What they do to it is a sequence of steps (`Standing.Step`), each with the check that was
made before it. This holds whether they answer or stop, and whatever tree they are given. All other
core passes leave the scope alone (`keepsStanding_core`). So what every step keeps
(`Standing.Kept`), every core pass keeps.
-/

namespace CobolCompiler

open Declaration

/-! ### Steps -/

/-- The part of a run that only the declaring passes change. -/
structure Standing where
  globals : Globals
  chunk? : Option ChunkId
  /-- The program whose declarations are being read. -/
  declaring? : Option ProgramId

def Run.standing (run : Run) : Standing :=
  ⟨run.globals, run.chunk?, run.memory.declaring?⟩

def Declaration.State.standing (s : State) : Standing :=
  ⟨s.globals, s.chunk?, s.program?⟩

/-- Between two runs there is no chunk of a file. -/
def Session.standing (s : Session) : Standing :=
  ⟨s.globals, none, s.memory.declaring?⟩

namespace Standing

/-- What declaring a file can do to the scope. -/
inductive Step (file : String) (policy : FractionPolicy) (st : Standing) : Standing → Prop
  | module (name : String) : Step file policy st
      ⟨((st.globals.addModule name).2.addChunk (st.globals.addModule name).1 file).2,
        some ((st.globals.addModule name).2.addChunk (st.globals.addModule name).1 file).1,
        st.declaring?⟩
  | program {chunk : ChunkId} (hchunk : st.chunk? = some chunk) {name : String} {exported : Bool}
      (hfree : conflict? st.globals file chunk name exported = none) (location : Location) :
      Step file policy st
        ⟨(st.globals.addProgram (.declare name chunk exported location)).2, st.chunk?,
          some (st.globals.addProgram (.declare name chunk exported location)).1⟩
  /-- The end of a program. -/
  | leave : Step file policy st { st with declaring? := none }
  | field {owner : ProgramId} (howner : st.declaring? = some owner)
      {home : Section} {n : Node} {field : Field} (hread : readField policy home n = .ok field)
      (hfree : previousField? st.globals owner field.name = none) :
      Step file policy st { st with globals := (st.globals.addField owner field).2 }
  | parameter {owner : ProgramId} (howner : st.declaring? = some owner)
      (list : Signature) {name : String} {location : Location} {id : FieldId}
      (hid : signatureField st.globals owner file name location = .ok id) :
      Step file policy st
        { st with globals := st.globals.modifyProgram owner (extendSignature list id) }
  | usage {id : FieldId} {type : Usage}
      (htype : st.globals.member? .global (st.globals.field id).usage.tag = some (.usage type)) :
      Step file policy st
        { st with globals := st.globals.modifyField id fun f => { f with type? := some type } }

/-- Any number of steps. -/
def Steps (file : String) (policy : FractionPolicy) : Standing → Standing → Prop :=
  Relation.ReflTransGen (Step file policy)

/-- What every step of declaring keeps that stays in its chunk. -/
def KeptWithin (file : String) (policy : FractionPolicy) (I : Standing → Prop) : Prop :=
  ∀ {st st' : Standing}, Step file policy st st' → st'.chunk? = st.chunk? → I st → I st'

end Standing

/-- A run comes out of another by steps of declaring the same file. -/
structure Run.LeadsTo (run t : Run) : Prop where
  file_eq : t.file = run.file
  options_eq : t.options = run.options
  steps : Standing.Steps run.file run.options.policy run.standing t.standing

/-! ### The declaring passes -/

namespace Declaration

open Standing

variable {file : String} {policy : FractionPolicy} {st : Standing} {I : Standing → Prop}

theorem ensures_onGlobals {α : Type} {change : Globals → α × Globals} {s : State}
    {ok : α → State → Prop} {err : Stop → State → Prop} :
    Ensures (onGlobals change) s ok err ↔
      ok (change s.globals).1 { s with globals := (change s.globals).2 } := Iff.rfl

theorem visit_eq (root : Node) :
    (definer file policy).visit root = (definer file policy).walk root := by
  rw [Visitor.visit, show (definer file policy).finish = pure () from rfl, bind_pure_unit]

/-- The state outside of any program. -/
def State.left (s : State) : State :=
  { s with program? := none, home? := none }

/-- What the walk that declares a file can do at a node. -/
inductive Move (file : String) (policy : FractionPolicy) (n : Node) (s : State) : State → Prop
  | module (hn : n.tag = .module) :
      Move file policy n s { s with
        globals := ((s.globals.addModule n.name).2.addChunk (s.globals.addModule n.name).1 file).2
        chunk? :=
          some ((s.globals.addModule n.name).2.addChunk (s.globals.addModule n.name).1 file).1 }
  | program (hn : n.tag = .program) {chunk : ChunkId} (hchunk : s.chunk? = some chunk)
      {new : ProgramId × Globals}
      (hfree : conflict? s.globals file chunk n.name (n.child? .exportMark).isSome = none)
      (hnew : new = s.globals.addProgram
        (.declare n.name chunk (n.child? .exportMark).isSome n.nameLocation)) :
      Move file policy n s { s with
        globals := new.2, bindings := s.bindings.bindProgram n new.1, program? := some new.1 }
  | leave : Move file policy n s s.left
  | home (home? : Option Section) : Move file policy n s { s with home? }
  | field {owner : ProgramId} (howner : s.program? = some owner) {home : Section} {field : Field}
      (hread : readField policy home n = .ok field)
      (hfree : previousField? s.globals owner field.name = none) :
      Move file policy n s { s with
        globals := (s.globals.addField owner field).2
        bindings := s.bindings.bindField n (s.globals.addField owner field).1 }
  | parameter {owner : ProgramId} (howner : s.program? = some owner) (list : Signature) {c : Node}
      {name : String} {location : Location} {id : FieldId}
      (hid : signatureField s.globals owner file name location = .ok id) :
      Move file policy n s { s with
        globals := s.globals.modifyProgram owner (extendSignature list id)
        bindings := s.bindings.bindField c id }

theorem signatureField_error {g : Globals} {p : ProgramId} {name : String} {location : Location}
    {e : Stop} (he : signatureField g p file name location = .error e) : e.IsFailure := by
  unfold signatureField at he
  simp only [bind, Except.bind] at he
  split at he
  · cases he
    exact isFailure_fault ..
  · split_ifs at he <;> cases he <;> exact isFailure_fault ..

/-- A stop at a node is over the size of a picture only if the node is a field with a picture that
is too large. -/
def StopsAt (n : Node) (e : Stop) : Prop :=
  e = .broken .pictureSize → n.payload = .field ∧ overflows (Clauses.ofNode n) = true

theorem stopsAt_of_isFailure {n : Node} {e : Stop} (h : e.IsFailure) : StopsAt n e := by
  obtain ⟨failure, rfl⟩ := h
  exact Stop.noConfusion

/-- Which program was declared before does not matter. -/
theorem move_defineProgram {n : Node} (hn : n.tag = .program) (s : State) :
    Ensures (defineProgram file n) s (fun _ => Move file policy n s.left)
      (fun e t => t = s ∧ StopsAt n e) := by
  unfold defineProgram
  simp only [ensures_bind, ensures_get, ensures_require]
  refine ⟨fun chunk hchunk => ?_, fun _ => ⟨trivial, by simp [StopsAt]⟩⟩
  split
  · exact ⟨rfl, stopsAt_of_isFailure (isFailure_fault ..)⟩
  · next hfree =>
    simp only [ensures_bind, ensures_onGlobals, ensures_modify]
    have hnone := Option.eq_none_iff_forall_ne_some.2 hfree
    exact @Move.program file policy n s.left hn chunk hchunk _ hnone rfl

section keeps

variable {J : State → Prop} {n : Node} {s : State}
  (hJ : ∀ {s t}, Move file policy n s t → J s → J t) (hs : J s)

include hJ hs

theorem keeps_defineField (hn : n.payload = .field) :
    Ensures (defineField file policy n) s (fun _ => J) (fun e t => J t ∧ StopsAt n e) := by
  unfold defineField
  simp only [ensures_bind, ensures_get, ensures_require]
  refine ⟨fun owner howner => ?_, fun _ => ⟨hs, by simp [StopsAt]⟩⟩
  split
  · next hsize => exact ⟨hs, fun _ => ⟨hn, hsize⟩⟩
  split
  · exact ⟨hs, stopsAt_of_isFailure (isFailure_fault ..)⟩
  · next field hread =>
    simp only [ensures_bind, ensures_get]
    split
    · exact ⟨hs, stopsAt_of_isFailure (isFailure_fault ..)⟩
    · next hfree =>
      simp only [ensures_bind, ensures_onGlobals, ensures_modify]
      exact hJ (.field howner hread (Option.eq_none_iff_forall_ne_some.2 hfree)) hs

theorem keeps_defineParameters (list : Signature) :
    Ensures (defineParameters file list n) s (fun _ => J) (fun e t => J t ∧ StopsAt n e) := by
  unfold defineParameters
  simp only [ensures_bind, ensures_get, ensures_require]
  refine ⟨fun owner howner => ?_, fun _ => ⟨hs, by simp [StopsAt]⟩⟩
  -- The owner of the parameters stays the same along the list.
  refine (ensures_forM (fun _ (t : State) => J t ∧ t.program? = some owner) ⟨hs, howner⟩ ?_).imp
    fun _ _ ht => ht.1
  intro done c rest t _ ht
  unfold defineParameter
  split
  · simp only [ensures_bind, ensures_get]
    split
    · next hstop => exact ⟨ht.1, stopsAt_of_isFailure (signatureField_error hstop)⟩
    · next id hid =>
      simp only [ensures_bind, ensures_onGlobals, ensures_modify]
      exact ⟨hJ (.parameter ht.2 list hid) ht.1, ht.2⟩
  · exact ht

/-- What every declaration at a node keeps is kept where the node is entered. -/
theorem keeps_enter :
    Ensures ((definer file policy).enter n) s (fun _ => J) (fun e t => J t ∧ StopsAt n e) := by
  unfold definer
  dsimp only
  split
  · next hpayload =>
    unfold defineModule
    simp only [ensures_bind, ensures_onGlobals, ensures_modify]
    exact hJ (.module (congrArg Payload.tag hpayload)) hs
  · next hpayload =>
    have hprogram := @move_defineProgram file policy n (congrArg Payload.tag hpayload) s
    exact hprogram.mono (fun _ t ht => hJ ht (hJ .leave hs)) fun _ t ht => ⟨ht.1 ▸ hs, ht.2⟩
  · exact hJ (.home _) hs
  · exact hJ (.home _) hs
  · next hpayload => exact keeps_defineField hJ hs hpayload
  · exact keeps_defineParameters hJ hs _
  · exact keeps_defineParameters hJ hs _
  · exact hs

theorem keeps_leave :
    Ensures ((definer file policy).leave n) s (fun _ => J) (fun e t => J t ∧ StopsAt n e) := by
  unfold definer
  dsimp only
  split
  · exact hJ .leave hs
  · exact hs

end keeps

/-- So it is kept by the walk over trees at whose nodes it is kept. -/
theorem keeps_walkAll {J : State → Prop} {ns : List Node}
    (hJ : ∀ k ∈ ns, ∀ n ∈ k.nodes, ∀ {s t}, Move file policy n s t → J s → J t) {s : State}
    (hs : J s) :
    Ensures ((definer file policy).walkAll ns) s (fun _ => J)
      (fun e t => J t ∧ ∃ k ∈ ns, ∃ n ∈ k.nodes, StopsAt n e) := by
  refine Visitor.ensures_walkAll_of_mem ?_ ?_ hs
  · exact fun k hk n hn t ht => (keeps_enter (hJ k hk n hn) ht).mono (fun _ _ hu => hu)
      fun _ _ hu => ⟨hu.1, k, hk, n, hn, hu.2⟩
  · exact fun k hk n hn t ht => (keeps_leave (hJ k hk n hn) ht).mono (fun _ _ hu => hu)
      fun _ _ hu => ⟨hu.1, k, hk, n, hn, hu.2⟩

/-- What steps keep that stay in their chunk, declarations keep, if those do that open one. -/
theorem keeps_move (hI : KeptWithin file policy I)
    {n : Node} {s t : State} (h : Move file policy n s t) (hmodule : n.tag = .module →
      I ⟨((s.globals.addModule n.name).2.addChunk (s.globals.addModule n.name).1 file).2,
        some ((s.globals.addModule n.name).2.addChunk (s.globals.addModule n.name).1 file).1,
        s.program?⟩) (hs : I s.standing) : I t.standing := by
  cases h with
  | module htag => exact hmodule htag
  | @program hn chunk hchunk new hfree hnew =>
    subst hnew
    have hstep : Step file policy s.standing _ :=
      @Step.program file policy s.standing chunk hchunk n.name _ hfree n.nameLocation
    exact hI hstep rfl hs
  | leave =>
    have hstep : Step file policy s.standing _ := .leave
    exact hI hstep rfl hs
  | home _ => exact hs
  | field howner hread hfree =>
    have hstep : Step file policy s.standing _ := .field howner hread hfree
    exact hI hstep rfl hs
  | parameter howner list hid =>
    have hstep : Step file policy s.standing _ := .parameter howner list hid
    exact hI hstep rfl hs

/-! ### From walks to passes -/

/-- The state in which the walk that declares a file begins. -/
def State.ofRun (run : Run) : State :=
  ⟨run.globals, run.bindings, run.chunk?, run.memory.declaring?, run.memory.home?⟩

/-- The run once the walk that declares a file has come to a state. -/
def State.toRun (s : State) (run : Run) : Run :=
  { run with
    globals := s.globals, bindings := s.bindings, chunk? := s.chunk?
    memory := { run.memory with declaring? := s.program?, home? := s.home? } }

/-- A run has come to a state in which something holds, and apart from that state it is as it
was. -/
def ComesTo (J : State → Prop) (run t : Run) : Prop :=
  ∃ s : State, J s ∧ t = s.toRun run

/-- It does not matter to something that a field gets its type. -/
def KeptByTypes (J : State → Prop) : Prop :=
  ∀ {s : State} {n : Node} {id : FieldId} {type : Usage}, s.bindings.field? n = some id →
    s.globals.member? .global (s.globals.field id).usage.tag = some (.usage type) → J s →
      J { s with globals := s.globals.modifyField id fun f => { f with type? := some type } }

section passes

variable {J : State → Prop} {run : Run} {root : Node}

theorem comesTo_define (h : Ensures ((definer run.file run.options.policy).visit root) (.ofRun run)
      (fun _ => J) (fun _ => J)) :
    Ensures (define root) run (fun _ => ComesTo J run) (fun _ => ComesTo J run) := by
  unfold define Pass.ofWalk
  simp only [ensures_bind, ensures_get, ensures_onPart, ensures_pure]
  exact h.mono (fun _ s hs => ⟨s, hs, rfl⟩) fun _ s hs => ⟨s, hs, rfl⟩

theorem comesTo_usageTypes (hJ : KeptByTypes J) (root : Node) (hrun : J (.ofRun run)) :
    Ensures (usageTypes root) run (fun _ => ComesTo J run) (fun _ => ComesTo J run) := by
  unfold usageTypes Pass.ofWalk
  simp only [ensures_bind, ensures_get, ensures_onPart, ensures_pure]
  refine (Visitor.ensures_visit_of_invariant
    (I := fun g : Globals => J { State.ofRun run with globals := g }) ?_ ?_ rfl root hrun).mono
    (fun _ _ hg => ⟨_, hg, rfl⟩) fun _ _ hg => ⟨_, hg, rfl⟩
  · intro n g hg
    unfold attachType
    dsimp only
    split
    · next id _ hid =>
      simp only [ensures_bind, ensures_get]
      split
      · next htype =>
        rw [ensures_modify]
        exact hJ hid htype hg
      · exact hg
    · exact hg
  · exact fun _ _ hg => hg

end passes

theorem keptByTypes_standing (hI : KeptWithin file policy I) :
    KeptByTypes fun s => I s.standing := by
  intro s n id type _ htype hs
  have hstep : Step file policy s.standing _ := .usage htype
  exact hI hstep rfl hs

/-- Any number of steps, as what steps keep. -/
theorem keptWithin_steps (st : Standing) : KeptWithin file policy (Steps file policy st) :=
  fun hstep _ hsteps => hsteps.tail hstep

theorem leadsTo_of_comesTo {run t : Run}
    (h : ComesTo (fun s => Steps run.file run.options.policy run.standing s.standing) run t) :
    run.LeadsTo t := by
  obtain ⟨s, hs, rfl⟩ := h
  exact ⟨rfl, rfl, hs⟩

/-- Declaring a file is a sequence of steps. -/
theorem steps_define (root : Node) (run : Run) :
    Ensures (define root) run (fun _ => run.LeadsTo) (fun _ => run.LeadsTo) := by
  refine (comesTo_define ?_).mono (fun _ _ => leadsTo_of_comesTo) fun _ _ => leadsTo_of_comesTo
  rw [visit_eq, ← Visitor.walkAll_singleton]
  refine (keeps_walkAll ?_ .refl).mono (fun _ _ hs => hs) fun _ _ hs => hs.1
  exact fun _ _ n _ _ _ hstep hs =>
    keeps_move (keptWithin_steps run.standing) hstep (fun _ => hs.tail (.module n.name)) hs

/-- So is looking up the usages of the fields. -/
theorem steps_usageTypes (root : Node) (run : Run) :
    Ensures (usageTypes root) run (fun _ => run.LeadsTo) (fun _ => run.LeadsTo) :=
  (comesTo_usageTypes (keptByTypes_standing (keptWithin_steps run.standing)) root .refl).mono
    (fun _ _ => leadsTo_of_comesTo) fun _ _ => leadsTo_of_comesTo

end Declaration

/-! ### The other passes -/

/-- Two runs agree in what declaring reads and changes. -/
structure Run.Agrees (run t : Run) : Prop where
  file_eq : t.file = run.file
  options_eq : t.options = run.options
  standing_eq : t.standing = run.standing

theorem Run.Agrees.leadsTo {run t : Run} (h : run.Agrees t) : run.LeadsTo t :=
  ⟨h.file_eq, h.options_eq, h.standing_eq ▸ .refl⟩

/-- A step that leaves alone what declaring changes, whether it answers or stops. -/
def KeepsStanding {α : Type} (step : RunM α) : Prop :=
  ∀ run : Run, Ensures step run (fun _ => run.Agrees) (fun _ => run.Agrees)

section frame

variable {α β σ : Type}

theorem KeepsStanding.bind {step : RunM α} {next : α → RunM β} (h : KeepsStanding step)
    (hnext : ∀ a, KeepsStanding (next a)) : KeepsStanding (step >>= next) := by
  intro run
  apply (h run).bind
  intro a t ht
  have htrans : ∀ u, t.Agrees u → run.Agrees u := fun u hu =>
    ⟨hu.file_eq.trans ht.file_eq, hu.options_eq.trans ht.options_eq,
      hu.standing_eq.trans ht.standing_eq⟩
  exact (hnext a t).mono (fun _ => htrans) fun _ => htrans

theorem keepsStanding_pure (a : α) : KeepsStanding (pure a) := fun _ => ⟨rfl, rfl, rfl⟩

theorem keepsStanding_get : KeepsStanding get := fun _ => ⟨rfl, rfl, rfl⟩

theorem keepsStanding_onPart {part : Run → σ} {put : σ → Run → Run} (step : EStateM Stop σ α)
    (h : ∀ s (run : Run), run.Agrees (put s run)) : KeepsStanding (onPart part put step) := by
  intro run
  rw [ensures_onPart, ensures_iff]
  exact ⟨fun _ s _ => h s run, fun _ s _ => h s run⟩

theorem keepsStanding_ofWalk {walk : Node → RunM Unit} {root : Node}
    (h : KeepsStanding (walk root)) :
    KeepsStanding (Pass.ofWalk walk root) :=
  h.bind fun _ => keepsStanding_pure root

theorem keepsStanding_onGenerator (step : Generation.GenM α) :
    KeepsStanding (Generation.onGenerator step) :=
  keepsStanding_onPart step fun _ _ => ⟨rfl, rfl, rfl⟩

theorem keepsStanding_writeOutput : KeepsStanding Generation.writeOutput := by
  apply keepsStanding_get.bind
  intro run
  split
  · split
    · exact fun _ => ⟨rfl, rfl, rfl⟩
    · exact fun _ => ⟨rfl, rfl, rfl⟩
  · exact keepsStanding_pure _

theorem keepsStanding_finish : KeepsStanding Generation.finish := by
  apply keepsStanding_get.bind
  intro run
  split
  · apply (keepsStanding_onGenerator _).bind
    intro _
    apply keepsStanding_writeOutput.bind
    intro _
    apply (keepsStanding_onGenerator _).bind
    intro product
    have hproduct : KeepsStanding (modify fun run : Run => { run with product? := some product }) :=
      fun _ => ⟨rfl, rfl, rfl⟩
    exact hproduct.bind fun _ => keepsStanding_onGenerator _
  · exact keepsStanding_pure _

theorem keepsStanding_ofRun {part : Run → σ} {put : σ → Run → Run} (step : Run → EStateM Stop σ α)
    (h : ∀ s (run : Run), run.Agrees (put s run)) :
    KeepsStanding (get >>= fun run => onPart part put (step run)) :=
  keepsStanding_get.bind fun run => keepsStanding_onPart (step run) h

/-- Once a file is declared, the core passes leave alone what declaring changes. -/
theorem keepsStanding_declared {pass : Pass} (hpass : pass ∈ Pass.core.drop 3) (root : Node) :
    KeepsStanding (pass.action root) := by
  -- Most passes work on the bindings alone, which are another part of the run.
  simp only [Pass.core, List.drop_succ_cons, List.drop_zero, List.mem_cons, List.not_mem_nil,
    or_false] at hpass
  rcases hpass with rfl | rfl | rfl | rfl | rfl | rfl | rfl
  · exact keepsStanding_onPart _ fun _ _ => ⟨rfl, rfl, rfl⟩
  · show KeepsStanding (CallSite.resolve root)
    unfold CallSite.resolve
    exact keepsStanding_ofWalk (keepsStanding_ofRun _ fun _ _ => ⟨rfl, rfl, rfl⟩)
  · show KeepsStanding (CallSite.argumentTypes root)
    unfold CallSite.argumentTypes
    exact keepsStanding_ofWalk (keepsStanding_ofRun _ fun _ _ => ⟨rfl, rfl, rfl⟩)
  · show KeepsStanding (CallSite.check root)
    unfold CallSite.check
    exact keepsStanding_ofWalk (keepsStanding_ofRun _ fun _ _ => ⟨rfl, rfl, rfl⟩)
  · exact keepsStanding_pure root
  · exact keepsStanding_onPart _ fun _ _ => ⟨rfl, rfl, rfl⟩
  · show KeepsStanding (Generation.generate root)
    unfold Generation.generate
    exact keepsStanding_ofWalk (keepsStanding_get.bind fun _ =>
      (keepsStanding_onGenerator _).bind fun _ => keepsStanding_finish)

/-- All core passes but the two that declare leave alone what declaring changes. -/
theorem keepsStanding_core {pass : Pass} (hpass : pass ∈ Pass.core) :
    pass.action = define ∨ pass.action = usageTypes ∨ ∀ root, KeepsStanding (pass.action root) := by
  have hsplit : pass ∈ [Pass.core[0], Pass.core[1], Pass.core[2]] ++ Pass.core.drop 3 := hpass
  rcases List.mem_append.mp hsplit with hdeclaring | hdeclared
  · simp only [List.mem_cons, List.not_mem_nil, or_false] at hdeclaring
    rcases hdeclaring with rfl | rfl | rfl
    · exact .inl rfl
    · exact .inr (.inr fun root => keepsStanding_ofRun _ fun _ _ => ⟨rfl, rfl, rfl⟩)
    · exact .inr (.inl rfl)
  · exact .inr (.inr (keepsStanding_declared hdeclared))

end frame

/-- What a core pass does to the scope is a sequence of steps. -/
theorem leadsTo_core {pass : Pass} (hpass : pass ∈ Pass.core) (root : Node) (run : Run) :
    Ensures (pass.action root) run (fun _ => run.LeadsTo) (fun _ => run.LeadsTo) := by
  rcases keepsStanding_core hpass with hdefine | husage | hframe
  · rw [hdefine]
    exact steps_define root run
  · rw [husage]
    exact steps_usageTypes root run
  · exact (hframe root run).mono (fun _ _ ht => ht.leadsTo) fun _ _ ht => ht.leadsTo

namespace Standing

/-- An invariant of the standing: every step keeps it, and it survives the end of a run. -/
structure Kept (I : Standing → Prop) : Prop where
  step : ∀ {file policy st st'}, Step file policy st st' → I st → I st'
  forget : ∀ {st}, I st → I { st with chunk? := none }

theorem Kept.steps {I : Standing → Prop} (h : Kept I) {file : String} {policy : FractionPolicy}
    {st st' : Standing} (hsteps : Steps file policy st st') (hst : I st) : I st' := by
  induction hsteps with
  | refl => exact hst
  | tail _ hstep ih => exact h.step hstep ih

end Standing

end CobolCompiler
