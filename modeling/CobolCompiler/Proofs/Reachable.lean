import CobolCompiler.Proofs.Scope
import CobolCompiler.Proofs.Standing

/-!
# Reachable sessions

The sessions that come about when source texts are compiled and declared, one after the other, with
any outcome and from any trees. What every step of declaring keeps holds in all of them
(`Standing.Kept.reachable`). One such invariant is that the scope is consistent
(`Session.Reachable.sound`).
-/

namespace CobolCompiler

open Standing

/-! ### Runs -/

/-- The scope of a run is consistent, and its chunk is the last one. -/
structure Run.Sound (run : Run) : Prop where
  consistent : run.globals.Consistent
  chunk_last : ∀ c, run.chunk? = some c → c.index + 1 = run.globals.chunks.size

/-- A pass that leaves the scope and the chunk alone keeps a run sound. -/
theorem Run.Sound.of_eq {run run' : Run} (h : run.Sound) (hglobals : run'.globals = run.globals)
    (hchunk : run'.chunk? = run.chunk?) : run'.Sound := by
  refine ⟨hglobals ▸ h.consistent, fun c hc => ?_⟩
  rw [hglobals]
  exact h.chunk_last c (hchunk ▸ hc)

namespace Declaration

theorem checkUsage_ok {policy : FractionPolicy} {home : Section} {c : Clauses}
    {comp4? : Option Comp4}
    (h : checkUsage policy home c = .ok comp4?) (husage : c.usage = .comp4) : comp4?.isSome := by
  simp only [checkUsage, husage, bind, Except.bind, pure, Except.pure] at h
  split at h
  · cases h
  · cases h
    rfl

/-- What is read of a declaration is what it says, and a COMP-4 field has its storage. -/
theorem readField_ok {policy : FractionPolicy} {home : Section} {n : Node} {field : Field}
    (h : readField policy home n = .ok field) :
    field.name = n.name ∧ field.home = home ∧ field.type? = none ∧
      field.usage = (Clauses.ofNode n).usage ∧ (field.usage = .comp4 → field.comp4?.isSome) := by
  simp only [readField, bind, Except.bind, pure, Except.pure] at h
  split at h
  · cases h
  · split at h
    · cases h
    · next comp4? hcheck =>
      obtain rfl := Except.ok.inj h
      exact ⟨rfl, rfl, rfl, rfl, checkUsage_ok hcheck⟩

theorem heading_extendSignature (list : Signature) (id : FieldId) (p : ProgramScope) :
    (extendSignature list id p).heading = p.heading := by
  cases list <;> rfl

end Declaration

open Declaration

/-- The scope is consistent, and the chunk of the file is the last one. -/
def Standing.IsSound (st : Standing) : Prop :=
  st.globals.Consistent ∧ ∀ c, st.chunk? = some c → c.index + 1 = st.globals.chunks.size

theorem Standing.IsSound.chunk_lt {st : Standing} (h : st.IsSound) {c : ChunkId}
    (hc : st.chunk? = some c) :
    c.index < st.globals.chunks.size := by
  have hlast := h.2 c hc
  omega

theorem kept_sound : Kept IsSound where
  step := by
    intro file policy st st' hstep hst
    obtain ⟨hconsistent, hchunk⟩ := hst
    cases hstep with
    | module name =>
      have hlt := hconsistent.addModule_lt name
      refine ⟨(hconsistent.addModule name).addChunk hlt file, ?_⟩
      intro c hc
      obtain rfl := Option.some.inj hc
      simp
    | @program chunk hchunk? _ _ _ location =>
      -- The chunk was there before the program, and the program adds none.
      refine ⟨hconsistent.addProgram (IsSound.chunk_lt ⟨hconsistent, hchunk⟩ hchunk?),
        fun c hc => ?_⟩
      rw [Globals.addProgram_size_chunks]
      exact hchunk c hc
    | leave => exact ⟨hconsistent, hchunk⟩
    | field _ hread _ =>
      obtain ⟨-, -, htype, -⟩ := readField_ok hread
      exact ⟨hconsistent.addField _ (by simp [Field.type, htype]), hchunk⟩
    | parameter _ list _ =>
      exact ⟨hconsistent.modifyProgram _ (heading_extendSignature list _), hchunk⟩
    | usage htype => exact ⟨hconsistent.modifyField (hconsistent.usage_eq _ _ htype), hchunk⟩
  forget := fun h => ⟨h.1, fun _ hc => by cases hc⟩

theorem Run.LeadsTo.sound {run t : Run} (h : run.LeadsTo t) (hrun : run.Sound) : t.Sound := by
  have hst := kept_sound.steps h.steps ⟨hrun.consistent, hrun.chunk_last⟩
  exact ⟨hst.1, hst.2⟩

namespace Declaration

/-- Declaring keeps the scope consistent, on any tree. -/
theorem sound_define (root : Node) {run : Run} (hrun : run.Sound) :
    Ensures (define root) run (fun _ => Run.Sound) (fun _ => Run.Sound) :=
  (steps_define root run).mono (fun _ _ ht => ht.sound hrun) fun _ _ ht => ht.sound hrun

theorem sound_usageTypes (root : Node) {run : Run} (hrun : run.Sound) :
    Ensures (usageTypes root) run (fun _ => Run.Sound) (fun _ => Run.Sound) :=
  (steps_usageTypes root run).mono (fun _ _ ht => ht.sound hrun) fun _ _ ht => ht.sound hrun

theorem consistent_attachType (file : String) (bindings : Bindings) (n : Node) {g : Globals}
    (hg : g.Consistent) :
    Ensures (attachType file bindings n) g (fun _ => Globals.Consistent)
      (fun _ => Globals.Consistent) := by
  unfold attachType
  split
  · simp only [ensures_bind, ensures_get]
    split
    · next type htype =>
      rw [ensures_modify]
      exact hg.modifyField (hg.usage_eq _ _ htype)
    · exact hg
  · exact hg

end Declaration

/-! ### Sessions -/

namespace Session

/-- The passes of a session are the core passes, and its scope is consistent. -/
structure Sound (s : Session) : Prop where
  passes_eq : s.passes = Pass.core
  consistent : s.globals.Consistent

/-- The session that a step leaves behind. -/
def after {α : Type} (step : SessionM α) (s : Session) : Session :=
  match step s with
  | .ok _ t => t
  | .error _ t => t

/-- The sessions that come about when source texts are compiled and declared, with any outcome.
Between two of them files may change. -/
inductive Reachable : Session → Prop
  | start (options : Options) (files : FileStore) : Reachable (start options files)
  | compiled {s : Session} (hs : s.Reachable) (parser : Parser) (source : List UInt8)
      (name : String) (output? : Option String) :
      Reachable (after (compileSource parser source name output?) s)
  | declared {s : Session} (hs : s.Reachable) (parser : Parser) (source : List UInt8)
      (name : String) : Reachable (after (declareSource parser source name) s)
  | files {s : Session} (hs : s.Reachable) (files : FileStore) : Reachable { s with files }

/-- The core passes run in the order in which they are registered. -/
theorem schedule_core :
    schedule (Pass.core.map (·.wishes)) = .ok [0, 1, 2, 3, 4, 5, 6, 7, 8, 9] := by
  decide

theorem ensures_ordered {s : Session} (hs : s.passes = Pass.core) {ok : List Pass → Session → Prop}
    {err : Stop → Session → Prop} : Ensures ordered s ok err ↔ ok Pass.core s := by
  unfold ordered
  simp only [ensures_bind, ensures_get, hs, schedule_core]
  rfl

theorem ordered_eq {s : Session} (hs : s.passes = Pass.core) : ordered s = .ok Pass.core s := by
  simp only [ordered, bind_apply, get_apply, hs, schedule_core]
  rfl

/-- The session with a note in its journal that a source text was parsed. -/
def logged (s : Session) (name : String) (source : List UInt8) : Session :=
  { s with journal := s.journal.push (.parsed name source s.options.freeFormat) }

/-- What running passes over a source text guarantees: the text is parsed, and then the passes are
run on the tree. -/
theorem ensures_run {passes : List Pass} {parser : Parser} {source : List UInt8} {name : String}
    {output? : Option String} {s : Session} {ok : Option Machine.Module → Session → Prop}
    {err : Stop → Session → Prop} (hrefused : ∀ e : ParseError,
      err (.fault (.parse e.message) name e.location none) (s.logged name source))
    (hparsed : ∀ root, parser name source s.options.freeFormat = .ok root →
      Ensures (runAll passes (root.renumber 0).1)
      ((s.logged name source).beginRun name output? (root.renumber 0).2)
      (fun _ run => ok run.product? ((s.logged name source).endRun run))
      (fun e run => err e ((s.logged name source).endRun run))) :
    Ensures (run passes parser source name output?) s ok err := by
  unfold run parse
  rw [ensures_bind]
  simp only [ensures_bind, ensures_get, ensures_modify]
  split
  · next root hroot =>
    have hrun := hparsed root hroot
    rw [ensures_pure]
    unfold Ensures logged at hrun
    unfold Ensures
    split at hrun
    · next heq => simp only [heq]; exact hrun
    · next heq => simp only [heq]; exact hrun
  · rw [ensures_throw]
    exact hrefused _

/-- The session with the note that the declaration files of the system were read. -/
def loaded (s : Session) : Session :=
  { s with systemLoaded := true }

/-- The declaration files of the system that a compilation reads first. -/
def systemFiles (s : Session) : List String :=
  if s.systemLoaded then []
  else
    match s.options.system? with
    | some directory => (s.files.search directory declarationEnding).toOption.getD []
    | none => []

section system

variable {parser : Parser} {s : Session} {err : Stop → Session → Prop}

/-- The declaration files of the system are read one after the other, if their directory can be
walked through. -/
theorem ensures_loadSystem_files {I : List String → Session → Prop} (hs : I [] s)
    (hwalk : ∀ error, err (.failed (.walk error)) s)
    (hloaded : ∀ t, I s.systemFiles t → I s.systemFiles t.loaded)
    (hdeclare : ∀ done path rest t, s.systemFiles = done ++ path :: rest → I done t →
      Ensures (declareFile parser path) t (fun _ => I (done ++ [path])) err) :
    Ensures (loadSystem parser) s (fun _ => I s.systemFiles) err := by
  unfold loadSystem
  simp only [ensures_bind, ensures_get]
  split
  · next hfirst =>
    have hnone : s.systemFiles = [] := by rw [systemFiles, if_pos hfirst]
    rwa [hnone]
  · next hfirst =>
    cases hsystem : s.options.system? with
    | none =>
      have hnone : s.systemFiles = [] := by rw [systemFiles, if_neg hfirst, hsystem]
      rw [hnone] at hloaded ⊢
      exact hloaded s hs
    | some directory =>
      dsimp only
      split
      · next paths hsearch =>
        have hfiles : s.systemFiles = paths := by
          simp only [systemFiles, if_neg hfirst, hsystem, hsearch]
          rfl
        rw [hfiles] at hloaded hdeclare ⊢
        rw [ensures_bind]
        exact (ensures_forM I hs hdeclare).imp fun _ t ht => hloaded t ht
      · exact hwalk _

/-- What holds of declaring single files holds of reading all the declaration files of the
system. -/
theorem ensures_loadSystem {K : Session → Prop} (hs : K s) (hloaded : ∀ t, K t → K t.loaded)
    (hfailed : ∀ failure t, K t → err (.failed failure) t)
    (hdeclare : ∀ path ∈ s.systemFiles, ∀ content t, K t → t.files.read path = .ok content →
      Ensures (declareSource parser content path) t (fun _ => K) err) :
    Ensures (loadSystem parser) s (fun _ => K) err := by
  apply ensures_loadSystem_files (I := fun _ => K) hs (fun _ => hfailed _ _ hs) hloaded
  intro done path rest t hsplit ht
  have hpath : path ∈ s.systemFiles := by
    rw [hsplit]
    simp
  unfold declareFile readFile
  simp only [ensures_bind, ensures_get]
  split
  · next content hread => exact hdeclare path hpath content t ht hread
  · exact hfailed _ t ht

end system

/-- What holds of the outcomes of a step holds of the session that it leaves behind. -/
theorem holds_after {α : Type} {step : SessionM α} {s : Session} {K : Session → Prop}
    (h : Ensures step s (fun _ => K) (fun _ => K)) : K (after step s) := by
  unfold Ensures at h
  unfold after
  split at h
  · next heq => rw [heq]; exact h
  · next heq => rw [heq]; exact h

end Session

/-! ### Invariants of sessions -/

namespace Standing

open Session

/-- A session that comes after another: it has the core passes and the options of the other, and an
invariant holds. -/
structure Follows (I : Standing → Prop) (s t : Session) : Prop where
  passes_eq : t.passes = Pass.core
  options_eq : t.options = s.options
  holds : I t.standing

variable {I : Standing → Prop}

section sessions

variable (h : Kept I) (parser : Parser) (source : List UInt8) (name : String) {s t : Session}

include h

/-- Running core passes over any source text keeps an invariant. -/
theorem Kept.run {passes : List Pass} (hpasses : ∀ p ∈ passes, p ∈ Pass.core)
    (output? : Option String) (ht : Follows I s t) :
    Ensures (run passes parser source name output?) t (fun _ => Follows I s)
      (fun _ => Follows I s) := by
  refine ensures_run (fun _ => ⟨ht.passes_eq, ht.options_eq, ht.holds⟩) fun root hroot => ?_
  -- A run begins in the standing of its session, and each pass goes on from what the last one left.
  have hfold : Ensures (runAll passes (root.renumber 0).1)
      ((t.logged name source).beginRun name output? (root.renumber 0).2)
      (fun _ run => I run.standing) (fun _ run => I run.standing) := by
    refine ensures_foldlM (fun _ _ (run : Run) => I run.standing) ht.holds ?_
    intro done pass rest root run hsplit hrun
    exact (leadsTo_core (hpasses pass (by rw [hsplit]; simp)) root run).mono
      (fun _ _ hu => h.steps hu.steps hrun) fun _ _ hu => h.steps hu.steps hrun
  exact hfold.mono (fun _ _ hrun => ⟨ht.passes_eq, ht.options_eq, h.forget hrun⟩)
    fun _ _ hrun => ⟨ht.passes_eq, ht.options_eq, h.forget hrun⟩

theorem Kept.declareSource (ht : Follows I s t) :
    Ensures (declareSource parser source name) t (fun _ => Follows I s) (fun _ => Follows I s) := by
  unfold Session.declareSource
  rw [ensures_bind, ensures_ordered ht.passes_eq, ensures_bind]
  exact h.run parser source name (fun p hp => (List.mem_filter.mp hp).1) none ht

theorem Kept.loadSystem (ht : Follows I s t) :
    Ensures (loadSystem parser) t (fun _ => Follows I s) (fun _ => Follows I s) := by
  apply ensures_loadSystem ht (fun u hu => ⟨hu.passes_eq, hu.options_eq, hu.holds⟩)
    (fun _ _ hu => hu)
  intro path _ content u hu _
  exact h.declareSource parser content path hu

theorem Kept.compileSource (output? : Option String) (ht : Follows I s t) :
    Ensures (compileSource parser source name output?) t (fun _ => Follows I s)
      (fun _ => Follows I s) := by
  unfold Session.compileSource
  rw [ensures_bind, ensures_ordered ht.passes_eq]
  refine (h.loadSystem parser ht).bind ?_
  intro _ u hu
  refine (h.run parser source name (fun p hp => hp) output? hu).bind ?_
  intro product? v hv
  split
  · exact hv
  · exact hv

/-- An invariant that holds at the start holds in every reachable session. -/
theorem Kept.reachable (hstart : I ⟨Globals.initial, none, none⟩) (hs : s.Reachable) :
    s.passes = Pass.core ∧ I s.standing := by
  induction hs with
  | start options files => exact ⟨rfl, hstart⟩
  | @compiled s _ parser source name output? ih =>
    have hafter :=
      holds_after (h.compileSource parser source name output? (s := s) ⟨ih.1, rfl, ih.2⟩)
    exact ⟨hafter.passes_eq, hafter.holds⟩
  | @declared s _ parser source name ih =>
    have hafter := holds_after (h.declareSource parser source name (s := s) ⟨ih.1, rfl, ih.2⟩)
    exact ⟨hafter.passes_eq, hafter.holds⟩
  | files _ files ih => exact ih

end sessions

end Standing

/-! ### Sound sessions -/

namespace Session

/-- A session is still sound, and its options are those of another one. -/
structure Keeps (s t : Session) : Prop where
  sound : t.Sound
  options_eq : t.options = s.options

theorem Keeps.trans {s t u : Session} (h : s.Keeps t) (h' : t.Keeps u) : s.Keeps u :=
  ⟨h'.sound, h'.options_eq.trans h.options_eq⟩

theorem Keeps.loaded {s t : Session} (h : s.Keeps t) : s.Keeps t.loaded :=
  ⟨⟨h.sound.passes_eq, h.sound.consistent⟩, h.options_eq⟩

theorem keeps_iff {s t : Session} :
    s.Keeps t ↔ Standing.Follows (fun st => st.globals.Consistent ∧
      ∀ c, st.chunk? = some c → c.index + 1 = st.globals.chunks.size) s t := by
  constructor
  · intro h
    exact ⟨h.sound.passes_eq, h.options_eq, h.sound.consistent, fun c hc => by cases hc⟩
  · intro h
    exact ⟨⟨h.passes_eq, h.holds.1⟩, h.options_eq⟩

theorem keeps_declareSource (parser : Parser) (source : List UInt8) (name : String) {s : Session}
    (hs : s.Sound) :
    Ensures (declareSource parser source name) s (fun _ => s.Keeps) (fun _ => s.Keeps) :=
  (kept_sound.declareSource parser source name (keeps_iff.1 ⟨hs, rfl⟩)).mono
    (fun _ _ h => keeps_iff.2 h) fun _ _ h => keeps_iff.2 h

theorem keeps_loadSystem (parser : Parser) {s : Session} (hs : s.Sound) :
    Ensures (loadSystem parser) s (fun _ => s.Keeps) (fun _ => s.Keeps) :=
  (kept_sound.loadSystem parser (keeps_iff.1 ⟨hs, rfl⟩)).mono (fun _ _ h => keeps_iff.2 h)
    fun _ _ h => keeps_iff.2 h

/-- Every reachable session has the core passes and a consistent scope. -/
theorem Reachable.sound {s : Session} (h : s.Reachable) : s.Sound := by
  obtain ⟨hpasses, hconsistent, _⟩ :=
    kept_sound.reachable ⟨Globals.Consistent.initial, fun _ hc => by cases hc⟩ h
  exact ⟨hpasses, hconsistent⟩

/-! ### A session with a module that was not handed over -/

open Build

/-- A module with a literal that has too many digits. Only code generation looks at the digits. -/
def oversizedModule : Node :=
  Build.module "COUNTER" [
    program "ADD" [
      node .dataDivision [node .linkageSection [field 1 "STEP" [leaf (.usage .any)]]],
      procedure ["STEP"] [] []],
    program "MAIN" [
      procedure [] [] [call "ADD" none [leaf (.numberLiteral "10000000000000000000")] []]]]

/-- The session in which compiling this module stopped. -/
def counterSession : Session :=
  after (compileSource (fun _ _ _ => .ok oversizedModule) [] "COUNTER.cbl" none) (start {} .empty)

theorem counterSession_reachable : counterSession.Reachable :=
  .compiled (.start {} .empty) _ [] "COUNTER.cbl" none

/-- A text that is only a name, without a module. -/
def nameParser : Parser := fun _ _ _ => .ok (identifier "NOTE")

/-- The text that is only a name has a result in this session: the module as far as it was
generated. -/
theorem exists_compiled_counterSession :
    ∃ product t, compileSource nameParser [] "NOTE.cbl" none counterSession = .ok product t ∧
      product.name = "COUNTER" ∧
      product.prototypes.toList.map (·.code.toList) = [[.ret], [.proto 0]] := by
  have hparts : (answerOf? (compileSource nameParser [] "NOTE.cbl" none) counterSession).map
      (fun product => (product.name, product.prototypes.toList.map (·.code.toList))) =
        some ("COUNTER", [[.ret], [.proto 0]]) := by
    decide +kernel
  obtain ⟨product, hproduct, hparts⟩ := Option.map_eq_some_iff.mp hparts
  obtain ⟨t, ht⟩ := exists_of_answerOf? hproduct
  obtain ⟨hname, hcode⟩ := Prod.mk.inj hparts
  exact ⟨product, t, ht, hname, hcode⟩

end Session

end CobolCompiler
