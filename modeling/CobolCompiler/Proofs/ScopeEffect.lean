import CobolCompiler.Proofs.Reachable

/-!
# The effect of a source file on the scope

Compiling a source file and only declaring it have the same effect on the scope
(`declaring_matches_compiling`): the passes that declare come first in both, and do not look at
where the module is to be written; the passes after them leave the scope alone.
-/

namespace CobolCompiler

/-! ### Where the module goes -/

/-- The same run with another output file. -/
def Run.toOutput (run : Run) (output? : Option String) : Run :=
  { run with output? }

/-- A step that does the same wherever the module is to be written. -/
def IgnoresOutput {α : Type} (step : RunM α) : Prop :=
  ∀ run output?, step (run.toOutput output?) =
    match step run with
    | .ok a run' => .ok a (run'.toOutput output?)
    | .error e run' => .error e (run'.toOutput output?)

section output

variable {α β σ : Type}

theorem ignoresOutput_pure (a : α) : IgnoresOutput (pure a) := fun _ _ => rfl

theorem IgnoresOutput.bind {step : RunM α} {next : α → RunM β} (h : IgnoresOutput step)
    (hnext : ∀ a, IgnoresOutput (next a)) : IgnoresOutput (step >>= next) := by
  intro run output?
  simp only [bind_apply, h run output?]
  cases step run with
  | ok a run' => exact hnext a run' output?
  | error e run' => rfl

/-- A part of the run that does not hold the output. -/
theorem ignoresOutput_onPart {part : Run → σ} {put : σ → Run → Run} {step : Run → EStateM Stop σ α}
    (hstep : ∀ run output?, step (run.toOutput output?) = step run)
    (hpart : ∀ run output?, part (run.toOutput output?) = part run)
    (hput : ∀ s run output?, put s (run.toOutput output?) = (put s run).toOutput output?) :
    IgnoresOutput (get >>= fun run => onPart part put (step run)) := by
  intro run output?
  change onPart part put (step (run.toOutput output?)) (run.toOutput output?) =
    match onPart part put (step run) run with
    | .ok a run' => _
    | .error e run' => _
  simp only [onPart, hstep, hpart, hput]
  cases step run (part run) <;> rfl

/-- The passes that declare do not look at the output. -/
theorem ignoresOutput_declaring {pass : Pass} (hpass : pass ∈ Pass.core.take 3) (root : Node) :
    IgnoresOutput (pass.action root) := by
  have hmem : pass ∈ [Pass.core[0], Pass.core[1], Pass.core[2]] := hpass
  simp only [List.mem_cons, List.not_mem_nil, or_false] at hmem
  rcases hmem with rfl | rfl | rfl
  · change IgnoresOutput (Declaration.define root)
    unfold Declaration.define Pass.ofWalk
    apply IgnoresOutput.bind _ fun _ => ignoresOutput_pure root
    exact ignoresOutput_onPart (fun _ _ => rfl) (fun _ _ => rfl) fun _ _ _ => rfl
  · exact ignoresOutput_onPart (fun _ _ => rfl) (fun _ _ => rfl) fun _ _ _ => rfl
  · change IgnoresOutput (Declaration.usageTypes root)
    unfold Declaration.usageTypes Pass.ofWalk
    apply IgnoresOutput.bind _ fun _ => ignoresOutput_pure root
    exact ignoresOutput_onPart (fun _ _ => rfl) (fun _ _ => rfl) fun _ _ _ => rfl

end output

/-! ### Sessions -/

/-- Once a file is declared, the core passes keep the scope. -/
theorem keepsStanding_rest (root : Node) :
    KeepsStanding (runAll (Pass.core.drop 3) root) :=
  runAll_holds keepsStanding_pure KeepsStanding.bind (fun _ hpass => keepsStanding_declared hpass)
    root

namespace Session

/-- Where the declaration files of the system were read or there are none, there is nothing to
read. -/
theorem loadSystem_eq (parser : Parser) {s : Session}
    (h : s.options.system? = none ∨ s.systemLoaded = true) :
    loadSystem parser s = .ok () s.loaded := by
  obtain ⟨options, passes, globals, memory, systemLoaded, files, journal⟩ := s
  cases systemLoaded with
  | true => rfl
  | false =>
    have hnone : options.system? = none := by simpa using h
    simp [loadSystem, loaded, hnone, bind_apply, get_apply, modify_apply]

/-- The passes after those that declare leave the scope as it is. -/
theorem globals_rest (root : Node) (run : Run) :
    (stateOf (runAll (Pass.core.drop 3) root run)).globals = run.globals := by
  apply holds_stateOf (P := fun t : Run => t.globals = run.globals)
  exact (keepsStanding_rest root run).mono (fun _ _ h => congrArg Standing.globals h.standing_eq)
    fun _ _ h => congrArg Standing.globals h.standing_eq

/-- The outcome of passes on the tree of a source text, begun in a session. -/
def passing (passes : List Pass) (root : Node) (s : Session) (name : String)
    (output? : Option String) : EStateM.Result Stop Run Node :=
  runAll passes (root.renumber 0).1 (s.beginRun name output? (root.renumber 0).2)

section runs

variable {parser : Parser} {source : List UInt8} {name : String} {s : Session}

theorem parse_apply : parse parser source name s =
    match parser name source s.options.freeFormat with
    | .ok root => .ok (root.renumber 0) (s.logged name source)
    | .error e =>
      .error (.fault (.parse e.message) name e.location none) (s.logged name source) := by
  simp only [parse, bind_apply, get_apply, modify_apply]
  cases parser name source s.options.freeFormat <;> rfl

variable {root : Node}

/-- A run parses the text and then runs the passes on the tree. -/
theorem run_parsed (hroot : parser name source s.options.freeFormat = .ok root) (passes : List Pass)
    (output? : Option String) :
    run passes parser source name output? s =
      match passing passes root (s.logged name source) name output? with
      | .ok _ run => .ok run.product? ((s.logged name source).endRun run)
      | .error e run => .error e ((s.logged name source).endRun run) := by
  rw [run, bind_apply, parse_apply, hroot]
  rfl

theorem run_refused {e : ParseError} (hroot : parser name source s.options.freeFormat = .error e)
    (passes : List Pass) (output? : Option String) :
    run passes parser source name output? s =
      .error (.fault (.parse e.message) name e.location none) (s.logged name source) := by
  rw [run, bind_apply, parse_apply, hroot]

/-- All passes begin with those that declare, for which it is the same where the module goes. -/
theorem passing_core (root : Node) (output? : Option String) :
    passing Pass.core root s name output? =
      match passing (Pass.core.take 3) root s name none with
      | .ok declared run =>
          runAll (Pass.core.drop 3) declared (run.toOutput output?)
      | .error e run => .error e (run.toOutput output?) := by
  have hdeclaring := runAll_holds ignoresOutput_pure IgnoresOutput.bind
    (fun _ hpass => ignoresOutput_declaring hpass)
    (root.renumber 0).1 (s.beginRun name none (root.renumber 0).2) output?
  have hsplit : Pass.core = Pass.core.take 3 ++ Pass.core.drop 3 := rfl
  conv_lhs => rw [passing, hsplit, runAll_append]
  change (_ >>= _ : RunM Node) ((s.beginRun name none (root.renumber 0).2).toOutput output?) = _
  rw [bind_apply, hdeclaring]
  unfold passing
  cases runAll (Pass.core.take 3) (root.renumber 0).1
    (s.beginRun name none (root.renumber 0).2) <;> rfl

theorem globals_passing_core (root : Node) (output? : Option String) :
    (stateOf (passing Pass.core root s name output?)).globals =
      (stateOf (passing (Pass.core.take 3) root s name none)).globals := by
  rw [passing_core]
  cases passing (Pass.core.take 3) root s name none with
  | error e run => rfl
  | ok declared run => exact globals_rest declared (run.toOutput output?)

variable (hs : s.passes = Pass.core) (hsystem : s.options.system? = none ∨ s.systemLoaded = true)
  (hroot : parser name source s.options.freeFormat = .ok root)

include hs

theorem declareSource_eq :
    declareSource parser source name s =
      match run (Pass.core.take 3) parser source name none s with
      | .ok _ t => .ok () t
      | .error e t => .error e t := by
  have hdeclaring : Pass.core.filter (·.declares) = Pass.core.take 3 := rfl
  simp only [declareSource, bind_apply, ordered_eq hs, hdeclaring]
  cases run (Pass.core.take 3) parser source name none s <;> rfl

include hsystem in
theorem compileSource_eq (output? : Option String) :
    compileSource parser source name output? s =
      match run Pass.core parser source name output? s.loaded with
      | .ok (some product) t => .ok product t
      | .ok none t => .error (.failed (.noModule name)) t
      | .error e t => .error e t := by
  simp only [compileSource, bind_apply, ordered_eq hs, loadSystem_eq parser hsystem]
  cases run Pass.core parser source name output? s.loaded with
  | error e t => rfl
  | ok product? t => cases product? <;> rfl

include hroot

/-- What becomes of a source text that is a tree when it is declared. -/
theorem declareSource_parsed :
    declareSource parser source name s =
      match passing (Pass.core.take 3) root (s.logged name source) name none with
      | .ok _ run => .ok () ((s.logged name source).endRun run)
      | .error e run => .error e ((s.logged name source).endRun run) := by
  rw [declareSource_eq hs, run_parsed hroot]
  cases passing (Pass.core.take 3) root (s.logged name source) name none <;> rfl

theorem globals_after_declareSource :
    (after (declareSource parser source name) s).globals =
      (stateOf (passing (Pass.core.take 3) root (s.logged name source) name none)).globals := by
  rw [after, declareSource_parsed hs hroot]
  cases passing (Pass.core.take 3) root (s.logged name source) name none <;> rfl

include hsystem

/-- What becomes of a source text that is a tree when it is compiled. -/
theorem compileSource_parsed (output? : Option String) :
    compileSource parser source name output? s =
      match passing Pass.core root (s.logged name source) name output? with
      | .ok _ run =>
          match run.product? with
          | some product => .ok product ((s.loaded.logged name source).endRun run)
          | none => .error (.failed (.noModule name)) ((s.loaded.logged name source).endRun run)
      | .error e run => .error e ((s.loaded.logged name source).endRun run) := by
  have hloaded : parser name source s.loaded.options.freeFormat = .ok root := hroot
  -- Nothing in a run depends on whether the declaration files of the system were read.
  have hpassing : passing Pass.core root (s.loaded.logged name source) name output? =
      passing Pass.core root (s.logged name source) name output? := rfl
  rw [compileSource_eq hs hsystem, run_parsed hloaded, hpassing]
  cases passing Pass.core root (s.logged name source) name output? with
  | error e run => rfl
  | ok _ run =>
    dsimp only
    cases run.product? <;> rfl

/-- Compiling a source text leaves what the passes leave. -/
theorem after_compileSource (output? : Option String) :
    after (compileSource parser source name output?) s =
      (s.loaded.logged name source).endRun
        (stateOf (passing Pass.core root (s.logged name source) name output?)) := by
  rw [after, compileSource_parsed hs hsystem hroot]
  cases passing Pass.core root (s.logged name source) name output? with
  | error e run => rfl
  | ok _ run =>
    dsimp only
    cases run.product? <;> rfl

end runs

/-- Declaring a source file and compiling it have the same effect on the scope, whether the later
passes succeed or not. Where the declarations of a file are not accepted, compiling it stops with
the same error. -/
theorem declaring_matches_compiling {s : Session} (hs : s.Reachable)
    (hsystem : s.options.system? = none ∨ s.systemLoaded = true) (parser : Parser)
    (source : List UInt8) (name : String) (output? : Option String) :
    (∀ e t, declareSource parser source name s = .error e t →
      ∃ u, compileSource parser source name output? s = .error e u) ∧
    (after (compileSource parser source name output?) s).globals =
      (after (declareSource parser source name) s).globals := by
  have hpasses := hs.sound.passes_eq
  cases hroot : parser name source s.options.freeFormat with
  | error refusal =>
    have hloaded : parser name source s.loaded.options.freeFormat = .error refusal := hroot
    have hdeclare : declareSource parser source name s = _ := declareSource_eq hpasses
    have hcompile : compileSource parser source name output? s = _ :=
      compileSource_eq hpasses hsystem output?
    rw [run_refused hroot] at hdeclare
    rw [run_refused hloaded] at hcompile
    refine ⟨fun e t he => ?_, ?_⟩
    · obtain ⟨rfl, -⟩ := EStateM.Result.error.inj (hdeclare.symm.trans he)
      exact ⟨_, hcompile⟩
    · rw [after, after, hdeclare, hcompile]
      rfl
  | ok root =>
    refine ⟨fun e t hdeclare => ?_, ?_⟩
    · rw [declareSource_parsed hpasses hroot] at hdeclare
      rw [compileSource_parsed hpasses hsystem hroot, passing_core]
      cases hpassing : passing (Pass.core.take 3) root (s.logged name source) name none with
      | ok declared run =>
        rw [hpassing] at hdeclare
        cases hdeclare
      | error stop run =>
        rw [hpassing] at hdeclare
        obtain ⟨rfl, -⟩ := EStateM.Result.error.inj hdeclare
        exact ⟨_, rfl⟩
    · rw [after_compileSource hpasses hsystem hroot, globals_after_declareSource hpasses hroot]
      exact globals_passing_core root output?

/-- The sample module was compiled. Under the name of another file, its declarations are not
accepted, as the module exports programs of those names already; compiling that file stops with the
same error and leaves the same scope. -/
theorem sampleModule_declaring_matches :
    let parser : Parser := fun _ _ _ => .ok Node.sampleModule
    let s := after (compileSource parser [] "SAMPLE.cbl" none) (start {} .empty)
    ∃ e t u, declareSource parser [] "OTHER.cbl" s = .error e t ∧
      compileSource parser [] "OTHER.cbl" (some "OTHER.bin") s = .error e u ∧
      u.globals = t.globals := by
  intro parser s
  have hs : s.Reachable := .compiled (.start {} .empty) parser [] "SAMPLE.cbl" none
  have hsystem : s.systemLoaded = true := by decide +kernel
  have hrefused : answers (declareSource parser [] "OTHER.cbl") s = false := by decide +kernel
  obtain ⟨hsame, hglobals⟩ :=
    declaring_matches_compiling hs (.inr hsystem) parser [] "OTHER.cbl" (some "OTHER.bin")
  cases hdeclare : declareSource parser [] "OTHER.cbl" s with
  | ok _ t =>
    rw [answers, hdeclare] at hrefused
    cases hrefused
  | error e t =>
    obtain ⟨u, hcompile⟩ := hsame e t hdeclare
    rw [after, after, hcompile, hdeclare] at hglobals
    exact ⟨e, t, u, rfl, hcompile, hglobals⟩

end Session

end CobolCompiler
