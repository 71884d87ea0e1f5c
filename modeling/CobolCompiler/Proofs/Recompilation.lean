import CobolCompiler.Proofs.TwinExports

/-!
# Compiling a file again

Compiling a file twice in a row has the same outcome both times.

The first time leaves things behind, also if it stops: a chunk, programs and fields in it, and
exports of the module. The second time opens a chunk of its own and declares the same there once
more. Its programs take the place of those that the first time exported, which do not block them as
they come from the same file. Names of all other programs stand for what they stood for the first
time.
-/

namespace CobolCompiler

/-! ### Writing a file again -/

namespace FileStore

variable {store store' : FileStore} {place parts : List String} {path : String}

theorem content?_put_of_ne (content : List UInt8) (h : parts ≠ place) :
    (store.put place content).content? parts = store.content? parts := by
  have hfilter : ∀ files : List (List String × List UInt8),
      (files.filter (·.1 ≠ place)).lookup parts = files.lookup parts := by
    intro files
    induction files with
    | nil => rfl
    | cons file rest ih =>
      by_cases hfile : file.1 = place
      · have hother : (parts == file.1) = false := by simp [hfile, h]
        rw [List.filter_cons_of_neg (by simp [hfile]), ih, List.lookup_cons, hother]
      · rw [List.filter_cons_of_pos (by simp [hfile]), List.lookup_cons, List.lookup_cons, ih]
  have hplace : (parts == place) = false := by simp [h]
  rw [content?, put, List.lookup_cons, hplace]
  exact hfilter store.files

/-- What is a directory stays one. -/
theorem isDirectory_put (content : List UInt8) (h : store.isDirectory parts = true) :
    (store.put place content).isDirectory parts = true := by
  unfold isDirectory at h ⊢
  rw [Bool.or_eq_true, List.any_eq_true] at h ⊢
  refine h.imp_right ?_
  rintro ⟨file, hfile, hbelow⟩
  by_cases heq : file.1 = place
  · exact ⟨(place, content), List.mem_cons_self, heq ▸ hbelow⟩
  · exact ⟨file, List.mem_cons_of_mem _ (List.mem_filter.mpr ⟨hfile, by simp [heq]⟩), hbelow⟩

theorem target_put (content : List UInt8) (hplace : store.target place ≠ .directory)
    (h : store.target parts = .directory) :
    (store.put place content).target parts = .directory := by
  have hne : parts ≠ place := fun heq => hplace (heq ▸ h)
  unfold target at h ⊢
  rw [content?_put_of_ne content hne]
  split at h
  · cases h
  · next hnone =>
    split at h
    · next hdirectory => rw [if_pos (isDirectory_put content hdirectory)]
    · cases h

/-- A path leads where it led before a file was put, if it led somewhere. -/
theorem follow_put (content : List UInt8) (hplace : store.target place ≠ .directory)
    {here found : List String} (h : store.follow here parts = .ok found) :
    (store.put place content).follow here parts = .ok found := by
  induction parts generalizing here with
  | nil => exact h
  | cons part rest ih =>
    unfold follow at h ⊢
    dsimp only at h ⊢
    split at h
    · next hrest => rw [if_pos hrest]; exact h
    · next hrest =>
      rw [if_neg hrest]
      unfold lookUp at h ⊢
      split at h
      · next hdirectory =>
        split at hdirectory
        · cases hdirectory
        · next hlong =>
          rw [if_neg hlong, target_put content hplace (Except.ok.inj hdirectory)]
          exact ih h
      · cases h
      · cases h
      · cases h

theorem resolve_put (content : List UInt8)
    (hplace : store.target place ≠ .directory) {found : List String}
    (h : store.resolve path = .ok found) : (store.put place content).resolve path = .ok found := by
  unfold resolve at h ⊢
  split at h
  · cases h
  · next hzero =>
    split at h
    · cases h
    · next hempty =>
      split at h
      · cases h
      · next hlong =>
        rw [if_neg hzero, if_neg hempty, if_neg hlong]
        exact follow_put content hplace h

/-- When a file can be written: its path leads to a place that is no directory. -/
theorem write_eq_ok_iff {content : List UInt8} :
    store.write path content = .ok store' ↔
      ∃ place, store.resolve path = .ok place ∧ asksDirectory path = false ∧
        (place.getLast?.any (·.utf8ByteSize > maxName)) = false ∧ store.target place ≠ .directory ∧
        store' = store.put place content := by
  unfold write lookUp
  cases hresolve : store.resolve path with
  | error e => simp [bind, Except.bind]
  | ok place =>
    cases hasks : asksDirectory path with
    | true => simp [bind, Except.bind, throw, throwThe, MonadExceptOf.throw]
    | false =>
      cases hlong : place.getLast?.any (·.utf8ByteSize > maxName) with
      | true => simp [bind, Except.bind, hlong]
      | false =>
        cases htarget : store.target place with
        | directory =>
          simp [bind, Except.bind, hlong, htarget, throw, throwThe, MonadExceptOf.throw]
        | file old => simpa [bind, Except.bind, hlong, htarget, pure, Except.pure] using eq_comm
        | missing => simpa [bind, Except.bind, hlong, htarget, pure, Except.pure] using eq_comm

/-- A file that was written can be written once more, and it did not matter what was written. -/
theorem sameWrite_of_write {content : List UInt8} (h : store.write path content = .ok store')
    (other : List UInt8) :
    SameWrite (store.write path other) (store'.write path other) := by
  obtain ⟨place, hresolve, hasks, hname, htarget, rfl⟩ := write_eq_ok_iff.mp h
  have hput : (store.put place content).target place ≠ .directory := by
    have hcontent : (store.put place content).content? place = some content := by
      simp [content?, put]
    simp [target, hcontent]
  have hfirst : store.write path other = .ok (store.put place other) :=
    write_eq_ok_iff.mpr ⟨place, hresolve, hasks, hname, htarget, rfl⟩
  have hsecond : (store.put place content).write path other =
      .ok ((store.put place content).put place other) :=
    write_eq_ok_iff.mpr ⟨place, resolve_put content htarget hresolve, hasks, hname, hput, rfl⟩
  rw [hfirst, hsecond]
  trivial

end FileStore

theorem SameWrite.refl {α : Type} (x : Except FileError α) : SameWrite x x := by
  cases x with
  | ok a => trivial
  | error e => rfl

theorem SameWrite.trans {α : Type} {x y z : Except FileError α} (h : SameWrite x y)
    (h' : SameWrite y z) :
    SameWrite x z := by
  cases y with
  | ok b =>
    cases x with
    | ok a => cases z <;> exact h'
    | error e => exact h.elim
  | error e =>
    cases x with
    | ok a => exact h.elim
    | error e' =>
      obtain rfl : e' = e := h
      exact h'

/-- The output file of a run can be written exactly if it could be written to some earlier files. -/
def Run.Rewrites (output? : Option String) (files : FileStore) (run : Run) : Prop :=
  run.output? = output? ∧ ∀ path, output? = some path →
    ∀ content, SameWrite (files.write path content) (run.files.write path content)

/-- A step after which that still holds, whether it answers or stops. -/
def KeepsRewrites (output? : Option String) (files : FileStore) {α : Type} (step : RunM α) : Prop :=
  ∀ run : Run, run.Rewrites output? files →
    Ensures step run (fun _ => Run.Rewrites output? files) (fun _ => Run.Rewrites output? files)

section writing

variable {α β σ : Type} {output? : Option String} {files : FileStore}

theorem keepsRewrites_pure (a : α) : KeepsRewrites output? files (pure a) := fun _ h => h

theorem KeepsRewrites.bind {step : RunM α} {next : α → RunM β}
    (h : KeepsRewrites output? files step) (hnext : ∀ a, KeepsRewrites output? files (next a)) :
    KeepsRewrites output? files (step >>= next) := by
  intro run hrun
  rw [ensures_bind]
  exact (h run hrun).imp fun a t ht => hnext a t ht

/-- A part of the run that does not hold files. -/
theorem keepsRewrites_onPart {part : Run → σ} {put : σ → Run → Run} (step : EStateM Stop σ α)
    (hput : ∀ s run, (put s run).output? = run.output? ∧ (put s run).files = run.files) :
    KeepsRewrites output? files (onPart part put step) := by
  have hkeeps : ∀ s run, run.Rewrites output? files → (put s run).Rewrites output? files := by
    intro s run h
    rw [Run.Rewrites, (hput s run).1, (hput s run).2]
    exact h
  intro run h
  rw [ensures_onPart, ensures_iff]
  exact ⟨fun _ s _ => hkeeps s run h, fun _ s _ => hkeeps s run h⟩

theorem keepsRewrites_ofRun {part : Run → σ} {put : σ → Run → Run} (step : Run → EStateM Stop σ α)
    (hput : ∀ s run, (put s run).output? = run.output? ∧ (put s run).files = run.files) :
    KeepsRewrites output? files (get >>= fun run => onPart part put (step run)) :=
  fun run h => keepsRewrites_onPart (step run) hput run h

theorem keepsRewrites_ofWalk {walk : Node → RunM Unit} {root : Node}
    (h : KeepsRewrites output? files (walk root)) :
    KeepsRewrites output? files (Pass.ofWalk walk root) :=
  h.bind fun _ => keepsRewrites_pure root

/-- Writing the output changes nothing about whether it can be written. -/
theorem keepsRewrites_writeOutput : KeepsRewrites output? files Generation.writeOutput := by
  intro run h
  unfold Generation.writeOutput
  rw [ensures_bind, ensures_get]
  split
  · next path hpath =>
    split
    · next written hwrite =>
      refine ⟨h.1, fun other hother content => (h.2 other hother content).trans ?_⟩
      obtain rfl := Option.some.inj (hpath.symm.trans (h.1.trans hother))
      exact FileStore.sameWrite_of_write hwrite content
    · exact h
  · exact h

theorem keepsRewrites_generate (root : Node) :
    KeepsRewrites output? files (Generation.generate root) := by
  have hgenerator : ∀ {α : Type} (step : Generation.GenM α),
      KeepsRewrites output? files (Generation.onGenerator step) :=
    fun step => keepsRewrites_onPart step fun _ _ => ⟨rfl, rfl⟩
  have hget : KeepsRewrites output? files (get : RunM Run) := fun _ h => h
  have hfinish : KeepsRewrites output? files Generation.finish := by
    refine hget.bind fun run => ?_
    split
    · refine (hgenerator _).bind fun _ => keepsRewrites_writeOutput.bind fun _ =>
        (hgenerator _).bind fun product => ?_
      have hproduct : KeepsRewrites output? files
          (modify fun run : Run => { run with product? := some product }) :=
        fun _ h => h
      exact hproduct.bind fun _ => hgenerator _
    · exact keepsRewrites_pure _
  exact keepsRewrites_ofWalk (hget.bind fun _ => (hgenerator _).bind fun _ => hfinish)

/-- The core passes write to no file but the output. -/
theorem keepsRewrites_core {pass : Pass} (hpass : pass ∈ Pass.core) (root : Node) :
    KeepsRewrites output? files (pass.action root) := by
  simp only [Pass.core, List.mem_cons, List.not_mem_nil, or_false] at hpass
  rcases hpass with rfl | rfl | rfl | rfl | rfl | rfl | rfl | rfl | rfl | rfl
  · show KeepsRewrites output? files (Declaration.define root)
    unfold Declaration.define
    exact keepsRewrites_ofWalk (keepsRewrites_ofRun _ fun _ _ => ⟨rfl, rfl⟩)
  · exact keepsRewrites_ofRun _ fun _ _ => ⟨rfl, rfl⟩
  · show KeepsRewrites output? files (Declaration.usageTypes root)
    unfold Declaration.usageTypes
    exact keepsRewrites_ofWalk (keepsRewrites_ofRun _ fun _ _ => ⟨rfl, rfl⟩)
  · exact keepsRewrites_onPart _ fun _ _ => ⟨rfl, rfl⟩
  · show KeepsRewrites output? files (CallSite.resolve root)
    unfold CallSite.resolve
    exact keepsRewrites_ofWalk (keepsRewrites_ofRun _ fun _ _ => ⟨rfl, rfl⟩)
  · show KeepsRewrites output? files (CallSite.argumentTypes root)
    unfold CallSite.argumentTypes
    exact keepsRewrites_ofWalk (keepsRewrites_ofRun _ fun _ _ => ⟨rfl, rfl⟩)
  · show KeepsRewrites output? files (CallSite.check root)
    unfold CallSite.check
    exact keepsRewrites_ofWalk (keepsRewrites_ofRun _ fun _ _ => ⟨rfl, rfl⟩)
  · exact keepsRewrites_pure root
  · exact keepsRewrites_onPart _ fun _ _ => ⟨rfl, rfl⟩
  · exact keepsRewrites_generate root

end writing

/-! ### Opening a file again -/

namespace Globals

variable {g before : Globals} {name file : String} {c : ChunkId}

/-- A chunk takes its name from a program of the module. -/
theorem moduleProgram?_addChunk {owner : ModuleId} (howner : owner.index < g.modules.size)
    (file : String) (m : ModuleId) (program : String) :
    (g.addChunk owner file).2.moduleProgram? m program =
      if m = owner ∧ file = program then none else g.moduleProgram? m program := by
  rw [moduleProgram?, addChunk_module]
  by_cases hm : m = owner
  · subst hm
    rw [if_pos ⟨rfl, howner⟩, Table.get?_define]
    by_cases hname : file = program
    · simp [hname]
    · simp [hname, moduleProgram?]
  · have hne : ¬owner.index = m.index := fun heq => hm (ModuleId.eq_of_index heq).symm
    simp [hm, hne, moduleProgram?]

theorem Filed.addModule_eq (h : Filed name file c before g) :
    g.addModule name = ((g.chunk c).owner, g) := by
  rw [addModule, (h.module?_eq name).trans h.module_eq]

/-- If the module is there, opening a file of it adds a chunk only. -/
theorem Filed.openFile_eq (h : Filed name file c before g) :
    g.openFile name file = g.addChunk (g.chunk c).owner file := by
  rw [openFile, h.addModule_eq]

theorem Filed.owner_lt (h : Filed name file c before g) :
    (g.chunk c).owner.index < g.modules.size :=
  h.consistent.chunk_owner c h.chunk_lt

/-- The name of a file stands for no program of its module, once the file was opened. -/
theorem openFile_moduleProgram? (hg : g.Consistent) (name file : String) :
    (g.openFile name file).2.moduleProgram? (g.addModule name).1 file = none := by
  rw [openFile, moduleProgram?_addChunk (hg.addModule_lt name), if_pos ⟨rfl, rfl⟩]

/-- The chunk of a file keeps its module. -/
theorem Filed.owner_eq {g₁ : Globals}
    (h : Filed name file (g.openFile name file).1 (g.openFile name file).2 g₁) :
    (g₁.chunk (g.openFile name file).1).owner = (g.addModule name).1 := by
  rw [(h.chunk_eq _).2, openFile_chunk]

end Globals

section again

variable {g g₁ : Globals} {name file : String}

/-- Names with a module stand for what they stood for when the file was opened the first time, but
for the programs that the file exported then. -/
theorem exported?_openFile_again (hg : g.Consistent)
    (h : Globals.Filed name file (g.openFile name file).1 (g.openFile name file).2 g₁)
    {owner program : String}
    (hown : owner = name → g₁.ownExport? (g.openFile name file).1 program = none) :
    (g₁.openFile name file).2.exported? owner program = (g.openFile name file).2.exported? owner
      program := by
  have hold : g₁.exported? owner program = (g.openFile name file).2.exported? owner program := by
    rw [h.exported?_eq]
    split
    · next heq => rw [hown heq, Option.none_or]
    · rfl
  rw [← hold, h.openFile_eq]
  unfold Globals.exported? at hold ⊢
  change (g₁.module? owner).bind _ = _
  cases hm : g₁.module? owner with
  | none => rfl
  | some m =>
    rw [h.module?_eq] at hm
    rw [Option.bind_some, Option.bind_some, Globals.moduleProgram?_addChunk h.owner_lt]
    split
    · next hcond =>
      -- the name of the file stood for no program before
      obtain ⟨rfl, rfl⟩ := hcond
      rw [h.module?_eq, hm, Option.bind_some, Option.bind_some] at hold
      rw [hold, h.owner_eq]
      exact (Globals.openFile_moduleProgram? hg name _).symm
    · rfl

/-- Programs of other files block what they blocked when the file was opened the first time. -/
theorem blocked?_openFile_again (hg : g.Consistent)
    (h : Globals.Filed name file (g.openFile name file).1 (g.openFile name file).2 g₁)
    (program : String) :
    Declaration.blocked? (g.openFile name file).2 file (g.addModule name).1 program =
      Declaration.blocked? (g₁.openFile name file).2 file (g₁.addModule name).1 program := by
  by_cases hname : file = program
  · subst hname
    rw [Declaration.blocked?, Globals.openFile_moduleProgram? hg, Declaration.blocked?,
      Globals.openFile_moduleProgram? h.consistent]
  · have hblocked := h.blocked?_eq h.before_consistent program
    rw [← h.owner_eq, ← hblocked, h.addModule_eq, Declaration.blocked?, Declaration.blocked?,
      h.openFile_eq, Globals.moduleProgram?_addChunk h.owner_lt, if_neg fun hcond => hname hcond.2,
      ← h.openFile_eq]
    cases hq : g₁.moduleProgram? (g₁.chunk (g.openFile name file).1).owner program with
    | none => rfl
    | some q =>
      obtain ⟨hlt, -⟩ := h.consistent.export_name _ _ q (Globals.moduleProgram?_eq_some_iff.mp hq)
      simp only [Globals.openFile_program,
        Globals.openFile_chunk_of_lt _ _ (h.consistent.program_owner q hlt)]

/-- What was there before the file was opened again is the same for a caller. -/
theorem callable_kept {exact : Prop} {o : Offsets} (hg : g.Consistent)
    (hfielded : g.Fielded) {c : ChunkId} (h : Globals.Filed name file c (g.openFile name file).2 g₁)
    {owner program : String} {q : ProgramId} (hq : g.exported? owner program = some q)
    (hq₁ : g₁.exported? owner program = some q) (hknown : o.Known q q) :
    Callable exact o g g₁ q q := by
  obtain ⟨hlt, -, howner⟩ := hg.exported hq
  obtain ⟨-, -, howner₁⟩ := h.consistent.exported hq₁
  have hprogram : g₁.program q = g.program q := by
    rw [h.program_eq q (by rw [Globals.openFile_programs]; exact hlt), Globals.openFile_program]
  have hsame : ∀ f ∈ (g.program q).usings.toList ++ (g.program q).returnings.toList,
      SameParameter exact g g₁ f f := by
    intro f hf
    have hfield := (hfielded.tidy q).lt f ((hfielded.tidy q).signature f hf).1
    have heq := h.field_eq f (by rw [Globals.openFile_fields]; exact hfield)
    rw [Globals.openFile_field] at heq
    exact ⟨by rw [hg.field_type, h.consistent.field_type, heq.1], fun _ => heq.2.symm⟩
  constructor
  case usings =>
    rw [hprogram]
    exact List.forall₂_same.mpr fun f hf => hsame f (List.mem_append_left _ hf)
  case returnings =>
    rw [hprogram]
    exact fun _ => List.forall₂_same.mpr fun f hf => hsame f (List.mem_append_right _ hf)
  case name_eq => rw [hprogram]
  case module_eq => rw [howner, howner₁]
  case home_eq =>
    intro _
    rw [hprogram, (h.chunk_eq _).1, Globals.openFile_chunk_of_lt _ _ (hg.program_owner q hlt)]
  case known => exact hknown

/-- Declared again, a file finds under names with a module what it found the first time. -/
theorem exportsAlike_again {g₂ : Globals} (hg : g.Consistent)
    (h₁ : Globals.Filed name file (g.openFile name file).1 (g.openFile name file).2 g₁)
    (hfielded : g₁.Fielded)
    (h₂ : Globals.Filed name file (g₁.openFile name file).1 (g₁.openFile name file).2 g₂)
    (htwin : Globals.Twin (Declaration.offsets g g₁) (g.openFile name file).1
      (g₁.openFile name file).1 g₁ g₂) (owner program : String) :
    ExportsAlike True (Callable True (Declaration.offsets g g₁) g₁ g₂) g₁ g₂ owner program := by
  have hmodule : g₂.module? owner = g₁.module? owner := by
    rw [h₂.module?_eq, Globals.module?, h₁.openFile_eq, Globals.addChunk_table, Globals.module?]
  constructor
  case module_iff => rw [hmodule]; exact fun _ => Iff.rfl
  case program_iff =>
    intro _
    have hown := htwin.ownExport?_eq_none_iff program
    rw [h₁.exported?_eq, h₂.exported?_eq]
    by_cases howner : owner = name
    · rw [if_pos howner, if_pos howner]
      by_cases hnone : g₁.ownExport? (g.openFile name file).1 program = none
      · rw [hnone, hown.mp hnone, Option.none_or, Option.none_or,
          exported?_openFile_again hg h₁ fun _ => hnone]
      · -- exported by the file both times, so there is something to be found both times
        have hsome := Option.isSome_iff_ne_none.mpr hnone
        have hsome' := Option.isSome_iff_ne_none.mpr fun h => hnone (hown.mpr h)
        simp [Option.isSome_or, hsome, hsome']
    · rw [if_neg howner, if_neg howner, exported?_openFile_again hg h₁ fun heq => absurd heq howner]
  case related =>
    intro q q' hq hq'
    rcases exported_cases htwin h₁ h₂ (fun _ => rfl) hq hq' with hown | ⟨hnone, hold, hold'⟩
    · exact hown
    · -- found both times in what was there before, it is the very same program
      have hlt := (h₁.before_consistent.exported hold).1
      have hlt' := (h₂.before_consistent.exported hold').1
      rw [Globals.openFile_programs] at hlt hlt'
      rw [exported?_openFile_again hg h₁ hnone, hold] at hold'
      obtain rfl := Option.some.inj hold'
      exact callable_kept h₁.consistent hfielded h₂ hq hq' (.inr ⟨hlt, hlt'⟩)

end again

/-! ### Runs -/

section runs

variable {m : ModuleShape} {run : Run}

/-- What the core passes leave of the scope, wherever they stop. -/
theorem filed_core (hrun : run.globals.Consistent) :
    Globals.Filed m.node.name run.file (run.globals.openFile m.node.name run.file).1
      (run.globals.openFile m.node.name run.file).2
      (stateOf (runAll Pass.core m.node run)).globals := by
  rw [globals_core]
  exact .of_grown hrun
    (holds_stateOf (P := fun t : Run => Globals.Grown _ _ _ t.globals) (grown_declaring m hrun))

theorem rewrites_core (root : Node) (run : Run) :
    (stateOf (runAll Pass.core root run)).Rewrites run.output? run.files := by
  apply holds_stateOf
  refine ensures_foldlM (fun _ _ => Run.Rewrites run.output? run.files) ⟨rfl, fun _ _ _ => .refl _⟩
    ?_
  intro done pass rest root t hsplit ht
  exact keepsRewrites_core (by rw [hsplit]; simp) root t ht

/-- The core passes make the same of a module when they are run on it again, in the scope and with
the files that they left the first time. What else they left does not matter. -/
theorem alike_again (hnumbered : Declaration.Numbered m run)
    (hbindings : run.bindings = Bindings.empty)
    (hchunk : run.chunk? = none) (memory : Memory) (journal : Journal) {last : Run}
    (hlast : stateOf (runAll Pass.core m.node run) = last) (hfielded : last.globals.Fielded) :
    Alike True (runAll Pass.core m.node)
      (runAll Pass.core m.node) run
      { run with globals := last.globals, memory, files := last.files, journal }
      fun _ t _ t' => t.product? = t'.product? := by
  have hconsistent := hnumbered.sound.consistent
  have hfiled := filed_core (m := m) hconsistent
  have hrewrites := rewrites_core m.node run
  rw [hlast] at hfiled hrewrites
  -- the tree has the same numbers both times, and nothing is known about them at the start
  have hnumbered' : Declaration.Numbered m
      { run with globals := last.globals, memory, files := last.files, journal } :=
    ⟨hnumbered.unique, ⟨hfiled.consistent, fun c hc => by cases hchunk.symm.trans hc⟩,
      hnumbered.free⟩
  have hbegin : Run.Begin True m.node.name run
      { run with globals := last.globals, memory, files := last.files, journal } := by
    refine ⟨fun _ => rfl, fun _ => rfl, fun _ => hrewrites.2, rfl, rfl, hconsistent,
      hfiled.consistent, hbindings, hbindings,
      fun _ => ?_, fun _ => blocked?_openFile_again hconsistent hfiled⟩
    rw [hfiled.openFile_eq, Globals.addChunk_table, hfiled.table_eq]
  refine alike_core hbegin hnumbered hnumbered' run.options.policy ?_
  intro declared t declared' t' ht ht' program _ callee _ owner _
  -- only the passes that declare change the scope, so the second time starts from what they left
  have hglobals : last.globals = t.globals := by
    have hcore := globals_core m.node run
    rw [hlast, ht] at hcore
    exact hcore
  have htwin := ((Declaration.alike_declaring m hbegin).of_ok ht ht').2.2.globals
  have hfiled' := filed_declaring hbegin.consistent' ht'
  rw [hglobals] at hfiled hfielded
  dsimp only at htwin hfiled' ⊢
  rw [hglobals] at htwin hfiled' ⊢
  exact exportsAlike_again hconsistent hfiled hfielded hfiled' htwin owner callee.program

end runs

/-! ### Sessions -/

namespace Session

/-- Compiling a source text twice in a row has the same outcome: both times the same module, or both
times the same error, with all it says. -/
theorem recompiling_repeats {s : Session} (hs : s.Reachable)
    (hsystem : s.options.system? = none ∨ s.systemLoaded = true)
    {parser : Parser} {source : List UInt8}
    {name : String} {root : Node} (hroot : parser name source s.options.freeFormat = .ok root)
    (hgrammar : root.grammatical = true) (hmodule : root.tag = .module) (output? : Option String) :
    (∃ product t t', compileSource parser source name output? s = .ok product t ∧
      compileSource parser source name output?
        (after (compileSource parser source name output?) s) = .ok product t') ∨
    ∃ e t t', compileSource parser source name output? s = .error e t ∧
      compileSource parser source name output?
        (after (compileSource parser source name output?) s) = .error e t' := by
  obtain ⟨m, hm, hnumbered⟩ := Declaration.exists_numbered (s := s.logged name source)
    ⟨hs.sound.passes_eq, hs.sound.consistent⟩ hgrammar hmodule name output?
  have hpassing (s' : Session) : passing Pass.core root (s'.logged name source) name output? =
      runAll Pass.core m.node
        ((s'.logged name source).beginRun name output? (root.renumber 0).2) := by
    rw [passing, hm]
  -- the second time starts with what the passes left the first time
  have hs' : (after (compileSource parser source name output?) s).Reachable :=
    .compiled hs parser source name output?
  rw [after_compileSource hs.sound.passes_eq hsystem hroot output?, hpassing s] at hs' ⊢
  generalize hlast : stateOf (runAll Pass.core m.node
    ((s.logged name source).beginRun name output? (root.renumber 0).2)) = last at hs' ⊢
  rw [compileSource_parsed hs.sound.passes_eq hsystem hroot,
    compileSource_parsed hs'.sound.passes_eq (.inr rfl) hroot, hpassing, hpassing]
  have halike : Alike True _ _ _
      ((((s.loaded.logged name source).endRun last).logged name source).beginRun name output?
        (root.renumber 0).2) _ :=
    alike_again hnumbered rfl rfl _ _ hlast hs'.orderly.fielded
  obtain ⟨_, _, t, t', ht, ht', hproduct⟩ | ⟨e, t, t', ht, ht'⟩ := halike.outcome
  · rw [ht, ht']
    dsimp only at hproduct ⊢
    rw [← hproduct]
    cases t.product? with
    | some product => exact .inl ⟨product, _, _, rfl, rfl⟩
    | none => exact .inr ⟨_, _, _, rfl, rfl⟩
  · rw [ht, ht']
    exact .inr ⟨e, _, _, rfl, rfl⟩

/-- The sample module was compiled. Compiled two times more, it becomes the same module both
times. -/
theorem sampleModule_recompiled :
    let parser : Parser := fun _ _ _ => .ok Node.sampleModule
    let step := compileSource parser [] "SAMPLE.cbl" none
    let s := after step (start {} .empty)
    ∃ product t t', step s = .ok product t ∧ step (after step s) = .ok product t' := by
  intro parser step s
  have hs : s.Reachable := .compiled (.start {} .empty) parser [] "SAMPLE.cbl" none
  have hsystem : s.systemLoaded = true := by decide +kernel
  have hroot : parser "SAMPLE.cbl" [] s.options.freeFormat = .ok Node.sampleModule := rfl
  obtain ⟨product, t, hcompile⟩ := exists_of_answers (show answers step s = true by decide +kernel)
  rcases recompiling_repeats hs (.inr hsystem) hroot (by decide +kernel) rfl none
    with hboth | ⟨e, u, -, herror, -⟩
  · exact hboth
  · cases hcompile.symm.trans herror

end Session

end CobolCompiler
