import CobolCompiler.Proofs.TwinExports

/-!
# Separate compilation

What a source text is compiled to depends on the text and on the signatures of the programs of other
modules that it calls (`module_determined_by_signatures`), and of these signatures only on the
usages of parameters. All else may differ between two sessions: what was compiled or declared in
them before, in which order and with which outcome, the names of the files, and what the passes
remember.
-/

namespace CobolCompiler

open Syntax Machine

/-- The usages of the parameters of the program that a module exports under a name. -/
def Globals.usages? (g : Globals) (owner program : String) : Option (List Usage) :=
  (g.exported? owner program).map fun q => (g.interfaceOf q).usages

/-- Programs of other modules that have the same signature are the same for a caller, as far as the
code of the call goes. -/
theorem callable_of_usages {o : Offsets} {g g' : Globals} (hg : g.Consistent) (hg' : g'.Consistent)
    {owner program : String} {q q' : ProgramId} (hq : g.exported? owner program = some q)
    (hq' : g'.exported? owner program = some q')
    (husages : (g.interfaceOf q).usages = (g'.interfaceOf q').usages)
    (hknown : o.Known q q') : Callable False o g g' q q' := by
  obtain ⟨-, hname, howner⟩ := hg.exported hq
  obtain ⟨-, hname', howner'⟩ := hg'.exported hq'
  have hpairs : List.Forall₂ (fun f f' => (g.field f).usage = (g'.field f').usage)
      (g.program q).usings.toList (g'.program q').usings.toList := by
    rw [Globals.interfaceOf, Globals.interfaceOf, ← List.forall₂_eq_eq_eq,
      List.forall₂_map_left_iff, List.forall₂_map_right_iff] at husages
    exact husages
  constructor
  case usings =>
    apply hpairs.imp
    intro f f' husage
    exact ⟨by rw [hg.field_type, hg'.field_type, husage], False.elim⟩
  case returnings => exact False.elim
  case name_eq => rw [hname, hname']
  case module_eq => rw [howner, howner']
  case home_eq => exact False.elim
  case known => exact hknown

/-- In two scopes in which a file was declared, a name with a module stands for programs that are
the same for a caller, if their signatures are the same. -/
theorem exportsAlike_of_usages {before before' g g' : Globals} {name file file' : String}
    (htwin : Globals.Twin (Declaration.offsets before before') (before.openFile name file).1
      (before'.openFile name file').1 g g')
    (h : Globals.Filed name file (before.openFile name file).1 (before.openFile name file).2 g)
    (h' : Globals.Filed name file' (before'.openFile name file').1 (before'.openFile name file').2
      g') {owner program : String} (husages : g.usages? owner program = g'.usages? owner program) :
    ExportsAlike False (Callable False (Declaration.offsets before before') g g') g g' owner
      program := by
  refine ⟨False.elim, False.elim, fun q q' hq hq' => ?_⟩
  rw [Globals.usages?, Globals.usages?, hq, hq'] at husages
  rcases exported_cases htwin h h' False.elim hq hq' with hown | ⟨-, hold, hold'⟩
  · exact hown
  · -- programs that were there before have lower numbers than those of the tree
    have hlt := (h.before_consistent.exported hold).1
    have hlt' := (h'.before_consistent.exported hold').1
    rw [Globals.openFile_programs] at hlt hlt'
    exact callable_of_usages h.consistent h'.consistent hq hq' (Option.some.inj husages)
      (.inr ⟨hlt, hlt'⟩)

namespace Session

/-- What went before a module came out: the declaration files of the system were read if they had to
be, and then the passes were run. -/
theorem passing_of_compileSource {s t : Session} (hs : s.Sound)
    {parser : Parser} {source : List UInt8} {name : String} {output? : Option String} {root : Node}
    (hroot : parser name source s.options.freeFormat = .ok root)
    {product : Module} (h : compileSource parser source name output? s = .ok product t) :
    ∃ u compiled run, s.Keeps u ∧
      passing Pass.core root (u.logged name source) name output? = .ok compiled run ∧
      run.product? = some product ∧ t.globals = run.globals := by
  have hensures : Ensures (compileSource parser source name output?) s (fun product t =>
      ∃ u compiled run, s.Keeps u ∧
        passing Pass.core root (u.logged name source) name output? = .ok compiled run ∧
        run.product? = some product ∧ t.globals = run.globals) (fun _ _ => True) := by
    unfold compileSource
    rw [ensures_bind, ensures_ordered hs.passes_eq, ensures_bind]
    refine (keeps_loadSystem parser hs).mono ?_ fun _ _ _ => trivial
    intro _ u hu
    have hroot' : parser name source u.options.freeFormat = .ok root := by
      rw [hu.options_eq]; exact hroot
    have hrun := run_parsed hroot' Pass.core output?
    rw [ensures_bind]
    unfold Ensures
    rw [hrun]
    cases hpassing : passing Pass.core root (u.logged name source) name output? with
    | error e run => trivial
    | ok compiled run =>
      dsimp only
      cases hproduct : run.product? with
      | none => trivial
      | some product => exact ⟨u, compiled, run, hu, hpassing, hproduct, rfl⟩
  exact hensures.of_ok h

/-- Separate compilation. Two sessions with the same fraction policy compile a tree to the same
module, if both succeed and in both the qualified calls of the tree mean programs whose parameters
have the same usages. They are looked up in the scopes that the compilations leave, as the passes
after declaring do not change them. -/
theorem module_determined_by_signatures {s s' t t' : Session} (hs : s.Reachable)
    (hs' : s'.Reachable) (hpolicy : s.options.policy = s'.options.policy) {parser parser' : Parser}
    {source source' : List UInt8} {name name' : String} {output? output'? : Option String}
    {root : Node} (hroot : parser name source s.options.freeFormat = .ok root)
    (hroot' : parser' name' source' s'.options.freeFormat = .ok root)
    (hgrammar : root.grammatical = true) (hmodule : root.tag = .module) {product product' : Module}
    (hcompile : compileSource parser source name output? s = .ok product t)
    (hcompile' : compileSource parser' source' name' output'? s' = .ok product' t')
    (hcallees : ∀ program ∈ modulePrograms s.options.policy root, ∀ callee ∈ program.callees,
      ∀ owner ∈ callee.module?,
      t.globals.usages? owner callee.program = t'.globals.usages? owner callee.program) :
    product = product' := by
  obtain ⟨u, compiled, run, hu, hpassing, hproduct, hglobals⟩ :=
    passing_of_compileSource hs.sound hroot hcompile
  obtain ⟨u', compiled', run', hu', hpassing', hproduct', hglobals'⟩ :=
    passing_of_compileSource hs'.sound hroot' hcompile'
  obtain ⟨m, hm, hnumbered⟩ := Declaration.exists_numbered (s := u.logged name source)
    ⟨hu.sound.passes_eq, hu.sound.consistent⟩ hgrammar hmodule name output?
  rw [passing, hm] at hpassing hpassing'
  have hnumbered' : Declaration.Numbered m
      ((u'.logged name' source').beginRun name' output'? (root.renumber 0).2) :=
    ⟨hnumbered.unique, ⟨hu'.sound.consistent, fun c hc => by cases hc⟩, hnumbered.free⟩
  have hbegin :
      Run.Begin False m.node.name ((u.logged name source).beginRun name output? (root.renumber 0).2)
      ((u'.logged name' source').beginRun name' output'? (root.renumber 0).2) := by
    have hoptions : u.options.policy = u'.options.policy := by
      rw [hu.options_eq, hu'.options_eq, hpolicy]
    exact ⟨False.elim, False.elim, False.elim, rfl, hoptions, hu.sound.consistent,
      hu'.sound.consistent, rfl, rfl, False.elim, False.elim⟩
  have halike := alike_core hbegin hnumbered hnumbered' s.options.policy ?_
  · have hsame := halike.of_ok hpassing hpassing'
    rw [hproduct, hproduct'] at hsame
    exact Option.some.inj hsame
  intro declared r declared' r' hr hr' program hprogram callee hcallee owner howner
  rw [Generation.programsOf_eq hm] at hprogram
  have husages := hcallees program hprogram callee hcallee owner howner
  -- only the passes that declare change the scopes
  have hrun :=
    globals_core m.node ((u.logged name source).beginRun name output? (root.renumber 0).2)
  have hrun' :=
    globals_core m.node ((u'.logged name' source').beginRun name' output'? (root.renumber 0).2)
  rw [hpassing, hr] at hrun
  rw [hpassing', hr'] at hrun'
  rw [hglobals, hglobals', show run.globals = r.globals from hrun,
    show run'.globals = r'.globals from hrun'] at husages
  have htwin := ((Declaration.alike_declaring m hbegin).of_ok hr hr').2.2
  exact exportsAlike_of_usages htwin.globals (filed_declaring hbegin.consistent hr)
    (filed_declaring hbegin.consistent' hr') husages

open Build

/-- A module that exports a program with one parameter, which displays it. -/
def consoleModule (results : List String) : Node :=
  Build.module "SYSTEM" [
    program "DISPLAY" [
      leaf .exportMark,
      node .dataDivision [node .linkageSection
        (("VALUE" :: results).map fun name => field 1 name [leaf (.usage .comp2)])],
      procedure ["VALUE"] results []]]

/-- A module that calls it, in two ways. -/
def clientModule : Node :=
  Build.module "CLIENT" [
    program "MAIN" [
      node .dataDivision [
        node .workingStorageSection [field 1 "COUNT" [leaf (.usage .comp2)]]],
      procedure [] [] [
        call "DISPLAY" (some "SYSTEM") [leaf (.callUsingId "COUNT" false)] [],
        node .displayStatement [leaf (.numberLiteral "7")]]]]

/-- A session in which trees were compiled, one after the other. -/
def compiledAll (trees : List (String × Node)) : Session :=
  trees.foldl (fun s tree => after (compileSource (fun _ _ _ => .ok tree.2) [] tree.1 none) s)
    (start {} .empty)

theorem reachable_compiledAll (trees : List (String × Node)) : (compiledAll trees).Reachable := by
  unfold compiledAll
  have hstart : (start {} .empty).Reachable := .start {} .empty
  generalize start {} .empty = s at hstart
  induction trees generalizing s with
  | nil => exact hstart
  | cons tree rest ih => exact ih _ (.compiled hstart _ [] tree.1 none)

/-- Two sessions compile the client to the same module. One of them tried to before it knew the
program that the client calls, and knows it with a result. -/
theorem clientModule_same_module :
    ∃ product t t', compileSource (fun _ _ _ => .ok clientModule) [] "CLIENT.cbl" none
      (compiledAll [("CONSOLE.cbl", consoleModule [])]) = .ok product t ∧
      compileSource (fun _ _ _ => .ok clientModule) [] "OTHER.cbl" none
      (compiledAll [("CLIENT.cbl", clientModule), ("CONSOLE.cbl", consoleModule ["DONE"])]) =
        .ok product t' := by
  let parser : Parser := fun _ _ _ => .ok clientModule
  let s := compiledAll [("CONSOLE.cbl", consoleModule [])]
  let s' := compiledAll [("CLIENT.cbl", clientModule), ("CONSOLE.cbl", consoleModule ["DONE"])]
  let step := compileSource parser [] "CLIENT.cbl" none
  let step' := compileSource parser [] "OTHER.cbl" none
  have hs : s.Reachable := reachable_compiledAll _
  have hs' : s'.Reachable := reachable_compiledAll _
  have hpolicy : s.options.policy = s'.options.policy := by decide +kernel
  have hroot : parser "CLIENT.cbl" [] s.options.freeFormat = .ok clientModule := rfl
  have hroot' : parser "OTHER.cbl" [] s'.options.freeFormat = .ok clientModule := rfl
  have hgrammar : clientModule.grammatical = true := by decide +kernel
  obtain ⟨product, t, hcompile⟩ := exists_of_answers (show answers step s = true by decide +kernel)
  obtain ⟨product', t', hcompile'⟩ :=
    exists_of_answers (show answers step' s' = true by decide +kernel)
  have ht : after step s = t := by rw [after, hcompile]
  have ht' : after step' s' = t' := by rw [after, hcompile']
  have husages : ∀ program ∈ modulePrograms s.options.policy clientModule,
      ∀ callee ∈ program.callees, ∀ owner ∈ callee.module?,
        (after step s).globals.usages? owner callee.program =
          (after step' s').globals.usages? owner callee.program := by
    decide +kernel
  rw [ht, ht'] at husages
  have hsame : product = product' :=
    module_determined_by_signatures hs hs' hpolicy hroot hroot' hgrammar rfl hcompile
      hcompile' husages
  rw [← hsame] at hcompile'
  exact ⟨product, t, t', hcompile, hcompile'⟩

end Session

end CobolCompiler
