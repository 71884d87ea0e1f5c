import CobolCompiler.Proofs.Recompilation
import CobolCompiler.Proofs.Undisturbed

/-!
# Exports of a file that is read again

A module knows a program by its name, and nothing takes a name out of the module again. So when a
file is read once more, the programs that it exports now take the place of those that it exported
under the same names before, but a program that it does not export any more can still be called.
`reexport_exact` says what a file exports after it was compiled or declared; the exports of earlier
versions are gone only if this version exports the same names.
-/

namespace CobolCompiler

open Declaration Syntax

namespace Globals

variable {g : Globals} {name file program : String}

/-- A module exports a program under a name, and the program stands in a file. -/
def ExportsFrom (g : Globals) (file owner name : String) (p : ProgramId) : Prop :=
  g.exported? owner name = some p ∧ (g.chunk (g.program p).owner).name = file

/-- A module that is added exports what it exported, if it was there, and nothing otherwise. -/
theorem addModule_moduleProgram? (g : Globals) (name program : String) :
    (g.addModule name).2.moduleProgram? (g.addModule name).1 program =
      g.exported? name program := by
  rcases g.addModule_cases name with ⟨m, hfound, heq⟩ | ⟨hnone, hid, hmodules, -⟩
  · rw [heq, exported?, hfound, Option.bind_some]
  · rw [exported?, hnone, Option.bind_none, moduleProgram?, module, hid, hmodules, getD_push,
      if_pos rfl, Table.get?_empty]

/-- Opening a file of a module takes the name of the file from the programs of the module, and no
other name. -/
theorem openFile_exported? (hg : g.Consistent) (name file program : String) :
    (g.openFile name file).2.exported? name program =
      if file = program then none else g.exported? name program := by
  rw [exported?, openFile_module?, openFile_chunk, Option.bind_some]
  change ((g.addModule name).2.addChunk (g.addModule name).1 file).2.moduleProgram?
    (g.addModule name).1 program = _
  rw [moduleProgram?_addChunk (hg.addModule_lt name), addModule_moduleProgram?]
  simp only [true_and]

end Globals

namespace Declaration

variable {policy : FractionPolicy} {g : Globals} {b : Bindings} {c : ChunkId} {ps : List ProgramId}
  {m : ModuleShape}

/-- A program of a module is exported if and only if it is marked. -/
theorem mem_exportNames_iff (m : ModuleShape) (name : String) :
    name ∈ exportNames m.node ↔
      ∃ frame ∈ m.programs.map (·.frame), frame.nameText = name ∧
        frame.exports.isEmpty = false := by
  rw [exportNames, m.programNodes_node]
  simp only [List.mem_map, List.mem_filter]
  constructor
  · intro hmem
    obtain ⟨n, ⟨⟨shape, hshape, hnode⟩, hexported⟩, hname⟩ := hmem
    subst hnode
    rw [child?_exportMark] at hexported
    exact ⟨shape.frame, ⟨shape, hshape,
      rfl⟩, by rw [← hname]; exact (shape.frame.name_node).symm, by simpa using hexported⟩
  · intro hmem
    obtain ⟨frame, ⟨shape, hshape, hframe⟩, hname, hexported⟩ := hmem
    subst hframe
    refine ⟨shape.node, ⟨⟨shape, hshape, rfl⟩, ?_⟩, by rw [← hname]; exact shape.frame.name_node⟩
    rw [child?_exportMark, hexported]
    rfl

/-- A chunk exports the programs of its file that are marked for export. -/
theorem DeclaredModule.ownExport?_eq (h : DeclaredModule policy g b c ps (m.programs.map (·.frame)))
    (name : String) :
    g.ownExport? c name = if name ∈ exportNames m.node then g.chunkProgram? c name else none := by
  unfold Globals.ownExport?
  cases hfound : g.chunkProgram? c name with
  | none => rw [Option.filter_none, ite_self]
  | some q =>
    obtain ⟨hq, hname⟩ := (h.chunkProgram?_iff name q).mp hfound
    obtain ⟨frame, hframe, hdeclared⟩ := exists_of_forall₂_left h.declared hq
    have hexported : (g.program q).exported = !frame.exports.isEmpty :=
      congrArg (·.2.2) hdeclared.header_eq
    have hmem : name ∈ exportNames m.node ↔ (g.program q).exported = true := by
      rw [mem_exportNames_iff]
      constructor
      · -- a marked program of that name is the one that the chunk knows by it
        intro hexported
        obtain ⟨other, hother, hnameOther, hmarked⟩ := hexported
        obtain ⟨q', hq', hdeclared'⟩ := exists_of_forall₂_right h.declared hother
        have hsame := (h.chunkProgram?_iff name q').mpr ⟨hq', hdeclared'.name_eq.trans hnameOther⟩
        obtain rfl : q = q' := Option.some.inj (hfound.symm.trans hsame)
        have hheader : (g.program q).exported = !other.exports.isEmpty :=
          congrArg (·.2.2) hdeclared'.header_eq
        rw [hheader, hmarked]
        rfl
      · intro hyes
        rw [hexported] at hyes
        exact ⟨frame, hframe, hdeclared.name_eq.symm.trans hname, by simpa using hyes⟩
    rw [Option.filter_some]
    by_cases hyes : (g.program q).exported = true
    · rw [if_pos hyes, if_pos (hmem.mpr hyes)]
    · rw [if_neg hyes, if_neg (mt hmem.mp hyes)]

end Declaration

/-- A program that is marked for export is known to the chunk. -/
theorem Declaration.DeclaredModule.exists_export {policy : FractionPolicy}
    {g : Globals} {b : Bindings} {c : ChunkId} {ps : List ProgramId} {m : ModuleShape}
    (h : DeclaredModule policy g b c ps (m.programs.map (·.frame)))
    {name : String} (hname : name ∈ exportNames m.node) : ∃ q, g.chunkProgram? c name = some q := by
  obtain ⟨frame, hframe, hnameText, -⟩ := (mem_exportNames_iff m name).mp hname
  obtain ⟨q, hq, hdeclared⟩ := exists_of_forall₂_right h.declared hframe
  exact ⟨q, (h.chunkProgram?_iff name q).mpr ⟨hq, hdeclared.name_eq.trans hnameText⟩⟩

/-! ### Sessions -/

namespace Session

variable {parser : Parser} {source : List UInt8} {file : String} {s before t : Session}

/-- A source text was compiled or declared with success. Its own passes began in the session
`before`, and the session is `t` now. -/
inductive Accepts (parser : Parser) (source : List UInt8) (file : String) (s : Session) :
    Session → Session → Prop
  | compiled {output? : Option String} {product : Machine.Module} {t : Session}
      (h : compileSource parser source file output? s = .ok product t) :
      Accepts parser source file s (after (loadSystem parser) s) t
  | declared {t : Session} (h : declareSource parser source file s = .ok () t) :
      Accepts parser source file s s t

/-- Compiling begins with reading the declaration files of the system. -/
theorem exists_loaded (hs : s.Sound) {output? : Option String} {product : Machine.Module}
    (h : compileSource parser source file output? s = .ok product t) :
    ∃ u, after (loadSystem parser) s = u ∧ s.Keeps u ∧
      run Pass.core parser source file output? u = .ok (some product) t := by
  have hkeeps := holds_after (K := s.Keeps) (keeps_loadSystem parser hs)
  simp only [compileSource, bind_apply, ordered_eq hs.passes_eq] at h
  unfold after at hkeeps ⊢
  cases hload : loadSystem parser s with
  | error e u =>
    rw [hload] at h
    cases h
  | ok _ u =>
    rw [hload] at h hkeeps
    dsimp only at h
    refine ⟨u, rfl, hkeeps, ?_⟩
    cases hrun : run Pass.core parser source file output? u with
    | error e v =>
      rw [hrun] at h
      cases h
    | ok product? v =>
      rw [hrun] at h
      cases product? with
      | none => cases h
      | some found =>
        obtain ⟨rfl, rfl⟩ := EStateM.Result.ok.inj h
        rfl

variable {root : Node}

/-- The declarations of an accepted source text were accepted, and the scope is what they left. -/
theorem Accepts.declares (h : Accepts parser source file s before t) (hs : s.Sound)
    (hroot : parser file source s.options.freeFormat = .ok root) :
    before.Sound ∧ ∃ declared run,
      passing (Pass.core.take 3) root (before.logged file source) file none = .ok declared run ∧
        t.globals = run.globals := by
  cases h with
  | @compiled output? product t h =>
    obtain ⟨u, hu, hkeeps, hrun⟩ := exists_loaded hs h
    rw [hu]
    have hparsed : parser file source u.options.freeFormat = .ok root := by
      rw [hkeeps.options_eq]; exact hroot
    rw [run_parsed hparsed, passing_core] at hrun
    refine ⟨hkeeps.sound, ?_⟩
    -- an error here would have been the error of the whole call
    cases hdeclared : passing (Pass.core.take 3) root (u.logged file source) file none with
    | error e run =>
      rw [hdeclared] at hrun
      cases hrun
    | ok declared run =>
      rw [hdeclared] at hrun
      have hrest := globals_rest declared (run.toOutput output?)
      refine ⟨declared, run, rfl, ?_⟩
      dsimp only at hrun
      cases hlast : runAll (Pass.core.drop 3) declared (run.toOutput output?) with
      | error e last =>
        rw [hlast] at hrun
        cases hrun
      | ok _ last =>
        rw [hlast] at hrun hrest
        obtain ⟨-, rfl⟩ := EStateM.Result.ok.inj hrun
        exact hrest
  | declared h =>
    rw [declareSource_parsed hs.passes_eq hroot] at h
    refine ⟨hs, ?_⟩
    cases hdeclared : passing (Pass.core.take 3) root (s.logged file source) file none with
    | error e run =>
      rw [hdeclared] at h
      cases h
    | ok declared run =>
      rw [hdeclared] at h
      obtain ⟨-, rfl⟩ := EStateM.Result.ok.inj h
      exact ⟨declared, run, rfl, rfl⟩

/-- The file of an accepted source text was declared, in a new chunk that exports what the text
exports. -/
structure Exporting (root : Node) (file : String) (g g' : Globals) : Prop where
  consistent : g.Consistent
  filed : Globals.Filed root.name file ⟨g.chunks.size⟩ (g.openFile root.name file).2 g'
  own : ∀ name, g'.ownExport? ⟨g.chunks.size⟩ name =
    if name ∈ exportNames root then g'.chunkProgram? ⟨g.chunks.size⟩ name else none
  known : ∀ name ∈ exportNames root, ∃ q, g'.chunkProgram? ⟨g.chunks.size⟩ name = some q

theorem Accepts.exporting (h : Accepts parser source file s before t) (hs : s.Sound)
    (hroot : parser file source s.options.freeFormat = .ok root)
    (hgrammar : root.grammatical = true)
    (hmodule : root.tag = .module) : Exporting root file before.globals t.globals := by
  obtain ⟨hbefore, declared, run, hpassing, hglobals⟩ := h.declares hs hroot
  have hlogged : (before.logged file source).Sound := ⟨hbefore.passes_eq, hbefore.consistent⟩
  obtain ⟨m, hm, hnumbered⟩ := exists_numbered hlogged hgrammar hmodule file none
  have hname : m.node.name = root.name := by rw [← hm, Node.name_renumber]
  have hexports : exportNames m.node = exportNames root := by rw [← hm, exportNames_renumber]
  rw [passing, hm] at hpassing
  -- the programs of the file are declared in the chunk that was opened for it
  obtain ⟨chunk, ps, hrun⟩ := ((ensures_declaring hnumbered).of_ok hpassing).declared
  have hchunk := ((undisturbed_declaring hname hexports hlogged.consistent rfl).of_ok hpassing).1
  obtain rfl : chunk = ⟨before.globals.chunks.size⟩ := by
    rw [Globals.openFile_id] at hchunk
    exact Option.some.inj (hrun.chunk?_eq.symm.trans hchunk)
  have hdeclared := hrun.module
  rw [m.frames_dropEnds] at hdeclared
  have hfiled := Globals.Filed.of_grown hbefore.consistent
    ((grown_declaring m hlogged.consistent).of_ok hpassing)
  rw [Globals.openFile_id, hname] at hfiled
  rw [hglobals]
  constructor
  case consistent => exact hbefore.consistent
  case filed => exact hfiled
  case own => exact fun name => by rw [← hexports]; exact hdeclared.ownExport?_eq name
  case known => exact fun name hmem => hdeclared.exists_export (by rw [hexports]; exact hmem)

/-- What the module of a file exports: the programs of the file that are to be exported, and under
other names what it exported before. The name of the file itself stands for no program any more,
unless the file exports one of that name. -/
theorem Exporting.exported?_eq {g g' : Globals} (h : Exporting root file g g') (name : String) :
    g'.exported? root.name name =
      if name ∈ exportNames root then g'.chunkProgram? ⟨g.chunks.size⟩ name
      else if file = name then none else g.exported? root.name name := by
  rw [h.filed.exported?_eq, if_pos rfl, h.own, Globals.openFile_exported? h.consistent]
  by_cases hmem : name ∈ exportNames root
  · obtain ⟨q, hq⟩ := h.known name hmem
    rw [if_pos hmem, if_pos hmem, hq, Option.some_or]
  · rw [if_neg hmem, if_neg hmem, Option.none_or]

/-- A program that was there is in the file where it was. -/
theorem Exporting.home_eq {g g' : Globals} (h : Exporting root file g g') {owner name : String}
    {p : ProgramId} (hp : g.exported? owner name = some p) :
    (g'.chunk (g'.program p).owner).name = (g.chunk (g.program p).owner).name := by
  have hlt := (h.consistent.exported hp).1
  have hchunk := h.consistent.program_owner p hlt
  rw [h.filed.program_eq p (by rw [Globals.openFile_programs]; exact hlt), Globals.openFile_program,
    (h.filed.chunk_eq _).1, Globals.openFile_chunk_of_lt _ _ hchunk]

/-- What a file exports from its module after it was compiled or declared: the programs just
declared that it is to export, and under all other names but its own the programs of its earlier
versions. So these are gone if and only if the names that they had are exported again, or stand for
the file. -/
theorem reexport_exact {s : Session} (hs : s.Reachable) {parser : Parser} {source : List UInt8}
    {file : String} {root : Node} (hroot : parser file source s.options.freeFormat = .ok root)
    (hgrammar : root.grammatical = true) (hmodule : root.tag = .module) {before t : Session}
    (hcall : Accepts parser source file s before t) :
    (∀ name p, t.globals.ExportsFrom file root.name name p ↔
      name ∈ exportNames root ∧ t.globals.chunkProgram? ⟨before.globals.chunks.size⟩ name = some p ∨
      name ∉ exportNames root ∧ name ≠ file ∧ before.globals.ExportsFrom file root.name name p) ∧
    ((∀ name p, t.globals.ExportsFrom file root.name name p →
        name ∈ exportNames root ∧
          t.globals.chunkProgram? ⟨before.globals.chunks.size⟩ name = some p) ↔
      ∀ name p, before.globals.ExportsFrom file root.name name p → name ∈ exportNames root ∨
        name = file) := by
  have h := hcall.exporting hs.sound hroot hgrammar hmodule
  have hexact : ∀ name p, t.globals.ExportsFrom file root.name name p ↔
      name ∈ exportNames root ∧ t.globals.chunkProgram? ⟨before.globals.chunks.size⟩ name = some p ∨
      name ∉ exportNames root ∧ name ≠ file ∧ before.globals.ExportsFrom file root.name name p := by
    intro name p
    rw [Globals.ExportsFrom, h.exported?_eq]
    by_cases hmem : name ∈ exportNames root
    · -- the program is in the chunk of the file
      have hhome : t.globals.chunkProgram? ⟨before.globals.chunks.size⟩ name = some p →
          (t.globals.chunk (t.globals.program p).owner).name = file := by
        intro hp
        rw [(h.filed.own name p hp).2.2, h.filed.file_eq]
      rw [if_pos hmem]
      constructor
      · exact fun hp => .inl ⟨hmem, hp.1⟩
      · intro hp
        rcases hp with hp | hp
        · exact ⟨hp.2, hhome hp.2⟩
        · exact absurd hmem hp.1
    · rw [if_neg hmem]
      by_cases hfile : file = name
      · simp [hmem, hfile]
      · rw [if_neg hfile]
        constructor
        · intro hp
          exact .inr ⟨hmem, fun heq => hfile heq.symm, hp.1, (h.home_eq hp.1).symm.trans hp.2⟩
        · intro hp
          rcases hp with hp | ⟨-, -, hp⟩
          · exact absurd hp.1 hmem
          · exact ⟨hp.1, (h.home_eq hp.1).trans hp.2⟩
  refine ⟨hexact, ?_, ?_⟩
  · intro hnew name p hp
    by_contra hgone
    obtain ⟨hmem, hname⟩ := not_or.mp hgone
    exact hmem (hnew name p ((hexact name p).mpr (.inr ⟨hmem, hname, hp⟩))).1
  · intro hgone name p hp
    rcases (hexact name p).mp hp with hnew | ⟨hmem, hname, hold⟩
    · exact hnew
    · exact absurd (hgone name p hold) (not_or.mpr ⟨hmem, hname⟩)

/-- A module that exports programs of some names. -/
def ledgerModule (names : List String) : Node :=
  Build.module "LEDGER"
    (names.map fun name => Build.program name [Build.leaf .exportMark, Build.procedure [] [] []])

/-- The file of a ledger: a text is empty in the first version, which exports two programs; the
other exports one of them. -/
def ledgerParser : Parser := fun _ source _ =>
  .ok (ledgerModule (if source = [] then ["OPEN", "CLOSE"] else ["OPEN"]))

/-- The session in which the first version of a ledger was compiled. -/
def ledgerSession : Session :=
  after (compileSource ledgerParser [] "LEDGER.cbl" none) (start {} .empty)

/-- The program that both versions export is the one of the second version, once that was
compiled. -/
theorem ledger_reexported :
    ∃ product t, compileSource ledgerParser [1] "LEDGER.cbl" none ledgerSession = .ok product t ∧
      ∀ p, t.globals.ExportsFrom "LEDGER.cbl" "LEDGER" "OPEN" p ↔
        t.globals.chunkProgram? ⟨1⟩ "OPEN" = some p := by
  have hs : ledgerSession.Reachable :=
    .compiled (.start {} .empty) ledgerParser [] "LEDGER.cbl" none
  have haccepted : answers (compileSource ledgerParser [1] "LEDGER.cbl" none) ledgerSession =
      true := by decide +kernel
  have hsize : (after (loadSystem ledgerParser) ledgerSession).globals.chunks.size = 1 := by
    decide +kernel
  obtain ⟨product, t, ht⟩ := exists_of_answers haccepted
  have hroot : ledgerParser "LEDGER.cbl" [1] ledgerSession.options.freeFormat =
      .ok (ledgerModule ["OPEN"]) := rfl
  obtain ⟨hexact, -⟩ :=
    reexport_exact hs hroot (by decide +kernel) (by decide +kernel) (.compiled ht)
  have hmem : "OPEN" ∈ exportNames (ledgerModule ["OPEN"]) := by decide +kernel
  have hname : (ledgerModule ["OPEN"]).name = "LEDGER" := by decide +kernel
  refine ⟨product, t, ht, fun p => ?_⟩
  rw [← hname, hexact, hsize]
  simp [hmem]

/-- The second version does not export the other program, and yet it can still be called: it is the
one that the first version left. -/
theorem stale_export_remains :
    ∃ product t p, compileSource ledgerParser [1] "LEDGER.cbl" none ledgerSession = .ok product t ∧
      ledgerSession.Reachable ∧ "CLOSE" ∉ exportNames (ledgerModule ["OPEN"]) ∧
      t.globals.ExportsFrom "LEDGER.cbl" "LEDGER" "CLOSE" p ∧
        p.index < ledgerSession.globals.programs.size := by
  have hs : ledgerSession.Reachable :=
    .compiled (.start {} .empty) ledgerParser [] "LEDGER.cbl" none
  have haccepted : answers (compileSource ledgerParser [1] "LEDGER.cbl" none) ledgerSession =
      true := by decide +kernel
  obtain ⟨product, t, ht⟩ := exists_of_answers haccepted
  have hafter : after (compileSource ledgerParser [1] "LEDGER.cbl" none) ledgerSession = t := by
    rw [after, ht]
  refine ⟨product, t, ⟨1⟩, ht, hs, by decide +kernel, ?_, by decide +kernel⟩
  rw [← hafter]
  exact ⟨by decide +kernel, by decide +kernel⟩

end Session

end CobolCompiler
