import CobolCompiler.Proofs.LeftAlone
import CobolCompiler.Proofs.ScopeEffect
import CobolCompiler.Proofs.Syntax
import Mathlib.Data.List.Basic

/-!
# Modules that were begun and not handed over

Code generation begins a module when it comes to the module of a tree, and hands it over at the end
of the tree. If it stops in between, the module stays pending: it belongs to the session, not to the
compilation that stopped. The next tree that gets through code generation drops it if it has a
module of its own, and otherwise it is handed over as the result of that tree.

So a source without a module has no result, and nothing is written for it, as long as no module is
pending (`moduleless_source_has_no_result`). None is pending where no compilation stopped while its
code was generated (`Session.Settled`); stopping in any other pass does no harm.
-/

namespace CobolCompiler

open Machine

/-! ### Trees without modules -/

namespace Node

/-- There is no module in a tree. -/
def Moduleless (n : Node) : Prop :=
  ∀ m ∈ n.nodes, m.tag ≠ .module

theorem moduleless_iff {n : Node} :
    n.Moduleless ↔ n.tag ≠ .module ∧ ∀ c ∈ n.children, c.Moduleless := by
  constructor
  · intro h
    exact ⟨h n n.self_mem_nodes, fun c hc m hm => h m (mem_nodes_of_child hc hm)⟩
  · intro h m hm
    rcases mem_nodes.mp hm with rfl | ⟨c, hc, hm⟩
    · exact h.1
    · exact h.2 c hc m hm

theorem moduleless_mk {id : Nat} {payload : Payload} {location : Location} {children : List Node} :
    Moduleless ⟨id, payload, location, children⟩ ↔ payload.tag ≠ .module ∧ ∀ c ∈ children,
      c.Moduleless :=
  moduleless_iff

theorem moduleless_erased {n : Node} : n.erased.Moduleless ↔ n.Moduleless := by
  simp [Moduleless, nodes_erased]

theorem Moduleless.renumber {n : Node} (h : n.Moduleless) (next : Nat) :
    (n.renumber next).1.Moduleless := by
  rw [← moduleless_erased, erased_renumber, moduleless_erased]
  exact h

end Node

namespace Rebuilder

variable {ε σ : Type} {f : Rebuilder ε σ}

/-- A tree without modules is replaced by such trees. -/
def AddsNoModule (f : Rebuilder ε σ) : Prop :=
  ∀ n s, n.Moduleless → Ensures (f n) s (fun ns _ => ∀ k ∈ ns, k.Moduleless) (fun _ _ => True)

/-- Then rebuilding makes no module. -/
theorem AddsNoModule.rebuild (h : AddsNoModule f) (n : Node) (s : σ) :
    Ensures (rebuild f n) s (fun ns _ => n.Moduleless → ∀ k ∈ ns, k.Moduleless)
      (fun _ _ => True) := by
  refine ensures_rebuild (P := fun n _ ns _ => n.Moduleless → ∀ k ∈ ns, k.Moduleless)
    (Q := fun children _ ns _ => (∀ c ∈ children, c.Moduleless) → ∀ k ∈ ns, k.Moduleless)
    ?_ ?_ ?_ n s
  · simp
  · intro n rest ns ms _ _ _ hfirst hrest hall k hk
    rcases List.mem_append.mp hk with hk | hk
    · exact hfirst (hall n List.mem_cons_self) k hk
    · exact hrest (fun c hc => hall c (List.mem_cons_of_mem n hc)) k hk
  · intro id payload location children rebuilt s t hrebuilt
    by_cases hn : Node.Moduleless ⟨id, payload, location, children⟩
    · obtain ⟨htag, hbelow⟩ := Node.moduleless_iff.mp hn
      exact (h _ t (Node.moduleless_mk.mpr ⟨htag, hrebuilt hbelow⟩)).imp fun _ _ hns _ => hns
    · exact ensures_iff.mpr ⟨fun _ _ _ hno => absurd hno hn, fun _ _ _ => trivial⟩

theorem AddsNoModule.rebuildTree (h : AddsNoModule f) (replaced : Nat → ε) {root : Node}
    (hroot : root.Moduleless) (s : σ) :
    Ensures (rebuildTree f replaced root) s (fun root' _ => root'.Moduleless)
      (fun _ _ => True) := by
  refine (h.rebuild root s).bind ?_
  intro ns t hns
  split
  · exact hns hroot _ List.mem_cons_self
  · trivial

end Rebuilder

section rewriting

variable {n : Node}

theorem addsNoModule_dropMarkers (file : String) : (Declaration.dropMarkers file).AddsNoModule := by
  intro n s hn
  obtain ⟨htag, hbelow⟩ := Node.moduleless_iff.mp hn
  unfold Declaration.dropMarkers
  split
  · split
    · trivial
    · rw [ensures_pure, List.forall_mem_singleton, Node.moduleless_iff]
      exact ⟨htag, fun c hc => hbelow c (List.mem_filter.mp hc).1⟩
  · simpa using hn

theorem moduleless_displayCall {operand : Node} (h : operand.Moduleless) (next : Nat)
    (location : Location) :
    (CallSite.displayCall next location operand).Moduleless := by
  obtain ⟨htag, hbelow⟩ := Node.moduleless_iff.mp h
  have hoperand : (CallSite.displayed operand).Moduleless := by
    unfold CallSite.displayed
    split
    · exact Node.moduleless_iff.mpr ⟨by simp [Node.tag, Payload.tag], hbelow⟩
    · exact h
  simp [CallSite.displayCall, Node.moduleless_mk, Payload.tag, hoperand]

theorem addsNoModule_displayCalls : CallSite.displayCalls.AddsNoModule := by
  intro n next hn
  by_cases hdisplay : n.payload = .displayStatement
  · unfold CallSite.displayCalls
    rw [hdisplay]
    intro k hk
    obtain ⟨i, hi, rfl⟩ := List.mem_mapIdx.mp hk
    exact moduleless_displayCall ((Node.moduleless_iff.mp hn).2 _ (List.getElem_mem hi)) _ _
  · have hkept : CallSite.displayCalls n = pure [n] := by
      obtain ⟨id, payload, location, children⟩ := n
      cases payload <;> first | rfl | exact absurd rfl hdisplay
    rw [hkept, ensures_pure, List.forall_mem_singleton]
    exact hn

theorem addsNoModule_reverseUsings : Generation.reverseUsings.AddsNoModule := by
  intro n s hn
  obtain ⟨htag, hbelow⟩ := Node.moduleless_iff.mp hn
  unfold Generation.reverseUsings
  split
  · rw [ensures_pure, List.forall_mem_singleton, Node.moduleless_iff]
    exact ⟨htag, fun c hc => hbelow c (List.mem_reverse.mp hc)⟩
  · simpa using hn

end rewriting

/-! ### Before code generation -/

/-- What the passes before code generation leave alone: the module that comes out and where it goes,
the files, and the code under construction. -/
def Run.outcome (run : Run) : Option Module × Option String × FileStore × Generator :=
  (run.product?, run.output?, run.files, run.memory.generator)

/-- A pass leaves the outcome of a run alone, and makes no module. -/
def Harmless (action : Node → RunM Node) : Prop :=
  ∀ root run, Ensures (action root) run
    (fun root' t => t.outcome = run.outcome ∧ (root.Moduleless → root'.Moduleless))
    (fun _ t => t.outcome = run.outcome)

section passes

variable {σ α : Type} {part : Run → σ} {put : σ → Run → Run}

theorem leaves_onPart (h : ∀ s run, (put s run).outcome = run.outcome) (step : EStateM Stop σ α) :
    Leaves Run.outcome (onPart part put step) := by
  intro run
  rw [ensures_onPart, ensures_iff]
  exact ⟨fun _ s _ => h s run, fun _ s _ => h s run⟩

/-- A pass that walks the tree hands on the tree that it was given. -/
theorem harmless_ofWalk (h : ∀ s run, (put s run).outcome = run.outcome)
    (step : Run → Node → EStateM Stop σ Unit) :
    Harmless (Pass.ofWalk fun root => get >>= fun run => onPart part put (step run root)) := by
  intro root run
  unfold Pass.ofWalk
  rw [ensures_bind, ensures_bind, ensures_get]
  exact (leaves_onPart h (step run root) run).imp fun _ _ ht => ⟨ht, id⟩

/-- A pass that rebuilds the tree makes no module, if it replaces no node by one. -/
theorem harmless_rebuild (h : ∀ s run, (put s run).outcome = run.outcome) {f : Rebuilder Stop σ}
    (hf : f.AddsNoModule) (replaced : Nat → Stop) :
    Harmless fun root => onPart part put (f.rebuildTree replaced root) := by
  intro root run
  have hleaves : Ensures (onPart part put (f.rebuildTree replaced root)) run _ _ :=
    leaves_onPart h _ run
  by_cases hroot : root.Moduleless
  · have htree : Ensures (onPart part put (f.rebuildTree replaced root)) run
        (fun root' _ => root'.Moduleless) (fun _ _ => True) := by
      rw [ensures_onPart]
      exact hf.rebuildTree replaced hroot (part run)
    exact (hleaves.and htree).mono (fun _ _ ht => ⟨ht.1, fun _ => ht.2⟩) fun _ _ ht => ht.1
  · exact hleaves.imp fun _ _ ht => ⟨ht, fun hno => absurd hno hroot⟩

theorem harmless_core {pass : Pass} (hpass : pass ∈ Pass.core.take 9) : Harmless pass.action := by
  simp only [Pass.core, List.take_succ_cons, List.take_zero, List.mem_cons, List.not_mem_nil,
    or_false] at hpass
  -- a pass either walks over the tree or rebuilds it, on a part of the run that has nothing to do
  -- with its outcome
  rcases hpass with rfl | rfl | rfl | rfl | rfl | rfl | rfl | rfl | rfl
  · show Harmless Declaration.define
    unfold Declaration.define
    apply harmless_ofWalk
    exact fun _ _ => rfl
  · intro root run
    show Ensures (Declaration.endMarkers root) run _ _
    unfold Declaration.endMarkers
    rw [ensures_bind, ensures_get]
    exact @harmless_rebuild _ (fun _ => ()) (fun _ run => run) (fun _ _ => rfl) _
      (addsNoModule_dropMarkers run.file) _ root run
  · show Harmless Declaration.usageTypes
    unfold Declaration.usageTypes
    apply harmless_ofWalk
    exact fun _ _ => rfl
  · show Harmless CallSite.lowerDisplay
    unfold CallSite.lowerDisplay
    apply harmless_rebuild
    · exact fun _ _ => rfl
    · exact addsNoModule_displayCalls
  · show Harmless CallSite.resolve
    unfold CallSite.resolve
    apply harmless_ofWalk
    exact fun _ _ => rfl
  · show Harmless CallSite.argumentTypes
    unfold CallSite.argumentTypes
    apply harmless_ofWalk
    exact fun _ _ => rfl
  · show Harmless CallSite.check
    unfold CallSite.check
    apply harmless_ofWalk
    exact fun _ _ => rfl
  · exact fun _ _ => ⟨rfl, id⟩
  · show Harmless Generation.reverseArguments
    unfold Generation.reverseArguments
    apply harmless_rebuild
    · exact fun _ _ => rfl
    · exact addsNoModule_reverseUsings

/-- So the passes before code generation are harmless, in whatever selection they run. -/
theorem harmless_passes {passes : List Pass} (hpasses : ∀ pass ∈ passes, pass ∈ Pass.core.take 9) :
    Harmless (runAll passes) := by
  intro root run
  refine ensures_foldlM (fun _ (root' : Node) (t : Run) => t.outcome = run.outcome ∧
    (root.Moduleless → root'.Moduleless)) ⟨rfl, id⟩ ?_
  intro done pass rest root' t hsplit ht
  refine (harmless_core (hpasses pass (by rw [hsplit]; simp)) root' t).mono ?_ fun _ _ hu =>
    hu.trans ht.1
  exact fun _ _ hu => ⟨hu.1.trans ht.1, fun hroot => hu.2 (ht.2 hroot)⟩

theorem harmless_checking : Harmless (runAll (Pass.core.take 9)) :=
  harmless_passes fun _ hpass => hpass

end passes

/-! ### Code generation -/

namespace Generation

/-- Whether a module is pending, and its name. -/
def pendingOf (g : Generator) : Bool × String :=
  (g.started, g.assembler.built.name)

variable {α : Type} {env : Env}

/-- A step that leaves the pending module pending, under its name. -/
abbrev KeepsPending (step : GenM α) : Prop :=
  Leaves pendingOf step

theorem Grounded.keepsPending {names : List (Option String)} {step : GenM α}
    (h : Grounded names step) :
    KeepsPending step :=
  h.holds (fun hleaves => hleaves.comp fun ground => (ground.2.2, ground.1.1))
    (fun value => leaves_intern value (fun _ _ => rfl) fun _ _ => rfl) Leaves.bind

/-- Generating code for a tree without modules leaves the pending module pending. -/
theorem keepsPending_visit {root : Node} (h : root.Moduleless) :
    KeepsPending ((visitor env).visit root) := by
  intro g
  rw [Visitor.visit, show (visitor env).finish = pure () from rfl, bind_pure_unit]
  refine Visitor.ensures_walk_of_mem (I := fun g' => pendingOf g' = pendingOf g) ?_ ?_ rfl
  · intro n hn g' hg'
    obtain ⟨names, henter⟩ := exists_grounded_enter (h n hn)
    exact (henter.keepsPending g').mono (fun _ _ heq => heq.trans hg') fun _ _ heq => heq.trans hg'
  · intro n _ g' hg'
    exact ((grounded_leave n).keepsPending g').mono (fun _ _ heq => heq.trans hg') fun _ _ heq =>
      heq.trans hg'

/-- Code generation walks the tree and then hands over the module. -/
theorem ensures_generate_iff {root : Node} {run : Run} {ok : Node → Run → Prop}
    {err : Stop → Run → Prop} :
    Ensures (generate root) run ok err ↔
      Ensures ((visitor { CallSite.Env.ofRun run with bindings := run.bindings }).visit root)
        run.memory.generator
        (fun _ g => Ensures finish { run with memory := { run.memory with generator := g } }
          (fun _ => ok root) err)
        (fun e g => err e { run with memory := { run.memory with generator := g } }) := by
  unfold generate Pass.ofWalk
  rw [ensures_bind, ensures_bind, ensures_get, ensures_bind, onGenerator, ensures_onPart]
  rfl

/-- What there is once a module was handed over: it is the product of the run, and was written if
there is an output file. -/
structure HandsOver (run t : Run) (product : Module) : Prop where
  settled : t.memory.generator.started = false
  product?_eq : t.product? = some product
  written : ∀ path, run.output? = some path → run.files.write path product.toBytes = .ok t.files

/-- If no module is pending, there is nothing to hand over. -/
theorem finish_of_settled {run : Run} (h : run.memory.generator.started = false) :
    finish run = .ok () run := by
  simp only [finish, bind_apply, get_apply, h]
  rfl

/-- If a module is pending, it is handed over; it does not stay pending even if it cannot be
written. -/
theorem handsOver_finish {run : Run} (h : run.memory.generator.started = true) :
    Ensures finish run (fun _ t => HandsOver run t run.memory.generator.assembler.built)
      (fun _ t => t.memory.generator.started = false) := by
  unfold finish onGenerator writeOutput
  simp only [ensures_bind, ensures_get, h, if_true, ensures_onPart, ensures_modify]
  -- the module is written first, and handed over only if that succeeds
  split
  · next path hpath =>
    split
    · next files hwrite =>
      refine ⟨rfl, rfl, fun path' hpath' => ?_⟩
      obtain rfl := Option.some.inj (hpath.symm.trans hpath')
      exact hwrite
    · rfl
  · next hnone => exact ⟨rfl, rfl, fun path hpath => absurd hpath (hnone path)⟩

/-- Once code generation answers, no module is pending. -/
theorem settled_generate (root : Node) (run : Run) :
    Ensures (generate root) run (fun _ t => t.memory.generator.started = false)
      (fun _ _ => True) := by
  rw [ensures_generate_iff, ensures_iff]
  refine ⟨fun _ g _ => ?_, fun _ _ _ => trivial⟩
  cases hstarted : g.started with
  | true => exact (handsOver_finish hstarted).mono (fun _ _ ht => ht.settled) fun _ _ _ => trivial
  | false =>
    rw [ensures_of_eq (finish_of_settled hstarted)]
    exact hstarted

/-- Where no module is pending and none is begun, no module comes out and none is written. -/
theorem idle_generate {root : Node} (hroot : root.Moduleless) {run : Run}
    (hrun : run.memory.generator.started = false) :
    Ensures (generate root) run
      (fun _ t => t.product? = run.product? ∧ t.files = run.files ∧
        t.memory.generator.started = false)
      (fun _ t => t.files = run.files ∧ t.memory.generator.started = false) := by
  rw [ensures_generate_iff]
  refine (keepsPending_visit hroot run.memory.generator).mono ?_ ?_
  · intro _ g hg
    have hstarted : g.started = false := (congrArg Prod.fst hg).trans hrun
    rw [ensures_of_eq (finish_of_settled hstarted)]
    exact ⟨rfl, rfl, hstarted⟩
  · exact fun _ g hg => ⟨rfl, (congrArg Prod.fst hg).trans hrun⟩

/-- Where a module is pending and none is begun, the pending one comes out. -/
theorem stale_generate {root : Node} (hroot : root.Moduleless) {run : Run}
    (hrun : run.memory.generator.started = true) :
    Ensures (generate root) run
      (fun _ t => ∃ product, HandsOver run t product ∧
        product.name = run.memory.generator.assembler.built.name)
      (fun _ _ => True) := by
  rw [ensures_generate_iff]
  refine (keepsPending_visit hroot run.memory.generator).mono ?_ fun _ _ _ => trivial
  intro _ g hg
  -- the walk may have added to the pending module, but it is still pending under its name
  have hstarted : g.started = true := (congrArg Prod.fst hg).trans hrun
  refine (handsOver_finish hstarted).mono ?_ fun _ _ _ => trivial
  exact fun _ t ht =>
    ⟨g.assembler.built, ⟨ht.settled, ht.product?_eq, ht.written⟩, congrArg Prod.snd hg⟩

end Generation

/-! ### Sessions -/

namespace Session

/-- Whether a module was begun and not handed over. -/
def pending (s : Session) : Bool :=
  s.memory.generator.started

/-- A session with the core passes, which has the files and the code under construction of another
one. -/
structure Untouched (s t : Session) : Prop where
  passes_eq : t.passes = Pass.core
  options_eq : t.options = s.options
  files_eq : t.files = s.files
  generator_eq : t.memory.generator = s.memory.generator

variable {parser : Parser} {source : List UInt8} {file : String} {output? : Option String}
  {s t u : Session} {root : Node}

theorem Untouched.logged (h : Untouched s t) (file : String) (source : List UInt8) :
    Untouched s (t.logged file source) :=
  ⟨h.passes_eq, h.options_eq, h.files_eq, h.generator_eq⟩

/-- Taking over a run with an unchanged outcome. -/
theorem Untouched.endRun (h : Untouched s t) {nextId : Nat} {run : Run}
    (hrun : run.outcome = (t.beginRun file output? nextId).outcome) :
    Untouched s (t.endRun run) := by
  simp only [Run.outcome, beginRun, Prod.mk.injEq] at hrun
  obtain ⟨-, -, hfiles, hgenerator⟩ := hrun
  exact ⟨h.passes_eq, h.options_eq, hfiles.trans h.files_eq, hgenerator.trans h.generator_eq⟩

/-- Declaring a source text touches neither the files nor the code under construction. -/
theorem Untouched.declareSource (h : Untouched s t) :
    Ensures (declareSource parser source file) t (fun _ => Untouched s) (fun _ => Untouched s) := by
  unfold Session.declareSource
  rw [ensures_bind, ensures_ordered h.passes_eq, ensures_bind]
  refine ensures_run (fun _ => h.logged file source) fun root _ => ?_
  have hdeclaring : Pass.core.filter (·.declares) = (Pass.core.take 9).take 3 := rfl
  rw [hdeclaring]
  refine (harmless_passes (fun _ hpass => List.mem_of_mem_take hpass) _ _).mono ?_ ?_
  · exact fun _ _ hrun => (h.logged file source).endRun hrun.1
  · exact fun _ _ hrun => (h.logged file source).endRun hrun

theorem untouched_loadSystem (parser : Parser) (hs : s.passes = Pass.core) :
    Ensures (loadSystem parser) s (fun _ => Untouched s) (fun _ => Untouched s) := by
  refine ensures_loadSystem ⟨hs, rfl, rfl, rfl⟩
    (fun t ht => ⟨ht.passes_eq, ht.options_eq, ht.files_eq, ht.generator_eq⟩) (fun _ _ ht => ht) ?_
  exact fun path _ content t ht _ => ht.declareSource

/-- What a compilation answers with once its passes are over. -/
def conclude (s : Session) (file : String) :
    EStateM.Result Stop Run Node → EStateM.Result Stop Session Module
  | .ok _ run =>
      match run.product? with
      | some product => .ok product (s.endRun run)
      | none => .error (.failed (.noModule file)) (s.endRun run)
  | .error e run => .error e (s.endRun run)

/-- Compiling a source text that is a tree, once the declaration files of the system were read. -/
theorem compileSource_loaded (hs : s.passes = Pass.core) (hload : loadSystem parser s = .ok () u)
    (hroot : parser file source u.options.freeFormat = .ok root) :
    compileSource parser source file output? s =
      (u.logged file source).conclude file
        (passing Pass.core root (u.logged file source) file output?) := by
  simp only [compileSource, bind_apply, ordered_eq hs, hload, run_parsed hroot]
  cases passing Pass.core root (u.logged file source) file output? with
  | error e run => rfl
  | ok _ run =>
    simp only [conclude]
    cases run.product? <;> rfl

/-- The last of the passes generates code. -/
theorem passing_generate (root : Node) (u : Session) (file : String) (output? : Option String) :
    passing Pass.core root u file output? =
      match passing (Pass.core.take 9) root u file output? with
      | .ok checked run => Generation.generate checked run
      | .error e run => .error e run := by
  have hsplit : Pass.core = Pass.core.take 9 ++ [Pass.core[9]] := rfl
  conv_lhs => rw [passing, hsplit, runAll_append]
  rw [bind_apply]
  unfold passing
  cases runAll (Pass.core.take 9) (root.renumber 0).1
    (u.beginRun file output? (root.renumber 0).2) with
  | error e run => rfl
  | ok checked run =>
    show (Generation.generate checked >>= pure) run = _
    rw [bind_pure]

/-- Compiling a source text comes to code generation: the tree of the text has become another one,
which is checked. -/
structure Generating (parser : Parser) (source : List UInt8) (file : String)
    (output? : Option String) (s u : Session) (root checked : Node) (run : Run) : Prop where
  loaded : loadSystem parser s = .ok () u
  parsed : parser file source u.options.freeFormat = .ok root
  passing_eq : passing (Pass.core.take 9) root (u.logged file source) file output? = .ok checked run

namespace Generating

variable {checked : Node} {run : Run}
  (h : Generating parser source file output? s u root checked run)

include h

/-- Then the outcome is the one of code generation. -/
theorem compileSource_eq (hs : s.passes = Pass.core) :
    compileSource parser source file output? s =
      (u.logged file source).conclude file (Generation.generate checked run) := by
  rw [compileSource_loaded hs h.loaded h.parsed, passing_generate, h.passing_eq]

theorem untouched (hs : s.passes = Pass.core) : Untouched s u :=
  (untouched_loadSystem parser hs).of_ok h.loaded

theorem harmless : run.outcome = (none, output?, u.files, u.memory.generator) ∧
    (root.Moduleless → checked.Moduleless) := by
  obtain ⟨houtcome, hmoduleless⟩ := (harmless_checking _ _).of_ok h.passing_eq
  exact ⟨houtcome, fun hroot => hmoduleless (hroot.renumber 0)⟩

end Generating

/-- Where compiling a source text does not come to code generation, it stops, and the files and the
code under construction are untouched. -/
theorem compileSource_cases (hs : s.passes = Pass.core) (parser : Parser) (source : List UInt8)
    (file : String) (output? : Option String) :
    (∃ e t, compileSource parser source file output? s = .error e t ∧ Untouched s t) ∨
      ∃ u root checked run, Generating parser source file output? s u root checked run := by
  -- there are three places to stop at before code generation: the system, the text, and the passes
  cases hload : loadSystem parser s with
  | error e u =>
    refine .inl ⟨e, u, ?_, (untouched_loadSystem parser hs).of_error hload⟩
    simp only [compileSource, bind_apply, ordered_eq hs, hload]
  | ok _ u =>
    have hsystem : Untouched s u := (untouched_loadSystem parser hs).of_ok hload
    cases hroot : parser file source u.options.freeFormat with
    | error refusal =>
      refine .inl ⟨.fault (.parse refusal.message) file refusal.location none, _, ?_,
        hsystem.logged file source⟩
      simp only [compileSource, bind_apply, ordered_eq hs, hload, run_refused hroot]
    | ok root =>
      cases hpassing : passing (Pass.core.take 9) root (u.logged file source) file output? with
      | ok checked run => exact .inr ⟨u, root, checked, run, hload, hroot, hpassing⟩
      | error e run =>
        have houtcome := (harmless_checking _ _).of_error hpassing
        refine .inl ⟨e, _, ?_, (hsystem.logged file source).endRun houtcome⟩
        rw [compileSource_loaded hs hload hroot, passing_generate, hpassing]
        rfl

theorem Untouched.pending_eq (h : Untouched s t) : t.pending = s.pending :=
  congrArg Generator.started h.generator_eq

/-- Whatever it answers with, the session is the one that takes over the run. -/
theorem stateOf_conclude (result : EStateM.Result Stop Run Node) :
    stateOf (s.conclude file result) = s.endRun (stateOf result) := by
  cases result with
  | error e run => rfl
  | ok root run =>
    simp only [conclude]
    cases run.product? <;> rfl

theorem after_eq_stateOf {α : Type} (step : SessionM α) (s : Session) :
    after step s = stateOf (step s) := by
  unfold after
  cases step s <;> rfl

/-! ### Compilations that get through their passes, and those that stop in the last one -/

/-- No pass stops when a source text is compiled. -/
def GetsThrough (parser : Parser) (source : List UInt8) (file : String) (output? : Option String)
    (s : Session) : Prop :=
  ∃ u root last run, loadSystem parser s = .ok () u ∧
    parser file source u.options.freeFormat = .ok root ∧
    passing Pass.core root (u.logged file source) file output? = .ok last run

/-- Compiling a source text stops in code generation. -/
def StopsGenerating (parser : Parser) (source : List UInt8) (file : String)
    (output? : Option String) (s : Session) : Prop :=
  ∃ u root checked run e t, Generating parser source file output? s u root checked run ∧
    Generation.generate checked run = .error e t

theorem GetsThrough.generating (h : GetsThrough parser source file output? s) :
    ∃ u root checked run last t, Generating parser source file output? s u root checked run ∧
      Generation.generate checked run = .ok last t := by
  obtain ⟨u, root, last, run, hload, hroot, hpassing⟩ := h
  rw [passing_generate] at hpassing
  split at hpassing
  · next checked before hchecked =>
      exact ⟨u, root, checked, before, last, run, ⟨hload, hroot, hchecked⟩, hpassing⟩
  · cases hpassing

/-- If no pass stops, then a compilation can only fail for want of a module. -/
theorem GetsThrough.noModule (h : GetsThrough parser source file output? s)
    (hs : s.passes = Pass.core) {e : Stop}
    (he : compileSource parser source file output? s = .error e t) :
    e = .failed (.noModule file) := by
  obtain ⟨u, root, last, run, hload, hroot, hpassing⟩ := h
  rw [compileSource_loaded hs hload hroot, hpassing, conclude] at he
  cases hproduct : run.product? with
  | some product =>
    rw [hproduct] at he
    cases he
  | none =>
    rw [hproduct] at he
    exact (EStateM.Result.error.inj he).1.symm

/-- A compilation that does not stop in code generation leaves no module pending, unless one was. -/
theorem settled_compileSource (hs : s.passes = Pass.core) (hpending : s.pending = false)
    (hstops : ¬StopsGenerating parser source file output? s) :
    (after (compileSource parser source file output?) s).pending = false := by
  rw [after_eq_stateOf]
  rcases compileSource_cases hs parser source file output?
    with ⟨e, t, he, ht⟩ | ⟨u, root, checked, run, hgenerating⟩
  · rw [he]
    exact ht.pending_eq.trans hpending
  · rw [hgenerating.compileSource_eq hs, stateOf_conclude]
    cases hgenerate : Generation.generate checked run with
    | ok last t => exact (Generation.settled_generate checked run).of_ok hgenerate
    | error e t => exact absurd ⟨u, root, checked, run, e, t, hgenerating, hgenerate⟩ hstops

/-- A compilation with a result leaves no module pending, even if one was. -/
theorem settled_of_ok (hs : s.passes = Pass.core) {product : Module}
    (h : compileSource parser source file output? s = .ok product t) : t.pending = false := by
  have hstate : stateOf (compileSource parser source file output? s) = t := by rw [h]; rfl
  rcases compileSource_cases hs parser source file output?
    with ⟨e, t', he, -⟩ | ⟨u, root, checked, run, hgenerating⟩
  · rw [he] at h
    cases h
  · rw [hgenerating.compileSource_eq hs] at h hstate
    rw [← hstate, stateOf_conclude]
    cases hgenerate : Generation.generate checked run with
    | ok last t => exact (Generation.settled_generate checked run).of_ok hgenerate
    | error e t =>
      rw [hgenerate] at h
      cases h

/-- The sessions in which no compilation stopped in code generation, or one had a result after the
last that did. -/
inductive Settled : Session → Prop
  | start (options : Options) (files : FileStore) : Settled (start options files)
  | compiled {s : Session} (hs : s.Settled) (parser : Parser) (source : List UInt8) (file : String)
      (output? : Option String) (hstops : ¬StopsGenerating parser source file output? s) :
      Settled (after (compileSource parser source file output?) s)
  | answered {s t : Session} (hs : s.Reachable) (parser : Parser) (source : List UInt8)
      (file : String) (output? : Option String) (product : Module)
      (h : compileSource parser source file output? s = .ok product t) : Settled t
  | declared {s : Session} (hs : s.Settled) (parser : Parser) (source : List UInt8)
      (file : String) : Settled (after (declareSource parser source file) s)
  | files {s : Session} (hs : s.Settled) (files : FileStore) : Settled { s with files }

theorem Settled.reachable (hs : s.Settled) : s.Reachable := by
  induction hs with
  | start options files => exact .start options files
  | compiled _ parser source file output? _ ih => exact .compiled ih parser source file output?
  | @answered s t hs parser source file output? product h =>
    have hafter : after (compileSource parser source file output?) s = t := by rw [after, h]
    exact hafter ▸ .compiled hs parser source file output?
  | declared _ parser source file ih => exact .declared ih parser source file
  | files _ files ih => exact .files ih files

theorem Settled.pending_eq (hs : s.Settled) : s.pending = false := by
  induction hs with
  | start options files => rfl
  | compiled hs parser source file output? hstops ih =>
    exact settled_compileSource hs.reachable.sound.passes_eq ih hstops
  | answered hs parser source file output? product h => exact settled_of_ok hs.sound.passes_eq h
  | declared hs parser source file ih =>
    have hpasses := hs.reachable.sound.passes_eq
    exact (holds_after (Untouched.declareSource ⟨hpasses, rfl, rfl, rfl⟩)).pending_eq.trans ih
  | files _ files ih => exact ih

/-! ### Sources without a module -/

section moduleless

variable {checked : Node} {run : Run} (hs : s.passes = Pass.core)
  (h : Generating parser source file output? s u root checked run) (hfree : root.Moduleless)

include hs h hfree

theorem Generating.idle (hpending : s.pending = false) :
    ∃ e t, compileSource parser source file output? s = .error e t ∧ t.files = s.files ∧
      t.pending = false := by
  obtain ⟨houtcome, hchecked⟩ := h.harmless
  simp only [Run.outcome, Prod.mk.injEq] at houtcome
  obtain ⟨hproduct, -, hfiles, hgenerator⟩ := houtcome
  have hstarted : run.memory.generator.started = false := by
    rw [hgenerator]
    exact (h.untouched hs).pending_eq.trans hpending
  have hidle := Generation.idle_generate (hchecked hfree) hstarted
  rw [h.compileSource_eq hs]
  cases hgenerate : Generation.generate checked run with
  | ok last t =>
    obtain ⟨hnone, hkept, hsettled⟩ := hidle.of_ok hgenerate
    rw [conclude, hnone, hproduct]
    exact ⟨_, _, rfl, hkept.trans (hfiles.trans (h.untouched hs).files_eq), hsettled⟩
  | error e t =>
    obtain ⟨hkept, hsettled⟩ := hidle.of_error hgenerate
    exact ⟨e, _, rfl, hkept.trans (hfiles.trans (h.untouched hs).files_eq), hsettled⟩

theorem Generating.stale (hpending : s.pending = true) {last : Node} {final : Run}
    (hgenerate : Generation.generate checked run = .ok last final) :
    ∃ product t, compileSource parser source file output? s = .ok product t ∧
      product.name = s.memory.generator.assembler.built.name ∧
      (∀ path, output? = some path → s.files.write path product.toBytes = .ok t.files) := by
  obtain ⟨houtcome, hchecked⟩ := h.harmless
  simp only [Run.outcome, Prod.mk.injEq] at houtcome
  obtain ⟨-, houtput, hfiles, hgenerator⟩ := houtcome
  have huntouched := h.untouched hs
  have hstarted : run.memory.generator.started = true := by
    rw [hgenerator]
    exact huntouched.pending_eq.trans hpending
  obtain ⟨product, hover, hname⟩ :=
    (Generation.stale_generate (hchecked hfree) hstarted).of_ok hgenerate
  rw [h.compileSource_eq hs, hgenerate, conclude, hover.product?_eq]
  refine ⟨product, _, rfl, ?_, fun path hpath => ?_⟩
  · rw [hname, hgenerator, huntouched.generator_eq]
  · rw [← huntouched.files_eq, ← hfiles]
    exact hover.written path (houtput.trans hpath)

end moduleless

/-- A source without a module has no result, nothing is written for it, and nothing is pending after
it, as long as no module is pending; the error is that there is no module, unless a pass stops. If a
module is pending and no pass stops, it is the result, and it is written. In a session that is
settled no module is pending. -/
theorem moduleless_source_has_no_result (hs : s.Reachable)
    (hroot : parser file source s.options.freeFormat = .ok root) (hfree : root.Moduleless)
    (output? : Option String) :
    (s.Settled → s.pending = false) ∧
    (s.pending = false → ∃ e t, compileSource parser source file output? s = .error e t ∧
      t.files = s.files ∧
      t.pending = false ∧
        (GetsThrough parser source file output? s → e = .failed (.noModule file))) ∧
    (s.pending = true → GetsThrough parser source file output? s →
      ∃ product t, compileSource parser source file output? s = .ok product t ∧
        product.name = s.memory.generator.assembler.built.name ∧
        (∀ path, output? = some path → s.files.write path product.toBytes = .ok t.files)) := by
  have hpasses := hs.sound.passes_eq
  -- The tree is parsed once the declaration files of the system were read, but with the same
  -- options.
  have hparsed : ∀ {u root' checked run},
      Generating parser source file output? s u root' checked run →
      Generating parser source file output? s u root checked run := by
    intro u root' checked run h
    have hroot' := h.parsed
    rw [(h.untouched hpasses).options_eq, hroot] at hroot'
    obtain rfl := Except.ok.inj hroot'
    exact h
  refine ⟨Settled.pending_eq, fun hpending => ?_, fun hpending hthrough => ?_⟩
  · rcases compileSource_cases hpasses parser source file output?
      with ⟨e, t, he, ht⟩ | ⟨u, root', checked, run, hgenerating⟩
    · exact ⟨e, t, he, ht.files_eq, ht.pending_eq.trans hpending,
        fun hthrough => hthrough.noModule hpasses he⟩
    · obtain ⟨e, t, he, hfiles, hsettled⟩ := (hparsed hgenerating).idle hpasses hfree hpending
      exact ⟨e, t, he, hfiles, hsettled, fun hthrough => hthrough.noModule hpasses he⟩
  · obtain ⟨u, root', checked, run, last, t, hgenerating, hgenerate⟩ := hthrough.generating
    exact (hparsed hgenerating).stale hpasses hfree hpending hgenerate

theorem moduleless_identifier (name : String) : (Build.identifier name).Moduleless := by
  simp [Build.identifier, Build.leaf, Build.node, Node.moduleless_mk, Payload.tag]

/-- The session in which a sample module was compiled. -/
def sampleSession : Session :=
  after (compileSource (fun _ _ _ => .ok Node.sampleModule) [] "SYSTEM.cbl" none) (start {} .empty)

/-- After a compilation with a result, a text that is only a name has none. -/
theorem sampleSession_no_result :
    sampleSession.Settled ∧ (Build.identifier "NOTE").Moduleless ∧
      ∃ t, compileSource nameParser [] "NOTE.cbl" (some "NOTE.bin") sampleSession =
        .error (.failed (.noModule "NOTE.cbl")) t ∧ t.files = sampleSession.files := by
  have haccepted : answers (compileSource (fun _ _ _ => .ok Node.sampleModule) [] "SYSTEM.cbl" none)
      (start {} .empty) = true := by
    decide +kernel
  obtain ⟨product, t, ht⟩ := exists_of_answers haccepted
  have hafter : sampleSession = t := by rw [sampleSession, after, ht]
  have hsettled : sampleSession.Settled := hafter ▸ .answered (.start {} .empty) _ _ _ _ product ht
  have hpasses : answers (runAll Pass.core ((Build.identifier "NOTE").renumber 0).1)
      ((sampleSession.loaded.logged "NOTE.cbl" []).beginRun "NOTE.cbl" (some "NOTE.bin")
        ((Build.identifier "NOTE").renumber 0).2) = true := by
    decide +kernel
  obtain ⟨last, run, hrun⟩ := exists_of_answers hpasses
  have hsystem : sampleSession.options.system? = none := by decide +kernel
  have hthrough : GetsThrough nameParser [] "NOTE.cbl" (some "NOTE.bin") sampleSession :=
    ⟨sampleSession.loaded, Build.identifier "NOTE", last, run,
      loadSystem_eq nameParser (.inl hsystem), rfl, hrun⟩
  obtain ⟨hpending, hresult, -⟩ := moduleless_source_has_no_result hsettled.reachable
    (show nameParser "NOTE.cbl" [] sampleSession.options.freeFormat =
      .ok (Build.identifier "NOTE") from rfl) (moduleless_identifier "NOTE") (some "NOTE.bin")
  obtain ⟨e, t, he, hfiles, -, hnone⟩ := hresult (hpending hsettled)
  obtain rfl := hnone hthrough
  exact ⟨hsettled, moduleless_identifier "NOTE", t, he, hfiles⟩

/-- The module that code generation stopped in is pending, and it becomes the result of a text that
is only a name. -/
theorem pending_module_handed_over :
    counterSession.Reachable ∧ (Build.identifier "NOTE").Moduleless ∧
      (∃ t,
        compileSource (fun _ _ _ => .ok oversizedModule) [] "COUNTER.cbl" none (start {} .empty) =
        .error (.fault (.exceedLiteralPrecision "10000000000000000000") "COUNTER.cbl" Location.none
          none) t) ∧
      ∃ product t, compileSource nameParser [] "NOTE.cbl" none counterSession = .ok product t ∧
        product.name = "COUNTER" := by
  obtain ⟨product, t, ht, hname, -⟩ := exists_compiled_counterSession
  exact ⟨counterSession_reachable, moduleless_identifier "NOTE",
    exists_of_stopOf? (by decide +kernel), product, t, ht, hname⟩

end Session

end CobolCompiler
