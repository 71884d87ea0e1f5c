import CobolCompiler.Proofs.Arena
import CobolCompiler.Proofs.Undisturbed

/-!
# The names of usages

The usages and the modules share the table of the global scope. It begins with the four usages, and
a module that is declared takes its name, whatever the name stood for. So a usage can be looked up
by its name until a module of that name is declared, and not any more after that
(`usages_resolve_iff_no_module`). The usages of fields are looked up once a file is declared; this
fails exactly for files with a field of such a usage, be the module their own or one of an earlier
file.
-/

namespace CobolCompiler

open Declaration Standing

/-! ### Hidden usages -/

namespace Globals

/-- A module has the name of a usage. -/
def Hides (g : Globals) (u : Usage) : Prop :=
  ∃ m : ModuleId, m.index < g.modules.size ∧ (g.module m).name = u.tag

/-- The names of all usages stand for something. -/
def KnowsTags (g : Globals) : Prop :=
  ∀ u : Usage, ∃ symbol, g.table.get? u.tag = some symbol

variable {g : Globals}

theorem knowsTags_initial : Globals.initial.KnowsTags := by
  intro u
  cases u <;> simp [Globals.initial, Usage.all, Table.get?_define, Usage.tag]

theorem KnowsTags.addModule (h : g.KnowsTags) (name : String) : (g.addModule name).2.KnowsTags := by
  rcases g.addModule_cases name with ⟨_, _, heq⟩ | ⟨_, _, _, htable⟩
  · rw [heq]
    exact h
  · intro u
    rw [htable, Table.get?_define]
    split
    · exact ⟨_, rfl⟩
    · exact h u

theorem resolve?_global (g : Globals) (name : String) :
    g.resolve? .global name = g.table.get? name := by
  cases hget : g.table.get? name <;> simp [resolve?, chain, member?, hget]

/-- The name of a usage stands for the usage, unless a module has it. -/
theorem get?_tag_iff (hnested : g.Nested) (hconsistent : g.Consistent) (hknows : g.KnowsTags)
    (u : Usage) :
    g.table.get? u.tag = some (.usage u) ↔ ¬g.Hides u := by
  constructor
  · intro hget hhides
    obtain ⟨m, hm, hname⟩ := hhides
    have hfound := hnested.module_found m hm
    rw [hname, hget] at hfound
    cases hfound
  · intro hfree
    obtain ⟨symbol, hget⟩ := hknows u
    rcases hnested.global_entry _ _ hget with ⟨t, rfl⟩ | ⟨m, rfl⟩
    · rw [hget, hconsistent.usage_eq u t hget]
    · exact absurd ⟨m, hconsistent.module_name _ m hget⟩ hfree

end Globals

/-- No step of declaring takes the name of a usage out of the scope. -/
theorem kept_knowsTags : Kept fun st => st.globals.KnowsTags where
  step := by
    intro file policy st st' hstep h
    cases hstep with
    | module name => exact h.addModule name
    | program _ _ _ =>
      intro u
      rw [Globals.addProgram_table]
      exact h u
    | leave => exact h
    | field _ _ _ => exact h
    | parameter _ _ _ => exact h
    | usage _ => exact h
  forget := fun h => h

/-- The scope is in order, and the names of all usages stand for something. -/
structure Globals.UsageOrder (g : Globals) : Prop where
  nested : g.Nested
  consistent : g.Consistent
  knows : g.KnowsTags

theorem Session.Reachable.usageOrder {s : Session} (h : s.Reachable) : s.globals.UsageOrder :=
  ⟨h.orderly.nested, h.sound.consistent, (kept_knowsTags.reachable Globals.knowsTags_initial h).2⟩

/-! ### Looking up the usages of a file -/

namespace Declaration

/-- The usage of the field that a node declares. -/
def declaredUsage? (g : Globals) (bindings : Bindings) (n : Node) : Option Usage :=
  match n.payload, bindings.field? n with
  | .field, some id => some (g.field id).usage
  | _, _ => none

/-- Two scopes have the same modules, and fields of the same usages. -/
structure SameUsages (g g' : Globals) : Prop where
  table_eq : g'.table = g.table
  usage_eq : ∀ id, (g'.field id).usage = (g.field id).usage

/-- Noting the type of a field does not change its usage. -/
theorem SameUsages.setType {g g' : Globals} (h : SameUsages g g') (id : FieldId) (type : Usage) :
    SameUsages g (g'.modifyField id fun f => { f with type? := some type }) where
  table_eq := h.table_eq
  usage_eq := by
    intro other
    rw [Globals.field_modifyField]
    split
    · exact h.usage_eq other
    · exact h.usage_eq other

variable {g : Globals} {file : String} {bindings : Bindings}

/-- The usage of a field is found, unless a module hides it. -/
theorem looksUp_attachType (hg : g.UsageOrder) {g' : Globals} (h : SameUsages g g') (n : Node) :
    Ensures (attachType file bindings n) g'
      (fun _ g'' => SameUsages g g'' ∧ ∀ u, declaredUsage? g bindings n = some u → ¬g.Hides u)
      (fun e _ => ∃ u, declaredUsage? g bindings n = some u ∧ g.Hides u ∧
        e = .fault (.undefined u.tag) file n.location none) := by
  unfold attachType
  split
  · next id hpayload hid =>
    have hdeclared : declaredUsage? g bindings n = some (g.field id).usage := by
      rw [declaredUsage?, hpayload, hid]
    rw [hdeclared]
    simp only [ensures_bind, ensures_get]
    -- usages are looked up in the global table, where a module may stand under their name
    have hmember : g'.member? .global (g'.field id).usage.tag =
        g.table.get? (g.field id).usage.tag := by
      rw [h.usage_eq, Globals.member?, h.table_eq]
    have hiff := Globals.get?_tag_iff hg.nested hg.consistent hg.knows (g.field id).usage
    rw [hmember]
    split
    · next type htype =>
      rw [ensures_modify]
      refine ⟨h.setType id type, fun u hu => ?_⟩
      obtain rfl := Option.some.inj hu
      obtain rfl := hg.consistent.usage_eq _ _ htype
      exact hiff.mp htype
    · next hnone =>
      rw [ensures_throw, h.usage_eq]
      refine ⟨_, rfl, ?_, rfl⟩
      by_contra hfree
      exact hnone _ (hiff.mpr hfree)
  · next hother =>
    refine ⟨h, fun u hu => ?_⟩
    unfold declaredUsage? at hu
    split at hu
    · next id hpayload hid => exact (hother id hpayload hid).elim
    · cases hu

/-- The usages of a file are found, unless a module hides the usage of one of its fields. -/
theorem looksUp_usageTypes (root : Node) {run : Run} (hrun : run.globals.UsageOrder) :
    Ensures (usageTypes root) run
      (fun _ _ => ∀ n ∈ root.nodes, ∀ u, declaredUsage? run.globals run.bindings n = some u →
        ¬run.globals.Hides u)
      (fun e _ => ∃ n ∈ root.nodes, ∃ u, declaredUsage? run.globals run.bindings n = some u ∧
        run.globals.Hides u ∧ e = .fault (.undefined u.tag) run.file n.location none) := by
  unfold usageTypes Pass.ofWalk
  simp only [ensures_bind, ensures_get, ensures_onPart, ensures_pure]
  rw [Visitor.visit, bind_pure_unit, Visitor.walk_eq_forM fun _ _ => rfl]
  -- after some nodes the usages are still the same, and those of the nodes so far are not hidden
  refine (ensures_forM (fun done g => SameUsages run.globals g ∧ ∀ n ∈ done, ∀ u,
    declaredUsage? run.globals run.bindings n = some u →
    ¬run.globals.Hides u) ⟨⟨rfl, fun _ => rfl⟩, by simp⟩ ?_).mono (fun _ _ h => h.2) fun _ _ h => h
  intro done n rest g hsplit hg
  refine (looksUp_attachType hrun hg.1 n).mono ?_ ?_
  · intro _ g' hg'
    refine ⟨hg'.1, fun k hk => ?_⟩
    rcases List.mem_append.mp hk with hk | hk
    · exact hg.2 k hk
    · rw [List.mem_singleton.mp hk]
      exact hg'.2
  · intro e g' he
    exact ⟨n, by rw [hsplit]; simp, he⟩

end Declaration

/-! ### Sessions -/

/-- What passes do to the scope is a sequence of steps. -/
theorem leadsTo_passes {passes : List Pass} (hpasses : ∀ pass ∈ passes, pass ∈ Pass.core)
    (root : Node) (run : Run) :
    Ensures (runAll passes root) run (fun _ => run.LeadsTo) (fun _ => run.LeadsTo) := by
  refine ensures_foldlM (fun _ _ => run.LeadsTo) ⟨rfl, rfl, .refl⟩ ?_
  intro done pass rest root t hsplit ht
  have htrans : ∀ u, t.LeadsTo u → run.LeadsTo u := by
    intro u hu
    have hsteps := hu.steps
    rw [ht.file_eq, ht.options_eq] at hsteps
    exact ⟨hu.file_eq.trans ht.file_eq, hu.options_eq.trans ht.options_eq, ht.steps.trans hsteps⟩
  exact (leadsTo_core (hpasses pass (by rw [hsplit]; simp)) root t).mono (fun _ => htrans) fun _ =>
    htrans

namespace Session

/-- In a run that is begun in a reachable session the scope stays in order. -/
theorem Reachable.usageOrder_of_leadsTo {s : Session}
    (h : s.Reachable) {file : String} {output? : Option String} {nextId : Nat} {run : Run}
    (hrun : (s.beginRun file output? nextId).LeadsTo run) : run.globals.UsageOrder where
  nested := (kept_orderly.steps hrun.steps h.orderly).nested
  consistent := (kept_sound.steps hrun.steps ⟨h.sound.consistent, fun _ hc => by cases hc⟩).1
  knows := kept_knowsTags.steps hrun.steps h.usageOrder.knows

/-- In every session that can be reached, the name of a usage stands for the usage if and only if no
module has that name. And once a file is declared and its end markers are dropped, the usages of its
fields are found if and only if no module has the name of one of them; otherwise the name of a
hidden usage is reported as undefined, at a field that has it. -/
theorem usages_resolve_iff_no_module {s : Session} (hs : s.Reachable) :
    (∀ u : Usage, s.globals.resolve? .global u.tag = some (.usage u) ↔
      ∀ m : ModuleId, m.index < s.globals.modules.size → (s.globals.module m).name ≠ u.tag) ∧
    ∀ (root : Node) (file : String) (output? : Option String) (marked : Node) (run : Run),
      passing (Pass.core.take 2) root s file output? = .ok marked run →
      ((∃ typed t, usageTypes marked run = .ok typed t) ↔
        ∀ n ∈ marked.nodes, ∀ u, declaredUsage? run.globals run.bindings n = some u →
          ∀ m : ModuleId, m.index < run.globals.modules.size →
            (run.globals.module m).name ≠ u.tag) ∧
      ∀ e t, usageTypes marked run = .error e t →
        ∃ n ∈ marked.nodes, ∃ u, declaredUsage? run.globals run.bindings n = some u ∧
          (∃ m : ModuleId, m.index < run.globals.modules.size ∧
            (run.globals.module m).name = u.tag) ∧
          e = .fault (.undefined u.tag) file n.location none := by
  have hfree : ∀ (g : Globals) (u : Usage), ¬g.Hides u ↔
      ∀ m : ModuleId, m.index < g.modules.size → (g.module m).name ≠ u.tag := by
    intro g u
    simp [Globals.Hides]
  refine ⟨fun u => ?_, fun root file output? marked run hpassing => ?_⟩
  · have horder := hs.usageOrder
    rw [Globals.resolve?_global, Globals.get?_tag_iff horder.nested horder.consistent horder.knows,
      hfree]
  · -- the scope of the run is in order, whatever the file declared
    have hleads :=
      (leadsTo_passes (fun pass hpass => List.mem_of_mem_take hpass) _ _).of_ok hpassing
    have hlookup := looksUp_usageTypes marked (hs.usageOrder_of_leadsTo hleads)
    rw [show run.file = file from hleads.file_eq] at hlookup
    simp only [← hfree]
    refine ⟨⟨?_, ?_⟩, fun e t he => hlookup.of_error he⟩
    · intro hanswer
      obtain ⟨typed, t, ht⟩ := hanswer
      exact hlookup.of_ok ht
    · intro hshown
      cases hresult : usageTypes marked run with
      | ok typed t => exact ⟨typed, t, rfl⟩
      | error e t =>
        obtain ⟨n, hn, u, hu, hhides, -⟩ := hlookup.of_error hresult
        exact absurd hhides (hshown n hn u hu)

open Build

/-- A module with one program, which has a field of each of some usages. -/
def noteModule (name : String) (usages : List Usage) : Node :=
  Build.module name [
    program "MAIN" [
      node .dataDivision [
        node .workingStorageSection
          (usages.map fun u => field 1 u.tag [leaf (.usage u)])],
      procedure [] [] []]]

/-- The session in which a module with the name of a usage was compiled. -/
def displaySession : Session :=
  after (compileSource (fun _ _ _ => .ok (noteModule "DISPLAY" [.comp2])) [] "DISPLAY.cbl" none)
    (start {} .empty)

/-- The other usages can still be looked up, and so can those of a file that has fields of these
only. -/
theorem displaySession_resolves :
    displaySession.globals.resolve? .global "COMP-4" = some (.usage .comp4) ∧
    ∃ marked run typed t, passing (Pass.core.take 2) (noteModule "NOTE" [.comp2, .comp4])
      displaySession "NOTE.cbl" none = .ok marked run ∧ usageTypes marked run = .ok typed t := by
  have hs : displaySession.Reachable := .compiled (.start {} .empty) _ [] "DISPLAY.cbl" none
  obtain ⟨hresolve, hlookup⟩ := usages_resolve_iff_no_module hs
  constructor
  · have hsize : displaySession.globals.modules.size = 1 := by decide +kernel
    refine (hresolve .comp4).mpr fun m hm => ?_
    obtain rfl : m = ⟨0⟩ := ModuleId.eq_of_index (by simp only; omega)
    decide +kernel
  · let step := runAll (Pass.core.take 2) ((noteModule "NOTE" [.comp2, .comp4]).renumber 0).1
    let start :=
      displaySession.beginRun "NOTE.cbl" none ((noteModule "NOTE" [.comp2, .comp4]).renumber 0).2
    have hanswers : answers step start = true := by decide +kernel
    have hshown : (answerOf? step start).all (fun marked => marked.nodes.all fun n =>
        (declaredUsage? (stateOf (step start)).globals (stateOf (step start)).bindings n).all
          fun u =>
          (List.range (stateOf (step start)).globals.modules.size).all fun m =>
            ((stateOf (step start)).globals.module ⟨m⟩).name ≠ u.tag) = true := by
      decide +kernel
    obtain ⟨marked, run, hpassing⟩ := exists_of_answers hanswers
    rw [answerOf?, hpassing] at hshown
    obtain ⟨typed, t, ht⟩ := (hlookup _ _ _ marked run hpassing).1.mpr (by
      intro n hn u hu m hm
      have hn' := List.all_eq_true.mp hshown n hn
      rw [stateOf, hu] at hn'
      simpa using List.all_eq_true.mp hn' m.index (List.mem_range.mpr hm))
    exact ⟨marked, run, typed, t, hpassing, ht⟩

/-- A module of the name of a usage hides the usage from the files after it: one with a field of
this usage is refused, though it can be compiled in a new session. -/
theorem module_hides_usage :
    displaySession.Reachable ∧
    displaySession.globals.resolve? .global Usage.display.tag = some (.module ⟨0⟩) ∧
    (∃ t, compileSource (fun _ _ _ => .ok (noteModule "NOTE" [.display])) [] "NOTE.cbl" none
      displaySession = .error (.fault (.undefined "DISPLAY") "NOTE.cbl" Location.none none) t) ∧
    ∃ product t, compileSource (fun _ _ _ => .ok (noteModule "NOTE" [.display])) [] "NOTE.cbl" none
      (start {} .empty) = .ok product t := by
  have hs : displaySession.Reachable := .compiled (.start {} .empty) _ [] "DISPLAY.cbl" none
  exact ⟨hs, by decide +kernel, exists_of_stopOf? (by decide +kernel),
    exists_of_answers (by decide +kernel)⟩

end Session

end CobolCompiler
