import CobolCompiler.Proofs.PendingModule
import CobolCompiler.Proofs.Reexport
import CobolCompiler.Proofs.Arena

/-!
# Exports that other files leave alone

A module exports a program of some file. Another file cannot export a program of that name from the
module: it is refused, with the place of the program that is there. But the files of a module stand
in the same table as its exports, under their names. So a file of the module that has the name of
the export takes the name, and the program cannot be called any more.

`exports_stable_under_other_files` says that this is all that other files can do: an export stays
what it is whenever files of other names are compiled or declared, with success or without, as long
as none of them takes its name.
-/

namespace CobolCompiler

open Declaration Standing Syntax

variable {before : List Node} {count : Nat}

/-! ### Exports in the scope -/

namespace Globals

variable {g : Globals} {owner name file : String} {m : ModuleId} {p : ProgramId} {place : Place}

/-- Where a program stands. -/
def placeOf (g : Globals) (p : ProgramId) : Place :=
  ⟨(g.chunk (g.program p).owner).name, (g.program p).location⟩

/-- The module of a name exports a program under a name, and the program stands somewhere. -/
structure Holds (owner name : String) (m : ModuleId) (p : ProgramId) (place : Place)
    (g : Globals) : Prop where
  module?_eq : g.module? owner = some m
  found : g.moduleProgram? m name = some p
  place_eq : g.placeOf p = place

namespace Holds

variable (h : g.Holds owner name m p place) (hg : g.Consistent)

include h

/-- The place of the program is what keeps other files from exporting one of that name. -/
theorem blocked?_eq (hfile : place.file ≠ file) : blocked? g file m name = some place := by
  have hhome : (g.chunk (g.program p).owner).name ≠ file := by
    rw [← h.place_eq] at hfile
    exact hfile
  rw [blocked?, h.found]
  dsimp only
  rw [if_neg hhome, ← h.place_eq, placeOf]

theorem addModule_fst : (g.addModule owner).1 = m := by
  rw [addModule, h.module?_eq]

include hg

theorem program_lt : p.index < g.programs.size :=
  (hg.export_name m name p (moduleProgram?_eq_some_iff.mp h.found)).1

theorem module_lt : m.index < g.modules.size :=
  (hg.module_name owner m (module?_eq_some_iff.mp h.module?_eq)).1

theorem module_name : (g.module m).name = owner :=
  (hg.module_name owner m (module?_eq_some_iff.mp h.module?_eq)).2

/-- A file of another module, or of another name, leaves the program alone. -/
theorem openFile {moduleName : String} (hfile : moduleName = owner → file ≠ name) :
    (g.openFile moduleName file).2.Holds owner name m p place where
  module?_eq := addModule_module?_of_some moduleName h.module?_eq
  found := by
    have hfound := h.found
    rw [moduleProgram?_eq_some_iff] at hfound ⊢
    rw [openFile_module_of_lt moduleName file (h.module_lt hg)]
    by_cases howner : (g.addModule moduleName).1 = m
    · -- the file is one of the module, and stands in its table under a name of its own
      have hname : moduleName = owner := by
        have hlt := h.module_lt hg
        rw [← howner] at hlt
        rw [← hg.addModule_name hlt, howner, h.module_name hg]
      rw [if_pos howner, Table.get?_define, if_neg (hfile hname)]
      exact hfound
    · rw [if_neg howner]
      exact hfound
  place_eq := by
    rw [placeOf, openFile_program, openFile_chunk_of_lt _ _ (hg.program_owner p (h.program_lt hg))]
    exact h.place_eq

/-- Another program that nothing keeps from being declared is not an export of that name, unless it
is of the same file. -/
theorem addProgram {c : ChunkId} (hc : c.index < g.chunks.size) (hfile : place.file ≠ file)
    {other : String} {exported : Bool}
    (hfree : conflict? g file c other exported = none) (location : Location) :
    (g.addProgram (.declare other c exported location)).2.Holds owner name m p place where
  module?_eq := by
    have hmodule := h.module?_eq
    rw [module?_eq_some_iff] at hmodule ⊢
    rw [addProgram_table]
    exact hmodule
  found := by
    obtain ⟨-, hblocked⟩ := conflict?_eq_none hfree
    rw [moduleProgram?_addProgram (hg.chunk_owner c hc), if_neg, h.found]
    -- an export of that name would have been in conflict with the one that is there
    intro hnew
    obtain ⟨hexported, rfl, rfl⟩ := hnew
    have hnone := hblocked hexported
    rw [h.blocked?_eq hfile] at hnone
    cases hnone
  place_eq := by
    rw [placeOf, addProgram_program_of_lt (h.program_lt hg), (addProgram_header ..).1]
    exact h.place_eq

omit hg in
/-- Changes inside of programs, and of fields. -/
theorem of_outline {g' : Globals} (hsame : g.SameOutline g') : g'.Holds owner name m p place where
  module?_eq := by
    rw [module?, hsame.table_eq]
    exact h.module?_eq
  found := by
    rw [moduleProgram?, hsame.module_eq]
    exact h.found
  place_eq := by
    rw [placeOf, hsame.owner_eq, hsame.location_eq, hsame.chunk_eq]
    exact h.place_eq

end Holds

end Globals

/-! ### Declaring a file -/

namespace Declaration

variable {file : String} {policy : FractionPolicy} {I : Standing → Prop}

/-- What steps keep that stay in their chunk is kept by the walk over trees whose modules keep
it. -/
theorem keeps_walkAll_standing (hI : KeptWithin file policy I) {ns : List Node}
    (hmodule : ∀ k ∈ ns, ∀ n ∈ k.nodes, n.tag = .module → ∀ st, I st →
      I ⟨(st.globals.openFile n.name file).2, some (st.globals.openFile n.name file).1,
        st.declaring?⟩) {s : State} (hs : I s.standing) :
    Ensures ((definer file policy).walkAll ns) s (fun _ t => I t.standing)
      (fun _ t => I t.standing) := by
  refine (keeps_walkAll (J := fun s => I s.standing) ?_ hs).mono (fun _ _ ht => ht) fun _ _ ht =>
    ht.1
  exact fun k hk n hn _ _ hstep ht =>
    keeps_move hI hstep (fun htag => hmodule k hk n hn htag _ ht) ht

theorem define_apply (root : Node) (run : Run) :
    define root run =
      match (definer run.file run.options.policy).visit root (.ofRun run) with
      | .ok _ s => .ok root (s.toRun run)
      | .error e s => .error e (s.toRun run) := by
  simp only [define, Pass.ofWalk, bind_apply, get_apply, onPart, State.ofRun, State.toRun]
  cases (definer run.file run.options.policy).visit root
    ⟨run.globals, run.bindings, run.chunk?, run.memory.declaring?, run.memory.home?⟩ <;> rfl

theorem answers_of_define {root declared : Node} {run t : Run}
    (h : define root run = .ok declared t) :
    answers ((definer run.file run.options.policy).visit root) (.ofRun run) = true := by
  rw [define_apply] at h
  unfold answers
  cases hvisit : (definer run.file run.options.policy).visit root (.ofRun run) with
  | ok _ s => rfl
  | error e s =>
    rw [hvisit] at h
    cases h

/-- Where the walk stops, the passes that declare stop. -/
theorem declaring_of_visit {root : Node} {run : Run} {e : Stop} {s : State}
    (h : (definer run.file run.options.policy).visit root (.ofRun run) = .error e s) :
    runAll (Pass.core.take 3) root run = .error e (s.toRun run) := by
  rw [runAll_declaring, bind_apply, define_apply, h]

/-- What the walk that declares a file keeps, the passes that declare keep. -/
theorem keeps_declaring {run : Run} (hI : KeptWithin run.file run.options.policy I) {root : Node}
    (hvisit : Ensures ((definer run.file run.options.policy).visit root) (.ofRun run)
      (fun _ t => I t.standing) (fun _ t => I t.standing)) :
    Ensures (runAll (Pass.core.take 3) root) run (fun _ t => I t.standing)
      (fun _ t => I t.standing) := by
  refine (comesTo_declaring (keptByTypes_standing hI) hvisit).mono ?_ ?_
  · rintro _ _ ⟨s, hs, rfl⟩
    exact hs
  · rintro _ _ ⟨s, hs, rfl⟩
    exact hs

end Declaration

/-! ### What is kept -/

namespace Standing

variable {owner name file : String} {m : ModuleId} {p : ProgramId} {place : Place}
  {policy : FractionPolicy}
variable {count : Nat} {st : Standing}

/-- An export is there, in a sound scope. -/
structure Offering (owner name : String) (m : ModuleId) (p : ProgramId) (place : Place)
    (st : Standing) : Prop where
  sound : st.IsSound
  holds : st.globals.Holds owner name m p place

/-- Where the chunk stays the same, none was opened. -/
theorem IsSound.chunk_ne (h : st.IsSound) (moduleName file : String) :
    some (st.globals.openFile moduleName file).1 ≠ st.chunk? := by
  intro heq
  have hlt := h.chunk_lt heq.symm
  rw [Globals.openFile_id] at hlt
  exact lt_irrefl _ hlt

/-- What another file declares in its chunk leaves an export alone. -/
theorem keptWithin_offering (hfile : place.file ≠ file) :
    KeptWithin file policy (Offering owner name m p place) := by
  intro st st' hstep hchunk h
  have hsound : st'.IsSound := kept_sound.step hstep h.sound
  refine ⟨hsound, ?_⟩
  -- the check before a program is what protects the export; fields and parameters lie inside of
  -- programs
  cases hstep with
  | module moduleName => exact absurd hchunk (h.sound.chunk_ne moduleName file)
  | @program chunk hcurrent other exported hfree location =>
    exact h.holds.addProgram h.sound.1 (h.sound.chunk_lt hcurrent) hfile hfree location
  | leave => exact h.holds
  | field _ _ _ => exact h.holds.of_outline (Globals.sameOutline_addField ..)
  | @parameter _ _ list _ _ id _ =>
    exact h.holds.of_outline (Globals.sameOutline_modifyProgram _ (heading_extendSignature list id))
  | usage _ => exact h.holds.of_outline (Globals.sameOutline_modifyField ..)

/-- So does the opening of its chunk, if the file does not take the name of the export. -/
theorem Offering.openFile (h : Offering owner name m p place st) {moduleName : String}
    (hfile : moduleName = owner → file ≠ name) :
    Offering owner name m p place
      ⟨(st.globals.openFile moduleName file).2, some (st.globals.openFile moduleName file).1,
        st.declaring?⟩ where
  sound := by
    have hstep : Step file default st _ := .module moduleName
    exact kept_sound.step hstep h.sound
  holds := h.holds.openFile h.sound.1 hfile

/-- An export is gone: its name stands for no program of its module any more, or for one that is
newer than some number of programs. -/
structure Gone (name : String) (m : ModuleId) (count : Nat) (st : Standing) : Prop where
  sound : st.IsSound
  module_lt : m.index < st.globals.modules.size
  count_le : count ≤ st.globals.programs.size
  newer : ∀ q, st.globals.moduleProgram? m name = some q → count ≤ q.index

/-- No step takes a program away. -/
theorem Step.programs_le {st st' : Standing} (hstep : Step file policy st st') :
    st.globals.programs.size ≤ st'.globals.programs.size := by
  cases hstep with
  | module moduleName => rw [Globals.addChunk_programs, Globals.addModule_programs]
  | program _ _ _ =>
    rw [Globals.addProgram_size_programs]
    exact Nat.le_succ _
  | leave => exact le_refl _
  | field _ _ _ => rw [Globals.addField_size_programs]
  | parameter _ _ _ => simp only [Globals.modifyProgram, Array.size_modify, le_refl]
  | usage _ => exact le_refl _

/-- What is gone stays gone. -/
theorem Gone.step {st st' : Standing} (hstep : Step file policy st st') (h : Gone name m count st) :
    Gone name m count st' := by
  have hsound : st'.IsSound := kept_sound.step hstep h.sound
  have hcount : count ≤ st'.globals.programs.size := h.count_le.trans hstep.programs_le
  cases hstep with
  | module moduleName =>
    refine ⟨hsound, ?_, hcount, fun q hq => ?_⟩
    · rw [Globals.addChunk_size_modules]
      exact h.module_lt.trans_le (Globals.addModule_modules_le moduleName)
    · change (st.globals.openFile moduleName file).2.moduleProgram? m name = some q at hq
      rw [Globals.moduleProgram?_eq_some_iff,
        Globals.openFile_module_of_lt moduleName file h.module_lt] at hq
      refine h.newer q (Globals.moduleProgram?_eq_some_iff.mpr ?_)
      -- a chunk that takes the name is no program
      split at hq
      · rw [Table.get?_define] at hq
        split at hq
        · cases hq
        · exact hq
      · exact hq
  | @program chunk hcurrent other exported hfree location =>
    refine ⟨hsound, ?_, hcount, fun q hq => ?_⟩
    · rw [Globals.addProgram_size_modules]
      exact h.module_lt
    · rw [Globals.moduleProgram?_addProgram
        (h.sound.1.chunk_owner chunk (h.sound.chunk_lt hcurrent))] at hq
      split at hq
      · -- the export is there again, but it is the program that was just added
        obtain rfl := Option.some.inj hq
        exact h.count_le
      · exact h.newer q hq
  | leave => exact ⟨hsound, h.module_lt, hcount, h.newer⟩
  | field _ _ _ => exact ⟨hsound, h.module_lt, hcount, h.newer⟩
  | parameter _ _ _ => exact ⟨hsound, h.module_lt, hcount, h.newer⟩
  | usage _ => exact ⟨hsound, h.module_lt, hcount, h.newer⟩

/-- There is a module of a name, and some number of programs. -/
structure Knows (owner : String) (m : ModuleId) (count : Nat) (st : Standing) : Prop where
  sound : st.IsSound
  module?_eq : st.globals.module? owner = some m
  count_le : count ≤ st.globals.programs.size

theorem kept_knows : Kept (Knows owner m count) where
  step := by
    intro file policy st st' hstep h
    have hcount := h.count_le.trans hstep.programs_le
    refine ⟨kept_sound.step hstep h.sound, ?_, hcount⟩
    cases hstep with
    | module moduleName => exact Globals.addModule_module?_of_some moduleName h.module?_eq
    | program _ _ _ =>
      rw [Globals.module?, Globals.addProgram_table]
      exact h.module?_eq
    | leave => exact h.module?_eq
    | field _ _ _ => exact h.module?_eq
    | parameter _ _ _ => exact h.module?_eq
    | usage _ => exact h.module?_eq
  forget := fun h => ⟨kept_sound.forget h.sound, h.module?_eq, h.count_le⟩

/-- A file of the module that has the name of an export takes it. -/
theorem Knows.gone (h : Knows owner m count st) :
    Gone name m count
      ⟨(st.globals.openFile owner name).2, some (st.globals.openFile owner name).1,
        st.declaring?⟩ := by
  have hlt := (h.sound.1.module_name owner m (Globals.module?_eq_some_iff.mp h.module?_eq)).1
  have howner : (st.globals.addModule owner).1 = m := by rw [Globals.addModule, h.module?_eq]
  have hstep : Step name default st _ := .module owner
  refine ⟨kept_sound.step hstep h.sound, ?_, ?_, fun q hq => ?_⟩
  · rw [Globals.openFile, Globals.addChunk_size_modules]
    exact hlt.trans_le (Globals.addModule_modules_le owner)
  · rw [Globals.openFile_programs]
    exact h.count_le
  · rw [Globals.moduleProgram?_eq_some_iff, Globals.openFile_module_of_lt owner name hlt,
      if_pos howner, Table.get?_define, if_pos rfl] at hq
    cases hq

end Standing

/-! ### The walk over a file -/

namespace Declaration

variable {owner name file : String} {m : ModuleId} {c : ChunkId} {p : ProgramId} {place : Place}
  {policy : FractionPolicy} {root program : Node} {before rest : List Node} {s : State}

theorem enter_module (h : root.tag = .module) (s : State) :
    (definer file policy).enter root s = .ok () (s.opened root.name file) := by
  simp only [definer, payload_of_tag h rfl]
  rfl

theorem enter_program (h : program.tag = .program) :
    (definer file policy).enter program = defineProgram file program := by
  simp only [definer, payload_of_tag h rfl]

/-- A program of the name is refused, by whatever is in its way. -/
theorem defineProgram_of_conflict {previous : Place} (hc : s.chunk? = some c)
    (h : conflict? s.globals file c program.name (program.child? .exportMark).isSome =
      some previous) :
    defineProgram file program s =
      .error (.fault (.redefinition program.name) file program.nameLocation (some previous)) s := by
  have hchunk : (pure c : DeclareM ChunkId) s = .ok c s := rfl
  simp only [defineProgram, bind_apply, get_apply, hc, require, hchunk, h]
  rfl

/-- Another file leaves an export alone, if it does not take its name. -/
theorem offering_visit (hfile : place.file ≠ file)
    (hmodules : ∀ n ∈ root.nodes, n.tag = .module → n.name = owner → file ≠ name)
    (hs : Offering owner name m p place s.standing) :
    Ensures ((definer file policy).visit root) s
      (fun _ t => Offering owner name m p place t.standing)
      (fun _ t => Offering owner name m p place t.standing) := by
  rw [visit_eq, ← Visitor.walkAll_singleton]
  refine keeps_walkAll_standing (keptWithin_offering hfile) ?_ hs
  intro k hk n hn htag st hst
  obtain rfl := List.mem_singleton.mp hk
  exact hst.openFile (hmodules n hn htag)

/-- A file of the module with the name of the export takes it. -/
theorem gone_visit (htag : root.tag = .module) (howner : root.name = owner)
    (hs : Knows owner m count s.standing) :
    Ensures ((definer name policy).visit root) s (fun _ t => Gone name m count t.standing)
      (fun _ t => Gone name m count t.standing) := by
  have hkept : KeptWithin name policy (Gone name m count) := fun hstep _ hst => hst.step hstep
  have hopened : Gone name m count (s.opened root.name name).standing := by
    rw [howner]
    exact hs.gone
  rw [visit_eq, Visitor.walk_eq, ensures_bind, ensures_of_eq (enter_module htag s), ensures_bind]
  have hleave : (definer name policy).leave root = pure () := by
    simp only [definer, payload_of_tag htag rfl]
  refine (keeps_walkAll_standing hkept ?_ hopened).imp fun _ _ ht => hleave ▸ ht
  intro k _ n _ _ st hst
  have hstep : Step name policy st _ := .module n.name
  exact hst.step hstep

/-- An export is there, and a file of its module is being declared. -/
structure InModule (owner name : String) (m : ModuleId) (p : ProgramId) (place : Place)
    (c : ChunkId) (st : Standing) : Prop where
  offering : Offering owner name m p place st
  chunk_eq : st.chunk? = some c
  owner_eq : (st.globals.chunk c).owner = m

theorem keptWithin_inModule (hfile : place.file ≠ file) :
    KeptWithin file policy (InModule owner name m p place c) := by
  intro st st' hstep hchunk h
  refine ⟨keptWithin_offering hfile hstep hchunk h.offering, hchunk.trans h.chunk_eq, ?_⟩
  rw [← h.owner_eq]
  cases hstep with
  | module moduleName => exact absurd hchunk (h.offering.sound.chunk_ne moduleName file)
  | program _ _ _ => exact (Globals.addProgram_header ..).2
  | leave => rfl
  | field _ _ _ => rfl
  | parameter _ _ _ => rfl
  | usage _ => rfl

/-- Once the module is entered, its file is being declared. -/
theorem InModule.opened (hname : file ≠ name) (hs : Offering owner name m p place s.standing) :
    InModule owner name m p place (s.globals.openFile owner file).1 (s.opened owner file).standing
      where
  offering := hs.openFile fun _ => hname
  chunk_eq := rfl
  owner_eq := by
    change ((s.globals.openFile owner file).2.chunk (s.globals.openFile owner file).1).owner = m
    rw [Globals.openFile_chunk]
    exact hs.holds.addModule_fst

/-- A program to be exported under the name is in conflict with the one that is there, if its own
file has none of the name. -/
theorem InModule.conflict?_of_unknown {st : Standing} (h : InModule owner name m p place c st)
    (hfile : place.file ≠ file) (hunknown : st.globals.chunkProgram? c name = none) :
    conflict? st.globals file c name true = some place := by
  rw [conflict?_eq, hunknown]
  dsimp only
  rw [h.owner_eq, if_pos rfl, h.offering.holds.blocked?_eq hfile]

/-- A program to be exported under the name is in conflict with the one that is there, or with one
of its own file. -/
theorem InModule.exists_conflict {st : Standing} (h : InModule owner name m p place c st)
    (hfile : place.file ≠ file) :
    ∃ previous, conflict? st.globals file c name true = some previous := by
  cases hfound : st.globals.chunkProgram? c name with
  | none => exact ⟨place, h.conflict?_of_unknown hfile hfound⟩
  | some q =>
    rw [conflict?_eq, hfound]
    exact ⟨_, rfl⟩

/-! ### Which programs a file has declared -/

/-- The chunk of a file that is being declared does not know a name. -/
structure Unknown (c : ChunkId) (name : String) (s : State) : Prop where
  chunk_eq : s.chunk? = some c
  chunk_lt : c.index < s.globals.chunks.size
  unknown : s.globals.chunkProgram? c name = none

/-- Nothing but a module, or a program of the name, makes the name known. -/
theorem Unknown.move {n : Node} {t : State} (h : Unknown c name s) (hn : n.tag ≠ .module)
    (hname : n.tag = .program → n.name ≠ name) (hstep : Move file policy n s t) :
    Unknown c name t := by
  cases hstep with
  | module htag => exact absurd htag hn
  | @program htag chunk hchunk new _ hnew =>
    obtain rfl : c = chunk := Option.some.inj (h.chunk_eq.symm.trans hchunk)
    subst hnew
    refine ⟨h.chunk_eq, ?_, ?_⟩
    · rw [Globals.addProgram_size_chunks]
      exact h.chunk_lt
    · rw [Globals.chunkProgram?_addProgram h.chunk_lt, if_neg (hname htag)]
      exact h.unknown
  | leave => exact ⟨h.chunk_eq, h.chunk_lt, h.unknown⟩
  | home _ => exact ⟨h.chunk_eq, h.chunk_lt, h.unknown⟩
  | field _ _ _ => exact ⟨h.chunk_eq, h.chunk_lt, h.unknown⟩
  | parameter _ _ _ => exact ⟨h.chunk_eq, h.chunk_lt, h.unknown⟩

theorem Unknown.opened (s : State) (moduleName file name : String) :
    Unknown (s.globals.openFile moduleName file).1 name (s.opened moduleName file) :=
  ⟨rfl, s.globals.openFile_lt moduleName file,
    s.globals.openFile_chunkProgram? moduleName file name⟩

/-! ### A program of the same name -/

/-- A module has a program that is to be exported under a name, and some nodes without modules
before it. -/
structure ExportsAfter (root : Node) (owner name : String) (before : List Node)
    (program : Node) : Prop where
  tag_eq : root.tag = .module
  name_eq : root.name = owner
  split : ∃ rest, root.children = before ++ program :: rest
  moduleless : ∀ k ∈ before, k.Moduleless
  program_tag : program.tag = .program
  program_name : program.name = name
  exported : (program.child? .exportMark).isSome = true

namespace ExportsAfter

variable (h : ExportsAfter root owner name before program) (hfile : place.file ≠ file)
  (hname : file ≠ name) (hs : Offering owner name m p place s.standing)

include h

/-- The walk over such a module. -/
theorem visit_eq : ∃ rest, (definer file policy).visit root s =
    ((definer file policy).walkAll before >>= fun _ => defineProgram file program >>= fun _ => rest)
    (s.opened owner file) := by
  obtain ⟨after, hchildren⟩ := h.split
  rw [Declaration.visit_eq, Visitor.walk_eq, bind_apply, enter_module h.tag_eq, h.name_eq,
    hchildren, Visitor.walkAll_append]
  simp only [Visitor.walkAll_cons, Visitor.walk_eq program, enter_program h.program_tag, bind_assoc]
  exact ⟨_, rfl⟩

include hfile hname hs

theorem inModule_before :
    Ensures ((definer file policy).walkAll before) (s.opened owner file)
      (fun _ t => InModule owner name m p place (s.globals.openFile owner file).1 t.standing)
        (fun _ _ => True) := by
  refine (keeps_walkAll_standing (keptWithin_inModule hfile) ?_ (.opened hname hs)).mono
    (fun _ _ ht => ht) fun _ _ _ => trivial
  intro k hk n hn htag
  exact absurd htag (h.moduleless k hk n hn)

/-- It does not come past the program. -/
theorem refuses_visit :
    Ensures ((definer file policy).visit root) s (fun _ _ => False) (fun _ _ => True) := by
  obtain ⟨rest, hvisit⟩ := @visit_eq owner name file policy root program before s h
  unfold Ensures
  rw [hvisit]
  change Ensures _ (s.opened owner file) (fun _ _ => False) (fun _ _ => True)
  rw [ensures_bind]
  refine (h.inModule_before hfile hname hs).mono ?_ fun _ _ _ => trivial
  intro _ t ht
  obtain ⟨previous, hprevious⟩ := ht.exists_conflict hfile
  rw [← h.program_name, ← h.exported] at hprevious
  unfold Ensures
  rw [bind_apply, defineProgram_of_conflict ht.chunk_eq hprevious]
  trivial

/-- If what stands before the program is accepted and has no program of its name, the walk stops at
the program, with the place of the one that is there. -/
theorem redefinition_visit
    (hothers : ∀ k ∈ before, ∀ n ∈ k.nodes, n.tag = .program → n.name ≠ name) {cut : Node}
    (hcutTag : cut.tag = .module) (hcutName : cut.name = owner) (hcut : cut.children = before)
    (haccepted : answers ((definer file policy).visit cut) s = true) :
    ∃ t, (definer file policy).visit root s =
      .error (.fault (.redefinition name) file program.nameLocation (some place)) t := by
  obtain ⟨rest, hvisit⟩ := @visit_eq owner name file policy root program before s h
  -- the walk over what stands before the program is the same in both trees
  obtain ⟨_, t, ht⟩ : ∃ a t, (definer file policy).walkAll before (s.opened owner file) =
    .ok a t := by
    rw [Declaration.visit_eq, Visitor.walk_eq, hcut, answers_bind (enter_module hcutTag s),
      hcutName] at haccepted
    obtain ⟨a, t, ht, -⟩ := exists_of_answers_bind haccepted
    exact ⟨a, t, ht⟩
  have hmodule := (h.inModule_before hfile hname hs).of_ok ht
  have hunknown := (keeps_walkAll (fun k hk n hn _ _ hstep hu =>
    hu.move (h.moduleless k hk n hn) (hothers k hk n hn) hstep)
      (Unknown.opened s owner file name)).of_ok ht
  have hconflict := hmodule.conflict?_of_unknown hfile hunknown.unknown
  rw [← h.program_name, ← h.exported] at hconflict
  rw [hvisit, bind_apply, ht]
  dsimp only
  rw [bind_apply, defineProgram_of_conflict hmodule.chunk_eq hconflict, h.program_name]
  exact ⟨t, rfl⟩

end ExportsAfter

end Declaration

/-! ### Numbered trees -/

namespace Node

variable {k : Node} {ns ms : List Node}

theorem children_renumber (n : Node) (next : Nat) :
    (n.renumber next).1.children = (renumberAll (next + 1) [] n.children).1 := by
  obtain ⟨id, payload, location, children⟩ := n
  rw [renumber_mk]

theorem renumberAll_append (next : Nat) (ns ms : List Node) :
    (renumberAll next [] (ns ++ ms)).1 =
      (renumberAll next [] ns).1 ++ (renumberAll (renumberAll next [] ns).2 [] ms).1 := by
  induction ns generalizing next with
  | nil => rfl
  | cons n rest ih =>
    rw [List.cons_append, renumberAll_cons, renumberAll_cons, ih, List.cons_append]

theorem map_erased_renumberAll (next : Nat) (ns : List Node) :
    (renumberAll next [] ns).1.map erased = ns.map erased := by
  induction ns generalizing next with
  | nil => rfl
  | cons n rest ih => rw [renumberAll_cons, List.map_cons, List.map_cons, erased_renumber, ih]

theorem exists_like_renumberAll {next : Nat} (hk : k ∈ (renumberAll next [] ns).1) :
    ∃ k₀ ∈ ns, k₀.erased = k.erased := by
  have hmem := List.mem_map_of_mem (f := erased) hk
  rw [map_erased_renumberAll] at hmem
  exact List.mem_map.mp hmem

end Node

namespace Declaration

variable {owner name : String} {root program : Node} {before : List Node}

/-- Numbering a module anew does not change what it exports. -/
theorem ExportsAfter.renumber (h : ExportsAfter root owner name before program) :
    ∃ next, ExportsAfter (root.renumber 0).1 owner name (Node.renumberAll 1 [] before).1
      (program.renumber next).1 := by
  obtain ⟨rest, hsplit⟩ := h.split
  refine ⟨(Node.renumberAll 1 [] before).2, ?_⟩
  constructor
  case tag_eq => rw [Node.tag_renumber, h.tag_eq]
  case name_eq => rw [Node.name_renumber, h.name_eq]
  case split =>
    rw [Node.children_renumber, hsplit, Node.renumberAll_append, Node.renumberAll_cons]
    exact ⟨_, rfl⟩
  case moduleless =>
    intro k hk
    obtain ⟨k₀, hk₀, hlike⟩ := Node.exists_like_renumberAll hk
    rw [← Node.moduleless_erased, ← hlike, Node.moduleless_erased]
    exact h.moduleless k₀ hk₀
  case program_tag => rw [Node.tag_renumber, h.program_tag]
  case program_name => rw [Node.name_renumber, h.program_name]
  case exported =>
    have hmark := congrArg (fun n : Node => (n.child? .exportMark).isSome)
      (program.erased_renumber (Node.renumberAll 1 [] before).2)
    simp only [Node.child?_erased, Option.isSome_map] at hmark
    rw [hmark, h.exported]

/-- A module without modules in it that exports a name has a first program that it exports under
this name. -/
theorem exists_exportsAfter (htag : root.tag = .module)
    (hmodules : ∀ k ∈ root.children, k.Moduleless) (hname : name ∈ exportNames root) :
    ∃ before program, ExportsAfter root root.name name before program := by
  obtain ⟨program, hprogram, hprogramName⟩ := List.mem_map.mp hname
  obtain ⟨hchild, hexported⟩ := List.mem_filter.mp hprogram
  obtain ⟨hmem, hprogramTag⟩ := List.mem_filter.mp hchild
  obtain ⟨before, rest, hsplit⟩ := List.append_of_mem hmem
  refine ⟨before, program, htag, rfl, ⟨rest, hsplit⟩,
    fun k hk => ?_, by simpa [Node.is] using hprogramTag, hprogramName, hexported⟩
  exact hmodules k (by rw [hsplit]; exact List.mem_append_left _ hk)

end Declaration

/-! ### Sessions -/

/-- A source takes a name from the exports of a module: its file has the name, and it is a file of
the module. -/
def SourceTree.takes (source : SourceTree) (owner name : String) : Prop :=
  source.file = name ∧ ∃ n ∈ source.root.nodes, n.tag = .module ∧ n.name = owner

/-- The file of a module that does not take the name is not of that name. -/
theorem Declaration.ExportsAfter.file_ne {root program : Node} {owner name file : String}
    (h : ExportsAfter root owner name before program)
    (htakes : ¬SourceTree.takes ⟨file, root⟩ owner name) :
    file ≠ name :=
  fun heq => htakes ⟨heq, root, root.self_mem_nodes, h.tag_eq, h.name_eq⟩

namespace Session

/-- How a source text is read: it is compiled, or only declared. -/
inductive Reading
  | compiled (output? : Option String)
  | declared

namespace Reading

/-- What comes before the text itself. -/
def prepare (parser : Parser) : Reading → SessionM Unit
  | .compiled _ => loadSystem parser
  | .declared => pure ()

/-- Read a source text. -/
def step (parser : Parser) (source : List UInt8) (file : String) : Reading → SessionM Unit
  | .compiled output? => do let _ ← compileSource parser source file output?
  | .declared => declareSource parser source file

/-- The files that are read before the text. -/
def systemFiles (s : Session) : Reading → List String
  | .compiled _ => s.systemFiles
  | .declared => []

/-- The sources that are read: those of the files before the text, and the text. -/
def sources (parser : Parser) (source : List UInt8) (file : String) (s : Session)
    (reading : Reading) : List SourceTree :=
  (reading.systemFiles s).flatMap (fun path =>
    match s.files.read path with
    | .ok content => parsed parser content path s.options.freeFormat
    | .error _ => []) ++ parsed parser source file s.options.freeFormat

end Reading

variable {parser : Parser} {source : List UInt8} {file : String} {s u : Session} {reading : Reading}
  {root : Node}

namespace Reading

/-- The text itself is one of the sources. -/
theorem mem_sources (hroot : parser file source s.options.freeFormat = .ok root) :
    ⟨file, root⟩ ∈ reading.sources parser source file s := by
  refine List.mem_append_right _ ?_
  rw [parsed, hroot]
  exact List.mem_singleton.mpr rfl

/-- Compiling a source text, as a reading. -/
theorem step_compiled (output? : Option String) :
    (compiled output?).step parser source file s =
      match compileSource parser source file output? s with
      | .ok _ t => .ok () t
      | .error e t => .error e t := by
  simp only [step, bind_apply]
  cases compileSource parser source file output? s <;> rfl

/-- If reading the files before the text stops, the text is not read. -/
theorem step_of_stopped (hs : s.passes = Pass.core) {e : Stop}
    (h : reading.prepare parser s = .error e u) :
    reading.step parser source file s = .error e u := by
  cases reading with
  | compiled output? =>
    have hload : loadSystem parser s = .error e u := h
    have hcompile : compileSource parser source file output? s = .error e u := by
      simp only [compileSource, bind_apply, ordered_eq hs, hload]
    rw [step_compiled, hcompile]
  | declared => cases h

/-- A text that is refused is only noted. -/
theorem step_of_refused (hs : s.passes = Pass.core) (h : reading.prepare parser s = .ok () u)
    {refusal : ParseError} (hroot : parser file source u.options.freeFormat = .error refusal) :
    ∃ e, reading.step parser source file s = .error e (u.logged file source) := by
  cases reading with
  | compiled output? =>
    have hload : loadSystem parser s = .ok () u := h
    rw [step_compiled]
    simp only [compileSource, bind_apply, ordered_eq hs, hload, run_refused hroot]
    exact ⟨_, rfl⟩
  | declared =>
    obtain ⟨-, rfl⟩ := EStateM.Result.ok.inj h
    rw [step, declareSource_eq hs, run_refused hroot]
    exact ⟨_, rfl⟩

/-- What is read of a text is what the passes that declare leave in the scope, and where they stop,
reading it stops. -/
theorem step_of_parsed (hs : s.passes = Pass.core) (h : reading.prepare parser s = .ok () u)
    (hroot : parser file source u.options.freeFormat = .ok root) :
    (after (reading.step parser source file) s).globals =
        (stateOf (passing (Pass.core.take 3) root (u.logged file source) file none)).globals ∧
      ∀ e run, passing (Pass.core.take 3) root (u.logged file source) file none = .error e run →
        ∃ t, reading.step parser source file s = .error e t := by
  cases reading with
  | compiled output? =>
    -- the passes after those that declare leave the scope alone
    have hcompile : compileSource parser source file output? s = _ :=
      compileSource_loaded hs h hroot
    constructor
    · rw [← globals_passing_core root output?]
      have hstate : after ((compiled output?).step parser source file) s =
          stateOf (compileSource parser source file output? s) := by
        rw [after, step_compiled]
        cases compileSource parser source file output? s <;> rfl
      rw [hstate, hcompile, stateOf_conclude]
      rfl
    · intro e run herror
      rw [step_compiled, hcompile, passing_core, herror]
      exact ⟨_, rfl⟩
  | declared =>
    obtain ⟨-, rfl⟩ := EStateM.Result.ok.inj h
    refine ⟨globals_after_declareSource hs hroot, fun e run herror => ?_⟩
    rw [step, declareSource_parsed hs hroot, herror]
    exact ⟨_, rfl⟩

end Reading

/-! ### Declaring a source text -/

section declaring

variable {owner name : String} {m : ModuleId} {p : ProgramId} {place : Place}

/-- A run of the passes that declare keeps what the walk over the numbered tree keeps. -/
theorem keeps_passing {I : Standing → Prop} (hI : KeptWithin file s.options.policy I)
    (hvisit : Ensures ((definer file s.options.policy).visit (root.renumber 0).1)
      (.ofRun (s.beginRun file none (root.renumber 0).2)) (fun _ t => I t.standing)
      (fun _ t => I t.standing)) :
    I (stateOf (passing (Pass.core.take 3) root s file none)).standing := by
  apply holds_stateOf (P := fun run : Run => I run.standing)
  exact @keeps_declaring I (s.beginRun file none (root.renumber 0).2) hI _ hvisit

theorem offering_passing (hfile : place.file ≠ file)
    (hkeep : ¬SourceTree.takes ⟨file, root⟩ owner name)
    (hs : Offering owner name m p place s.standing) :
    Offering owner name m p place
      (stateOf (passing (Pass.core.take 3) root s file none)).standing := by
  refine keeps_passing (keptWithin_offering hfile) (offering_visit hfile ?_ hs)
  intro n hn htag hname hfileName
  obtain ⟨n₀, hn₀, hlike⟩ := Node.exists_like (root.erased_renumber 0).symm hn
  refine hkeep ⟨hfileName, n₀, hn₀, ?_, ?_⟩
  · rw [← Node.tag_erased, hlike, Node.tag_erased, htag]
  · rw [← Node.name_erased, hlike, Node.name_erased, hname]

theorem gone_passing (htag : root.tag = .module) (howner : root.name = owner)
    (hs : Knows owner m count s.standing) :
    Gone name m count (stateOf (passing (Pass.core.take 3) root s name none)).standing := by
  refine keeps_passing (fun hstep _ hst => hst.step hstep) (gone_visit ?_ ?_ hs)
  · rw [Node.tag_renumber, htag]
  · rw [Node.name_renumber, howner]

/-- The passes that declare refuse a file that exports a program of the name from the module. -/
theorem refuses_passing {program : Node} (h : ExportsAfter root owner name before program)
    (hfile : place.file ≠ file)
    (hname : file ≠ name) (hs : Offering owner name m p place s.standing) :
    ∃ e run, passing (Pass.core.take 3) root s file none = .error e run := by
  obtain ⟨next, hnumbered⟩ := h.renumber
  let start := s.beginRun file none (root.renumber 0).2
  have hstart : Offering owner name m p place (State.ofRun start).standing := hs
  cases hvisit : (definer start.file start.options.policy).visit (root.renumber 0).1 (.ofRun start)
    with
  | ok _ t => exact ((hnumbered.refuses_visit hfile hname hstart).of_ok hvisit).elim
  | error e t => exact ⟨e, _, declaring_of_visit hvisit⟩

/-- They give the place of the program that is there, if what stands before the new one is accepted
and has none of that name. -/
theorem redefinition_passing {program : Node} (h : ExportsAfter root owner name before program)
    (hfile : place.file ≠ file) (hname : file ≠ name)
    (hs : Offering owner name m p place s.standing)
    (hothers : ∀ k ∈ before, ∀ n ∈ k.nodes, n.tag = .program → n.name ≠ name)
    (hcutName : ({ root with children := before } : Node).name = owner) {declared : Node}
    {run : Run}
    (haccepted : passing (Pass.core.take 1) { root with children := before } s file none =
      .ok declared run) :
    ∃ t, passing (Pass.core.take 3) root s file none =
      .error (.fault (.redefinition name) file program.nameLocation (some place)) t := by
  obtain ⟨next, hnumbered⟩ := h.renumber
  let cut : Node := { root with children := before }
  let start := s.beginRun file none (root.renumber 0).2
  have hstart : Offering owner name m p place (State.ofRun start).standing := hs
  have hcutTag : (cut.renumber 0).1.tag = .module := by
    rw [Node.tag_renumber]
    exact h.tag_eq
  have hcut : (cut.renumber 0).1.children = (Node.renumberAll 1 [] before).1 :=
    Node.children_renumber cut 0
  -- a walk does not depend on the identities that are free
  have hanswers : answers ((definer start.file start.options.policy).visit (cut.renumber 0).1)
      (.ofRun start) = true := by
    change (define (cut.renumber 0).1 >>= pure) (s.beginRun file none (cut.renumber 0).2) = _
      at haccepted
    rw [bind_pure] at haccepted
    have hwalk := answers_of_define haccepted
    exact hwalk
  have hnumberedOthers : ∀ k ∈ (Node.renumberAll 1 [] before).1, ∀ n ∈ k.nodes, n.tag = .program →
      n.name ≠ name := by
    intro k hk n hn htag
    obtain ⟨k₀, hk₀, hlike⟩ := Node.exists_like_renumberAll hk
    obtain ⟨n₀, hn₀, hlike'⟩ := Node.exists_like hlike hn
    rw [← Node.name_erased, ← hlike', Node.name_erased]
    refine hothers k₀ hk₀ n₀ hn₀ ?_
    rw [← Node.tag_erased, hlike', Node.tag_erased, htag]
  obtain ⟨t, ht⟩ := hnumbered.redefinition_visit hfile hname hstart hnumberedOthers hcutTag
    (by rw [Node.name_renumber]; exact hcutName) hcut hanswers
  have hlocation : (program.renumber next).1.nameLocation = program.nameLocation := by
    rw [← Node.nameLocation_erased, Node.erased_renumber, Node.nameLocation_erased]
  rw [hlocation] at ht
  exact ⟨_, declaring_of_visit ht⟩

end declaring

/-! ### Reading source texts -/

section exports

variable {owner name : String} {m : ModuleId} {p : ProgramId} {place : Place}

/-- A session with an export, after another one. -/
structure StillOffers (owner name : String) (m : ModuleId) (p : ProgramId) (place : Place)
    (s t : Session) : Prop where
  untouched : s.Untouched t
  offering : Offering owner name m p place t.standing

/-- Declaring another file leaves an export alone. -/
theorem StillOffers.declareSource {t : Session} (h : StillOffers owner name m p place s t)
    (hkeep : ∀ tree ∈ parsed parser source file s.options.freeFormat, place.file ≠ tree.file ∧
      ¬tree.takes owner name) :
    Ensures (declareSource parser source file) t (fun _ => StillOffers owner name m p place s)
      (fun _ => StillOffers owner name m p place s) := by
  have hscope : Ensures (Session.declareSource parser source file) t
      (fun _ v => Offering owner name m p place v.standing)
      (fun _ v => Offering owner name m p place v.standing) := by
    unfold Ensures
    cases hroot : parser file source t.options.freeFormat with
    | error refusal =>
      rw [declareSource_eq h.untouched.passes_eq, run_refused hroot]
      exact h.offering
    | ok root =>
      rw [h.untouched.options_eq] at hroot
      obtain ⟨hfile, htakes⟩ :=
        hkeep ⟨file, root⟩ (by rw [parsed, hroot]; exact List.mem_singleton.mpr rfl)
      have hlogged : Offering owner name m p place (t.logged file source).standing := h.offering
      have hpassing := offering_passing hfile htakes hlogged
      rw [← h.untouched.options_eq] at hroot
      rw [declareSource_parsed h.untouched.passes_eq hroot]
      cases hresult : passing (Pass.core.take 3) root (t.logged file source) file none with
      | ok _ run =>
        rw [hresult] at hpassing
        exact ⟨kept_sound.forget hpassing.sound, hpassing.holds⟩
      | error e run =>
        rw [hresult] at hpassing
        exact ⟨kept_sound.forget hpassing.sound, hpassing.holds⟩
  exact (h.untouched.declareSource.and hscope).mono (fun _ _ hv => ⟨hv.1, hv.2⟩) fun _ _ hv =>
    ⟨hv.1, hv.2⟩

section kept

variable (hpasses : s.passes = Pass.core) (hs : Offering owner name m p place s.standing)
  (hkeep : ∀ tree ∈ reading.sources parser source file s, place.file ≠ tree.file ∧
    ¬tree.takes owner name)

include hpasses hs hkeep

/-- So do the files that are read before a source text. -/
theorem stillOffers_prepare :
    Ensures (reading.prepare parser) s (fun _ => StillOffers owner name m p place s)
      (fun _ => StillOffers owner name m p place s) := by
  have hstart : StillOffers owner name m p place s s := ⟨⟨hpasses, rfl, rfl, rfl⟩, hs⟩
  cases reading with
  | declared => exact hstart
  | compiled output? =>
    refine ensures_loadSystem hstart ?_ (fun _ _ ht => ht) ?_
    · exact fun t ht => ⟨⟨ht.untouched.passes_eq, ht.untouched.options_eq, ht.untouched.files_eq,
        ht.untouched.generator_eq⟩, ht.offering⟩
    · -- the files are still those of the first session, so what is read is one of the sources
      intro path hpath content t ht hread
      refine ht.declareSource fun tree htree =>
        hkeep tree (List.mem_append_left _ (List.mem_flatMap.mpr ⟨path, hpath, ?_⟩))
      rw [ht.untouched.files_eq] at hread
      rw [hread]
      exact htree

/-- Reading a source text leaves an export alone, if none of its sources is of the same file or
takes the name. -/
theorem offering_after :
    (after (reading.step parser source file) s).globals.Holds owner name m p place := by
  have hprepare := stillOffers_prepare hpasses hs hkeep
  cases hprepared : reading.prepare parser s with
  | error e u =>
    rw [after, Reading.step_of_stopped hpasses hprepared]
    exact (hprepare.of_error hprepared).offering.holds
  | ok _ u =>
    have hu := hprepare.of_ok hprepared
    cases hroot : parser file source u.options.freeFormat with
    | error refusal =>
      obtain ⟨e, he⟩ := Reading.step_of_refused hpasses hprepared hroot
      rw [after, he]
      exact hu.offering.holds
    | ok root =>
      rw [(Reading.step_of_parsed hpasses hprepared hroot).1]
      rw [hu.untouched.options_eq] at hroot
      have hlogged : Offering owner name m p place (u.logged file source).standing := hu.offering
      obtain ⟨hfile, htakes⟩ := hkeep ⟨file, root⟩ (Reading.mem_sources hroot)
      exact (offering_passing hfile htakes hlogged).holds

section refused

variable {before : List Node} {program : Node}
  (hroot : parser file source s.options.freeFormat = .ok root)
  (h : ExportsAfter root owner name before program)

include hroot h

/-- A file that exports a program of the name from the module is refused. -/
theorem refused_after : ∃ e t, reading.step parser source file s = .error e t := by
  obtain ⟨hfile, htakes⟩ := hkeep ⟨file, root⟩ (Reading.mem_sources hroot)
  have hname : file ≠ name := h.file_ne htakes
  cases hprepared : reading.prepare parser s with
  | error e u => exact ⟨e, u, Reading.step_of_stopped hpasses hprepared⟩
  | ok _ u =>
    have hu := (stillOffers_prepare hpasses hs hkeep).of_ok hprepared
    have hlogged : Offering owner name m p place (u.logged file source).standing := hu.offering
    obtain ⟨e, run, herror⟩ := refuses_passing h hfile hname hlogged
    rw [← hu.untouched.options_eq] at hroot
    exact ⟨e, (Reading.step_of_parsed hpasses hprepared hroot).2 e run herror⟩

/-- It is refused with the place of the program that is there, if nothing before its own is
wrong. -/
theorem redefinition_after (hothers : ∀ k ∈ before, ∀ n ∈ k.nodes, n.tag = .program → n.name ≠ name)
    (hcut : ({ root with children := before } : Node).name = owner)
    (hprepared : reading.prepare parser s = .ok () u) {declared : Node} {run : Run}
    (haccepted : passing (Pass.core.take 1) { root with children := before } (u.logged file source)
      file none = .ok declared run) :
    ∃ t, reading.step parser source file s =
      .error (.fault (.redefinition name) file program.nameLocation (some place)) t := by
  obtain ⟨hfile, htakes⟩ := hkeep ⟨file, root⟩ (Reading.mem_sources hroot)
  have hname : file ≠ name := h.file_ne htakes
  have hu := (stillOffers_prepare hpasses hs hkeep).of_ok hprepared
  have hlogged : Offering owner name m p place (u.logged file source).standing := hu.offering
  obtain ⟨last, herror⟩ := redefinition_passing h hfile hname hlogged hothers hcut haccepted
  rw [← hu.untouched.options_eq] at hroot
  exact (Reading.step_of_parsed hpasses hprepared hroot).2 _ last herror

end refused

end kept

/-- A file of the module with the name of an export puts an end to it. -/
theorem gone_after (hpasses : s.passes = Pass.core) (hs : Knows owner m count s.standing)
    (hprepared : reading.prepare parser s = .ok () u)
    (hroot : parser name source s.options.freeFormat = .ok root)
    (htag : root.tag = .module) (howner : root.name = owner) {q : ProgramId}
    (hq : (after (reading.step parser source name) s).globals.moduleProgram? m name = some q) :
    count ≤ q.index := by
  -- the module is still there when the text is read
  have hfollows : Follows (Knows owner m count) s u := by
    cases reading with
    | declared =>
      obtain ⟨-, rfl⟩ := EStateM.Result.ok.inj hprepared
      exact ⟨hpasses, rfl, hs⟩
    | compiled output? => exact (kept_knows.loadSystem parser ⟨hpasses, rfl, hs⟩).of_ok hprepared
  have hlogged : Knows owner m count (u.logged name source).standing := hfollows.holds
  rw [← hfollows.options_eq] at hroot
  rw [(Reading.step_of_parsed hpasses hprepared hroot).1] at hq
  exact (gone_passing htag howner hlogged).newer q hq

end exports

/-- An export of a module stays what it is when source texts are read, compiled or declared, and
with any outcome, as long as the files that are read have other names than the file of the export,
and none of them is a file of the module that takes its name. Then no file that exports a program of
that name from the module is accepted; and if nothing before that program is wrong, the file is
refused at it, with the place of the program that is there. A file of the module that does take the
name puts an end to the export. -/
theorem exports_stable_under_other_files {s : Session} (hs : s.Reachable) {m : ModuleId}
    {name : String} {p : ProgramId} (hp : s.globals.moduleProgram? m name = some p)
    (parser : Parser) (source : List UInt8) (file : String) (reading : Reading) :
    ((∀ tree ∈ reading.sources parser source file s,
        (s.globals.placeOf p).file ≠ tree.file ∧ ¬tree.takes (s.globals.module m).name name) →
      (after (reading.step parser source file) s).globals.moduleProgram? m name = some p ∧
      (∀ root, parser file source s.options.freeFormat = .ok root → root.tag = .module →
        root.name = (s.globals.module m).name → (∀ k ∈ root.children, k.Moduleless) →
          name ∈ exportNames root →
        ∃ e t, reading.step parser source file s = .error e t) ∧
      (∀ root before program u declared run, parser file source s.options.freeFormat = .ok root →
        ExportsAfter root (s.globals.module m).name name before program →
        (∀ k ∈ before, ∀ n ∈ k.nodes, n.tag = .program → n.name ≠ name) →
        ({ root with children := before } : Node).name = (s.globals.module m).name →
        reading.prepare parser s = .ok () u →
        passing (Pass.core.take 1) { root with children := before } (u.logged file source) file
          none = .ok declared run →
        ∃ t, reading.step parser source file s =
          .error (.fault (.redefinition name) file program.nameLocation
            (some (s.globals.placeOf p))) t)) ∧
    ∀ root u, parser name source s.options.freeFormat = .ok root → root.tag = .module →
      root.name = (s.globals.module m).name → reading.prepare parser s = .ok () u →
      (after (reading.step parser source name) s).globals.moduleProgram? m name ≠ some p := by
  have hpasses := hs.sound.passes_eq
  have hconsistent := hs.sound.consistent
  obtain ⟨hlt, -, howner⟩ :=
    hconsistent.export_name m name p (Globals.moduleProgram?_eq_some_iff.mp hp)
  have hmodule : m.index < s.globals.modules.size := by
    rw [← howner]
    exact hconsistent.chunk_owner _ (hconsistent.program_owner p hlt)
  have hknown : s.globals.module? (s.globals.module m).name = some m :=
    Globals.module?_eq_some_iff.mpr (hs.orderly.nested.module_found m hmodule)
  have hsound : s.standing.IsSound := ⟨hconsistent, fun _ hc => by cases hc⟩
  have hoffering : Offering (s.globals.module m).name name m p (s.globals.placeOf p) s.standing :=
    ⟨hsound, hknown, hp, rfl⟩
  refine ⟨fun hkeep => ⟨(offering_after hpasses hoffering hkeep).found, ?_, ?_⟩, ?_⟩
  · intro root hroot htag hname hmodules hexports
    obtain ⟨before, program, h⟩ := exists_exportsAfter htag hmodules hexports
    rw [hname] at h
    exact refused_after hpasses hoffering hkeep hroot h
  · intro root before program u declared run hroot h hothers hcut hprepared haccepted
    exact redefinition_after hpasses hoffering hkeep hroot h hothers hcut hprepared haccepted
  · intro root u hroot htag hname hprepared hstill
    have hknows : Knows (s.globals.module m).name m s.globals.programs.size s.standing :=
      ⟨hsound, hknown, le_refl _⟩
    have hnew := gone_after hpasses hknows hprepared hroot htag hname hstill
    omega

/-- A second file of the ledger that exports a program of the first is refused, and the program of
the first stays. -/
theorem ledger_export_stable :
    ledgerSession.globals.moduleProgram? ⟨0⟩ "OPEN" = some ⟨0⟩ ∧
    (after ((Reading.compiled none).step ledgerParser [1] "OTHER.cbl")
      ledgerSession).globals.moduleProgram? ⟨0⟩ "OPEN" = some ⟨0⟩ ∧
    ∃ t, (Reading.compiled none).step ledgerParser [1] "OTHER.cbl" ledgerSession =
      .error (.fault (.redefinition "OPEN") "OTHER.cbl" Location.none
        (some ⟨"LEDGER.cbl", Location.none⟩)) t := by
  have hs : ledgerSession.Reachable :=
    .compiled (.start {} .empty) ledgerParser [] "LEDGER.cbl" none
  have hp : ledgerSession.globals.moduleProgram? ⟨0⟩ "OPEN" = some ⟨0⟩ := by decide +kernel
  have hplace : ledgerSession.globals.placeOf ⟨0⟩ = ⟨"LEDGER.cbl", Location.none⟩ := by
    decide +kernel
  have hmodule : (ledgerSession.globals.module ⟨0⟩).name = "LEDGER" := by decide +kernel
  have hloaded : ledgerSession.systemLoaded = true := by decide +kernel
  have hroot : ledgerParser "OTHER.cbl" [1] ledgerSession.options.freeFormat =
      .ok (ledgerModule ["OPEN"]) := rfl
  obtain ⟨hstable, -⟩ :=
    exports_stable_under_other_files hs hp ledgerParser [1] "OTHER.cbl" (.compiled none)
  rw [hplace, hmodule] at hstable
  obtain ⟨hstill, -, hrefused⟩ := hstable (by
    intro tree htree
    -- the declaration files of the system were read before
    have hsystem : ledgerSession.systemFiles = [] := by rw [systemFiles, if_pos hloaded]
    rw [Reading.sources, Reading.systemFiles, hsystem, List.flatMap_nil, List.nil_append, parsed,
      hroot] at htree
    obtain rfl := List.mem_singleton.mp htree
    exact ⟨by decide, fun htakes => absurd htakes.1 (by decide)⟩)
  refine ⟨hp, hstill, ?_⟩
  have hcut : answers (runAll (Pass.core.take 1) ((ledgerModule []).renumber 0).1)
      ((ledgerSession.loaded.logged "OTHER.cbl" [1]).beginRun "OTHER.cbl" none
        ((ledgerModule []).renumber 0).2) = true := by
    decide +kernel
  obtain ⟨declared, run, hrun⟩ := exists_of_answers hcut
  have hexports : ExportsAfter (ledgerModule ["OPEN"]) "LEDGER" "OPEN" [Build.identifier "LEDGER"]
      (Build.program "OPEN" [Build.leaf .exportMark, Build.procedure [] [] []]) :=
    ⟨rfl, by decide +kernel, ⟨[], rfl⟩, by simp [moduleless_identifier],
      rfl, by decide +kernel, by decide +kernel⟩
  have hothers : ∀ k ∈ [Build.identifier "LEDGER"], ∀ n ∈ k.nodes, n.tag = .program →
      n.name ≠ "OPEN" := by
    intro k hk n hn htag
    obtain rfl := List.mem_singleton.mp hk
    obtain rfl : n = Build.identifier "LEDGER" := List.mem_singleton.mp hn
    cases htag
  exact hrefused (ledgerModule ["OPEN"]) _ _ ledgerSession.loaded declared run hroot hexports
    hothers (by decide +kernel) (loadSystem_eq ledgerParser (.inr hloaded)) hrun

/-- A file of the ledger that has the name of one of its programs is accepted. Afterwards this
program cannot be called any more, and another one takes its place if the file exports one of that
name. -/
theorem file_takes_export :
    ledgerSession.Reachable ∧ ledgerSession.globals.moduleProgram? ⟨0⟩ "OPEN" = some ⟨0⟩ ∧
      (ledgerSession.globals.placeOf ⟨0⟩).file ≠ "OPEN" ∧
      (after (compileSource (fun _ _ _ => .ok (ledgerModule ["AUDIT"])) [] "OPEN" none)
        ledgerSession).globals.moduleProgram? ⟨0⟩ "OPEN" = none ∧
      ∃ product t, compileSource (fun _ _ _ => .ok (ledgerModule ["OPEN"])) [] "OPEN" none
        ledgerSession = .ok product t := by
  have hs : ledgerSession.Reachable :=
    .compiled (.start {} .empty) ledgerParser [] "LEDGER.cbl" none
  exact ⟨hs, by decide +kernel, by decide +kernel, by decide +kernel,
    exists_of_answers (by decide +kernel)⟩

end Session

end CobolCompiler
