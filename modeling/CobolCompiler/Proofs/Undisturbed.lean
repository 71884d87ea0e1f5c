import CobolCompiler.Proofs.Growth
import CobolCompiler.Proofs.Safety
import CobolCompiler.Proofs.ScopeEffect

/-!
# Earlier symbols are not disturbed

What a source file can do to a scope that is already there. All symbols of earlier files keep their
numbers and stay as they are; a module only gets a chunk more, and in its table only the entry of
the file and those of the programs that the file exports can change. `Globals.Undisturbed` says so
for any number of files, one after the other.

A file is declared in two stages. Opening it adds its module and its chunk to the scope. After that
everything that is declared belongs to this chunk: `Globals.Confined` compares the scope with the
one right after the file was opened, and holds wherever declaring stops. The passes after declaring
do not change the scope at all, so this is also what compiling does (`compiling_disturbs_nothing`).
-/

namespace CobolCompiler

open Declaration Syntax

/-! ### Sources -/

/-- The names of the programs that a module exports. -/
def Syntax.exportNames (root : Node) : List String :=
  ((programNodes root).filter fun n => (n.child? .exportMark).isSome).map (·.name)

theorem Syntax.exportNames_erased (root : Node) : exportNames root.erased = exportNames root := by
  simp only [exportNames, programNodes, Node.childrenOf_erased, List.filter_map, List.map_map,
    Function.comp_def, Node.name_erased, Node.child?_erased, Option.isSome_map]

theorem Syntax.exportNames_renumber (root : Node) (next : Nat) :
    exportNames (root.renumber next).1 = exportNames root := by
  rw [← exportNames_erased, Node.erased_renumber, exportNames_erased]

theorem Node.name_renumber (root : Node) (next : Nat) :
    (root.renumber next).1.name = root.name := by
  rw [← name_erased, erased_renumber, name_erased]

/-- A program of a module that is marked for export is one of its exports. -/
theorem ModuleShape.name_mem_exportNames {m : ModuleShape} {shape : ProgramShape}
    (hshape : shape ∈ m.programs) (hexported : (shape.node.child? .exportMark).isSome = true) :
    shape.node.name ∈ exportNames m.node := by
  have hnode : shape.node ∈ programNodes m.node := by
    rw [m.programNodes_node]
    exact List.mem_map_of_mem hshape
  exact List.mem_map_of_mem (List.mem_filter.mpr ⟨hnode, hexported⟩)

/-- A source file with the tree that its text is. -/
structure SourceTree where
  file : String
  root : Node

/-- The names in the table of a module that a source can change: that of the file and those of its
exports. -/
def SourceTree.touches (source : SourceTree) (owner name : String) : Prop :=
  source.root.name = owner ∧ (name = source.file ∨ name ∈ exportNames source.root)

/-! ### Frames -/

/-- Some sources were declared one after the other, and apart from that a scope is as it was
before. -/
structure Globals.Undisturbed (sources : List SourceTree) (g g' : Globals) : Prop where
  chunks_le : g.chunks.size ≤ g'.chunks.size
  chunk_eq : ∀ c : ChunkId, c.index < g.chunks.size → g'.chunk c = g.chunk c
  programs_le : g.programs.size ≤ g'.programs.size
  program_eq : ∀ p : ProgramId, p.index < g.programs.size → g'.program p = g.program p
  fields_le : g.fields.size ≤ g'.fields.size
  field_eq : ∀ f : FieldId, f.index < g.fields.size → g'.field f = g.field f
  modules_le : g.modules.size ≤ g'.modules.size
  module_name : ∀ m : ModuleId, m.index < g.modules.size → (g'.module m).name = (g.module m).name
  /-- A module gets at most one chunk from each source, and only from sources that are part of
  it. -/
  module_chunks : ∀ m : ModuleId, m.index < g.modules.size → ∃ added : List ChunkId,
    (g'.module m).chunks.toList = (g.module m).chunks.toList ++ added ∧
    (∀ c ∈ added, g.chunks.size ≤ c.index ∧ c.index < g'.chunks.size) ∧
    (added.map fun c => (g'.chunk c).name).Sublist
      ((sources.filter fun source => source.root.name = (g.module m).name).map (·.file))
  module_table : ∀ (m : ModuleId) (name : String), m.index < g.modules.size →
    (∀ source ∈ sources, ¬source.touches (g.module m).name name) →
    (g'.module m).table.get? name = (g.module m).table.get? name
  module?_eq : ∀ owner m, g.module? owner = some m → g'.module? owner = some m

namespace Globals.Undisturbed

variable {sources sources' : List SourceTree} {g g' g'' : Globals}

theorem refl (g : Globals) : Undisturbed [] g g where
  chunks_le := le_refl _
  chunk_eq := fun _ _ => rfl
  programs_le := le_refl _
  program_eq := fun _ _ => rfl
  fields_le := le_refl _
  field_eq := fun _ _ => rfl
  modules_le := le_refl _
  module_name := fun _ _ => rfl
  module_chunks := fun _ _ => ⟨[], by simp⟩
  module_table := fun _ _ _ _ => rfl
  module?_eq := fun _ _ h => h

theorem trans (h : Undisturbed sources g g') (h' : Undisturbed sources' g' g'') :
    Undisturbed (sources ++ sources') g g'' where
  chunks_le := h.chunks_le.trans h'.chunks_le
  chunk_eq := fun c hc => (h'.chunk_eq c (hc.trans_le h.chunks_le)).trans (h.chunk_eq c hc)
  programs_le := h.programs_le.trans h'.programs_le
  program_eq := fun p hp => (h'.program_eq p (hp.trans_le h.programs_le)).trans (h.program_eq p hp)
  fields_le := h.fields_le.trans h'.fields_le
  field_eq := fun f hf => (h'.field_eq f (hf.trans_le h.fields_le)).trans (h.field_eq f hf)
  modules_le := h.modules_le.trans h'.modules_le
  module_name :=
    fun m hm => (h'.module_name m (hm.trans_le h.modules_le)).trans (h.module_name m hm)
  module_chunks := by
    intro m hm
    obtain ⟨first, hfirst, hnew, hnames⟩ := h.module_chunks m hm
    obtain ⟨second, hsecond, hnew', hnames'⟩ := h'.module_chunks m (hm.trans_le h.modules_le)
    refine ⟨first ++ second, by rw [hsecond, hfirst, List.append_assoc], ?_, ?_⟩
    · intro c hc
      rcases List.mem_append.mp hc with hc | hc
      · exact ⟨(hnew c hc).1, (hnew c hc).2.trans_le h'.chunks_le⟩
      · exact ⟨h.chunks_le.trans (hnew' c hc).1, (hnew' c hc).2⟩
    · -- the chunks of the first sources keep their names
      have hkept : first.map (fun c => (g''.chunk c).name) = first.map fun c => (g'.chunk c).name :=
        List.map_congr_left fun c hc => by rw [h'.chunk_eq c (hnew c hc).2]
      rw [h.module_name m hm] at hnames'
      rw [List.map_append, hkept, List.filter_append, List.map_append]
      exact hnames.append hnames'
  module_table := by
    intro m name hm hname
    rw [h'.module_table m name (hm.trans_le h.modules_le), h.module_table m name hm]
    · exact fun source hsource => hname source (List.mem_append_left _ hsource)
    · intro source hsource
      rw [h.module_name m hm]
      exact hname source (List.mem_append_right _ hsource)
  module?_eq := fun owner m hm => h'.module?_eq owner m (h.module?_eq owner m hm)

/-- More sources may do more. -/
theorem mono (h : Undisturbed sources g g') (hsources : sources.Sublist sources') :
    Undisturbed sources' g g' :=
  { h with
    module_chunks := by
      intro m hm
      obtain ⟨added, hadded, hnew, hnames⟩ := h.module_chunks m hm
      exact ⟨added, hadded, hnew, hnames.trans ((hsources.filter _).map _)⟩
    module_table := fun m name hm hname =>
      h.module_table m name hm fun source hsource => hname source (hsources.subset hsource) }

end Globals.Undisturbed

/-! ### Opening a file -/

namespace Globals

variable {g : Globals}

/-- A module that is there is found again; otherwise it is the next one. -/
theorem addModule_cases (g : Globals) (name : String) :
    (∃ m, g.module? name = some m ∧ g.addModule name = (m, g)) ∨
      g.module? name = none ∧ (g.addModule name).1 = ⟨g.modules.size⟩ ∧
        (g.addModule name).2.modules = g.modules.push ⟨name, #[], Table.empty⟩ ∧
        (g.addModule name).2.table = g.table.define name (.module ⟨g.modules.size⟩) := by
  unfold addModule
  cases hfound : g.module? name with
  | some m => exact .inl ⟨m, rfl, rfl⟩
  | none => exact .inr ⟨rfl, rfl, rfl, rfl⟩

variable {m : ModuleId}

theorem addModule_module_of_lt (name : String) (hm : m.index < g.modules.size) :
    (g.addModule name).2.module m = g.module m := by
  rcases g.addModule_cases name with ⟨_, _, heq⟩ | ⟨_, _, hmodules, _⟩
  · rw [heq]
  · rw [module, hmodules, getD_push, if_neg (by omega)]
    rfl

theorem addModule_modules_le (name : String) :
    g.modules.size ≤ (g.addModule name).2.modules.size := by
  rcases g.addModule_cases name with ⟨_, _, heq⟩ | ⟨_, _, hmodules, _⟩
  · rw [heq]
  · rw [hmodules, Array.size_push]
    exact Nat.le_succ _

/-- A name that stands for a module stands for it also after another module was added. -/
theorem addModule_module?_of_some (name : String) {owner : String} (hm : g.module? owner = some m) :
    (g.addModule name).2.module? owner = some m := by
  rcases g.addModule_cases name with ⟨_, _, heq⟩ | ⟨hnone, _, _, htable⟩
  · rw [heq]
    exact hm
  · have hne : name ≠ owner := by
      rintro rfl
      rw [hnone] at hm
      cases hm
    rw [module?_eq_some_iff] at hm ⊢
    rw [htable, Table.get?_define, if_neg hne]
    exact hm

/-- The module of a file that is among the earlier ones has the name that the file gives it. -/
theorem Consistent.addModule_name (h : g.Consistent) {name : String}
    (hlt : (g.addModule name).1.index < g.modules.size) :
    (g.module (g.addModule name).1).name = name := by
  rcases g.addModule_cases name with ⟨m, hfound, heq⟩ | ⟨_, hnew, _, _⟩
  · rw [heq]
    exact (h.module_name name m (module?_eq_some_iff.mp hfound)).2
  · rw [hnew] at hlt
    exact absurd hlt (lt_irrefl _)

/-- What opening a file leaves of an earlier module. -/
theorem openFile_module_of_lt (name file : String) (hm : m.index < g.modules.size) :
    (g.openFile name file).2.module m =
      if (g.addModule name).1 = m then
        { g.module m with
          chunks := (g.module m).chunks.push ⟨g.chunks.size⟩
          table := (g.module m).table.define file (.chunk ⟨g.chunks.size⟩) }
      else g.module m := by
  rw [openFile, addChunk_module, addModule_chunks, addModule_module_of_lt name hm]
  have hlt := hm.trans_le (addModule_modules_le name)
  by_cases howner : (g.addModule name).1 = m
  · rw [if_pos howner, if_pos ⟨by rw [howner], hlt⟩]
  · rw [if_neg howner, if_neg fun h => howner (ModuleId.eq_of_index h.1)]

theorem openFile_id (name file : String) : (g.openFile name file).1 = ⟨g.chunks.size⟩ := by
  rw [openFile, addChunk_id, addModule_chunks]

theorem openFile_size_chunks (name file : String) :
    (g.openFile name file).2.chunks.size = g.chunks.size + 1 := by
  rw [openFile, addChunk_size_chunks, addModule_chunks]

/-- Opening a file disturbs nothing. -/
theorem Undisturbed.openFile (h : g.Consistent) (file : String) (root : Node) :
    Undisturbed [⟨file, root⟩] g (g.openFile root.name file).2 := by
  have hmodule := fun m => @openFile_module_of_lt g m root.name file
  -- a module that was there is the module of the file only if it has its name
  have howner : ∀ m : ModuleId, m.index < g.modules.size → (g.addModule root.name).1 = m →
      root.name = (g.module m).name := by
    intro m hm heq
    rw [← heq] at hm ⊢
    exact (h.addModule_name hm).symm
  constructor
  case chunks_le =>
    rw [openFile_size_chunks]
    omega
  case chunk_eq => exact fun c hc => openFile_chunk_of_lt root.name file hc
  case programs_le => rw [openFile_programs]
  case program_eq => exact fun p _ => openFile_program root.name file p
  case fields_le => rw [openFile_fields]
  case field_eq => exact fun f _ => openFile_field root.name file f
  case modules_le =>
    rw [Globals.openFile, addChunk_size_modules]
    exact addModule_modules_le root.name
  case module_name =>
    intro m hm
    rw [hmodule m hm]
    split <;> rfl
  case module_chunks =>
    intro m hm
    rw [hmodule m hm]
    by_cases heq : (g.addModule root.name).1 = m
    · -- the module of the file gets the new chunk
      have hchunk := g.openFile_chunk root.name file
      rw [openFile_id] at hchunk
      refine ⟨[⟨g.chunks.size⟩], ?_, ?_, ?_⟩
      · simp [heq]
      · simp [openFile_size_chunks]
      · rw [List.map_singleton, hchunk, List.filter_singleton, decide_eq_true (howner m hm heq)]
        exact List.Sublist.refl _
    · exact ⟨[], by simp [heq]⟩
  case module_table =>
    intro m name hm hname
    rw [hmodule m hm]
    by_cases heq : (g.addModule root.name).1 = m
    · have hfile : file ≠ name := by
        rintro rfl
        exact hname _ (List.mem_singleton.mpr rfl) ⟨howner m hm heq, .inl rfl⟩
      rw [if_pos heq, Table.get?_define, if_neg hfile]
    · rw [if_neg heq]
  case module?_eq => exact fun owner m hm => addModule_module?_of_some root.name hm

end Globals

/-! ### Within a chunk -/

/-- Since a scope was the one before, it grew in the chunk `c` alone, with exports of some names. -/
structure Globals.Confined (exports : List String) (c : ChunkId) (before g : Globals) : Prop where
  modules_size : g.modules.size = before.modules.size
  module_chunks : ∀ m, (g.module m).chunks = (before.module m).chunks
  module_table : ∀ m name, m ≠ (before.chunk c).owner ∨ name ∉ exports →
    (g.module m).table.get? name = (before.module m).table.get? name
  chunks_size : g.chunks.size = before.chunks.size
  chunk_eq : ∀ d, d ≠ c → g.chunk d = before.chunk d
  field_eq : ∀ f : FieldId, f.index < before.fields.size → g.field f = before.field f
  /-- The fields of the new programs are new. -/
  own_fields : ∀ p : ProgramId, before.programs.size ≤ p.index → ∀ name f home,
    (g.program p).member? name = some (.field f home) → before.fields.size ≤ f.index

/-- After a name was defined it stands for what it was defined as, or for what it stood for. -/
theorem ProgramScope.member?_of_define {p : ProgramScope} {name other : String}
    {symbol found : Symbol} (h : (p.define name symbol).member? other = some found) :
    found = symbol ∨ p.member? other = some found := by
  have hdefined : ∀ t : Table, (t.define name symbol).get? other = t.get? other ∨
      (t.define name symbol).get? other = some symbol := by
    intro t
    rw [Table.get?_define]
    split
    · exact .inr rfl
    · exact .inl rfl
  unfold define at h
  split at h
  · rcases hdefined p.linkage with heq | heq
    · right
      simpa only [member?, heq] using h
    · simp only [member?, heq] at h
      unfold member?
      cases hworking : p.working.get? other with
      | some first =>
        rw [hworking] at h
        exact .inr h
      | none =>
        rw [hworking] at h
        exact .inl (Option.some.inj h).symm
  · rcases hdefined p.working with heq | heq
    · right
      simpa only [member?, heq] using h
    · simp only [member?, heq] at h
      exact .inl (Option.some.inj h).symm

namespace Globals.Confined

variable {file : String} {exports : List String} {c : ChunkId} {before g : Globals}

/-- Nothing was declared yet. -/
theorem refl
    (hfields : ∀ p : ProgramId, before.programs.size ≤ p.index → before.program p = default) :
    Confined exports c before before where
  modules_size := rfl
  module_chunks := fun _ => rfl
  module_table := fun _ _ _ => rfl
  chunks_size := rfl
  chunk_eq := fun _ _ => rfl
  field_eq := fun _ _ => rfl
  own_fields := by
    intro p hp name f home hmember
    rw [hfields p hp] at hmember
    cases hmember

section

variable (h : Confined exports c before g)

include h

/-- Changes inside of programs, and of new fields. -/
theorem of_outline {g' : Globals} (hsame : g.SameOutline g')
    (hfield : ∀ f : FieldId, f.index < before.fields.size → g'.field f = g.field f)
    (hown : ∀ p : ProgramId, before.programs.size ≤ p.index → ∀ name f home,
      (g'.program p).member? name = some (.field f home) →
        before.fields.size ≤ f.index ∨ (g.program p).member? name = some (.field f home)) :
    Confined exports c before g' := by
  constructor
  case modules_size => rw [hsame.modules_eq, h.modules_size]
  case module_chunks => exact fun m => by rw [hsame.module_eq]; exact h.module_chunks m
  case module_table =>
    exact fun m name hname => by rw [hsame.module_eq]; exact h.module_table m name hname
  case chunks_size => rw [hsame.chunks_eq, h.chunks_size]
  case chunk_eq => exact fun d hd => by rw [hsame.chunk_eq]; exact h.chunk_eq d hd
  case field_eq => exact fun f hf => (hfield f hf).trans (h.field_eq f hf)
  case own_fields =>
    intro p hp name f home hmember
    rcases hown p hp name f home hmember with hnew | hold
    · exact hnew
    · exact h.own_fields p hp name f home hold

/-- Another program in the chunk. -/
theorem addProgram (hgrown : Grown file c before g) {name : String} {exported : Bool}
    (hname : exported = true → name ∈ exports) (location : Location) :
    Confined exports c before (g.addProgram (.declare name c exported location)).2 := by
  constructor
  case modules_size => rw [addProgram_size_modules, h.modules_size]
  case module_chunks =>
    intro m
    rw [addProgram_module]
    split <;> exact h.module_chunks m
  case module_table =>
    intro m other hother
    rw [addProgram_module]
    split
    · next hcond =>
      obtain ⟨hexported, howner, _⟩ := hcond
      -- the module is that of the chunk, so the name is not the one that is exported
      have hm : m = (before.chunk c).owner := by
        rw [← (hgrown.chunk_eq c).2]
        exact (ModuleId.eq_of_index howner).symm
      have hne : name ≠ other := by
        rintro rfl
        exact hother.elim (fun hne => hne hm) fun hnot => hnot (hname hexported)
      have hlookup := Table.get?_define (g.module m).table name other (.program ⟨g.programs.size⟩)
      rw [if_neg hne] at hlookup
      exact hlookup.trans (h.module_table m other hother)
    · exact h.module_table m other hother
  case chunks_size => rw [addProgram_size_chunks, h.chunks_size]
  case chunk_eq =>
    intro d hd
    rw [addProgram_chunk, if_neg fun hcond => hd (ChunkId.eq_of_index hcond.1).symm]
    exact h.chunk_eq d hd
  case field_eq =>
    intro f hf
    rw [addProgram_field]
    exact h.field_eq f hf
  case own_fields =>
    intro p hp other f home hmember
    rw [addProgram_program] at hmember
    split at hmember
    · simp [ProgramScope.declare, ProgramScope.member?] at hmember
    · exact h.own_fields p hp other f home hmember

/-- Another field. -/
theorem addField (hfields : before.fields.size ≤ g.fields.size) (owner : ProgramId)
    (field : Field) : Confined exports c before (g.addField owner field).2 := by
  refine h.of_outline (sameOutline_addField owner field) ?_ ?_
  · intro f hf
    rw [addField_field, if_neg (by omega)]
  · intro p hp name f home hmember
    rw [addField_program] at hmember
    split at hmember
    · rcases ProgramScope.member?_of_define hmember with heq | hold
      · left
        obtain ⟨rfl, -⟩ := Symbol.field.inj heq
        exact hfields
      · exact .inr hold
    · exact .inr hmember

/-- A parameter or result. -/
theorem extendSignature (owner : ProgramId) (list : Signature) (id : FieldId) :
    Confined exports c before (g.modifyProgram owner (Declaration.extendSignature list id)) := by
  refine h.of_outline (sameOutline_modifyProgram owner (heading_extendSignature list id))
    (fun _ _ => rfl) ?_
  intro p hp name f home hmember
  right
  rw [program_modifyProgram] at hmember
  split at hmember
  · cases list <;> exact hmember
  · exact hmember

/-- The type of a new field. -/
theorem setType {id : FieldId} (hnew : before.fields.size ≤ id.index) (type : Usage) :
    Confined exports c before
      (g.modifyField id fun field => { field with type? := some type }) := by
  refine h.of_outline (sameOutline_modifyField ..) ?_ fun _ _ _ _ _ hmember => .inr hmember
  intro f hf
  rw [field_modifyField, if_neg (by omega)]

end

/-- Opening a file and declaring what is in it disturbs nothing. -/
theorem undisturbed {root : Node} (hg : g.Consistent) {g' : Globals}
    (hgrown : Grown file (g.openFile root.name file).1 (g.openFile root.name file).2 g')
    (h : Confined (exportNames root) (g.openFile root.name file).1
      (g.openFile root.name file).2 g') :
    Undisturbed [⟨file, root⟩] g g' := by
  have hopen := Undisturbed.openFile hg file root
  have hid := g.openFile_id root.name file
  have hlt : ∀ m : ModuleId, m.index < g.modules.size →
      m.index < (g.openFile root.name file).2.modules.size :=
    fun m hm => hm.trans_le hopen.modules_le
  constructor
  case chunks_le =>
    rw [h.chunks_size]
    exact hopen.chunks_le
  case chunk_eq =>
    intro d hd
    have hne : d ≠ (g.openFile root.name file).1 := by
      rw [hid]
      rintro rfl
      exact absurd hd (lt_irrefl _)
    rw [h.chunk_eq d hne, hopen.chunk_eq d hd]
  case programs_le => exact hopen.programs_le.trans hgrown.programs_le
  case program_eq =>
    intro p hp
    rw [hgrown.program_eq p (hp.trans_le hopen.programs_le), hopen.program_eq p hp]
  case fields_le => exact hopen.fields_le.trans hgrown.fields_le
  case field_eq =>
    intro f hf
    rw [h.field_eq f (hf.trans_le hopen.fields_le), hopen.field_eq f hf]
  case modules_le =>
    rw [h.modules_size]
    exact hopen.modules_le
  case module_name =>
    intro m hm
    rw [hgrown.module_name, hopen.module_name m hm]
  case module_chunks =>
    intro m hm
    obtain ⟨added, hadded, hnew, hnames⟩ := hopen.module_chunks m hm
    refine ⟨added, by rw [h.module_chunks, hadded], by rw [h.chunks_size]; exact hnew, ?_⟩
    simp only [(hgrown.chunk_eq _).1]
    exact hnames
  case module_table =>
    intro m name hm hname
    rw [← hopen.module_table m name hm hname]
    apply h.module_table
    -- the module is another one, or it is that of the file and the name is not exported
    by_cases howner : m = ((g.openFile root.name file).2.chunk (g.openFile root.name file).1).owner
    · right
      rw [openFile_chunk] at howner
      have hmodule : root.name = (g.module m).name := by
        rw [howner] at hm ⊢
        exact (hg.addModule_name hm).symm
      exact fun hmem => hname _ (List.mem_singleton.mpr rfl) ⟨hmodule, .inr hmem⟩
    · exact .inl howner
  case module?_eq =>
    intro owner m hm
    rw [module?, hgrown.table_eq]
    exact hopen.module?_eq owner m hm

end Globals.Confined

/-! ### Declaring a file -/

namespace Declaration

variable {file : String} {policy : FractionPolicy} {exports : List String} {c : ChunkId}
  {before : Globals} {s : State}

/-- What was declared so far is confined to a chunk, and what is still to be declared finds only new
things to add to. -/
structure Confines (file : String) (exports : List String) (c : ChunkId) (before : Globals)
    (s : State) : Prop where
  grows : Standing.Grows file c before s.standing
  confined : Globals.Confined exports c before s.globals
  bound_new : ∀ (id : Nat) (f : FieldId), s.bindings.fields[id]? = some f →
    before.fields.size ≤ f.index

/-- A node is bound to a new field. -/
theorem bindField_new {b : Bindings} {n : Node} {new : FieldId} {count : Nat}
    (h : ∀ (id : Nat) (f : FieldId), b.fields[id]? = some f → count ≤ f.index)
    (hnew : count ≤ new.index) :
    ∀ (id : Nat) (f : FieldId), (b.bindField n new).fields[id]? = some f → count ≤ f.index := by
  intro id f hf
  change (b.fields.insert n.id new)[id]? = some f at hf
  rw [Std.TreeMap.getElem?_insert] at hf
  split at hf
  · obtain rfl := Option.some.inj hf
    exact hnew
  · exact h id f hf

/-- What is declared in a program is confined, if the program is exported under one of the names. -/
theorem Confines.move {n : Node} {t : State}
    (h : Confines file exports c before s) (hbefore : before.Consistent) (hn : n.tag ≠ .module)
    (hname : n.tag = .program → (n.child? .exportMark).isSome = true → n.name ∈ exports)
    (hstep : Move file policy n s t) : Confines file exports c before t := by
  have hgrows := keeps_move (keptWithin_grows hbefore) hstep (fun htag => absurd htag hn) h.grows
  have hfields := h.grows.grown.fields_le
  cases hstep with
  | module htag => exact absurd htag hn
  | @program htag chunk hchunk new _ hnew =>
    obtain rfl : chunk = c := Option.some.inj (hchunk.symm.trans h.grows.chunk_eq)
    subst hnew
    exact ⟨hgrows, h.confined.addProgram h.grows.grown (hname htag) n.nameLocation, h.bound_new⟩
  | leave => exact ⟨hgrows, h.confined, h.bound_new⟩
  | home _ => exact ⟨hgrows, h.confined, h.bound_new⟩
  | @field owner _ _ field _ _ =>
    exact ⟨hgrows, h.confined.addField hfields owner field, bindField_new h.bound_new hfields⟩
  | @parameter owner howner list _ _ _ id hid =>
    -- the parameter is one of the fields of the program, and these are new
    have hfound := (signatureField_cases hid).1
    have hfield : before.fields.size ≤ id.index := by
      unfold ProgramScope.field? at hfound
      split at hfound
      · next hmember =>
        obtain rfl := Option.some.inj hfound
        exact h.confined.own_fields owner (h.grows.declaring_new owner howner) _ _ _ hmember
      · cases hfound
    exact ⟨hgrows, h.confined.extendSignature owner list id, bindField_new h.bound_new hfield⟩

/-- Declaring a module, from the scope in which it was opened. -/
theorem confines_visit (m : ModuleShape) (hs : s.globals.Consistent)
    (hbound : s.bindings.fields = ∅) :
    Ensures ((definer file policy).visit m.node) s
      (fun _ t => Confines file (exportNames m.node) (s.globals.openFile m.node.name file).1
        (s.globals.openFile m.node.name file).2 t.left)
      (fun _ t => Confines file (exportNames m.node) (s.globals.openFile m.node.name file).1
        (s.globals.openFile m.node.name file).2 t.left) := by
  have hopened := Globals.Grown.openFile hs m.node.name file
  refine keeps_visit_module (fun shape hshape n hn hself s t hstep hs => ?_)
    ⟨⟨rfl, hopened, fun p hp => by cases hp⟩, .refl ?_, ?_⟩
  · exact hs.move hopened.consistent hn
      (fun htag => hself htag ▸ ModuleShape.name_mem_exportNames hshape) hstep
  · intro p hp
    rw [Globals.program, Array.getD_eq_getD_getElem?, Array.getElem?_eq_none hp]
    rfl
  · intro id f hf
    change s.bindings.fields[id]? = some f at hf
    rw [hbound] at hf
    cases hf

/-- Wherever the passes that declare stop, they have disturbed nothing. Of the tree only the names
in it matter. -/
theorem undisturbed_declaring {m : ModuleShape} {root : Node} (hname : m.node.name = root.name)
    (hexports : exportNames m.node = exportNames root) {run : Run} (hrun : run.globals.Consistent)
    (hbound : run.bindings.fields = ∅) :
    Ensures (runAll (Pass.core.take 3) m.node) run
      (fun _ t => t.chunk? = some (run.globals.openFile m.node.name run.file).1 ∧
        Globals.Undisturbed [⟨run.file, root⟩] run.globals t.globals)
      (fun _ t => Globals.Undisturbed [⟨run.file, root⟩] run.globals t.globals) := by
  rw [hname]
  have hbefore := (Globals.Grown.openFile hrun root.name run.file).consistent
  have hvisit := @confines_visit run.file run.options.policy (.ofRun run) m hrun hbound
  rw [hname, hexports] at hvisit
  refine (comesTo_declaring ?_ hvisit).mono ?_ ?_
  · -- only fields to which nodes of the file are bound get a type
    intro s n id type hid htype hs
    have hstep : Standing.Step run.file run.options.policy s.left.standing _ := .usage htype
    exact ⟨keptWithin_grows hbefore hstep rfl hs.grows,
      hs.confined.setType (hs.bound_new n.id id hid) type, hs.bound_new⟩
  · rintro _ _ ⟨s, hs, rfl⟩
    exact ⟨hs.grows.chunk_eq, hs.confined.undisturbed hrun hs.grows.grown⟩
  · rintro _ _ ⟨s, hs, rfl⟩
    exact hs.confined.undisturbed hrun hs.grows.grown

end Declaration

/-! ### Sessions -/

namespace Session

variable {parser : Parser} {source : List UInt8} {name : String} {s : Session}

/-- The trees that a parser makes of a text: one, if it is not refused. -/
def parsed (parser : Parser) (source : List UInt8) (name : String) (freeFormat : Bool) :
    List SourceTree :=
  match parser name source freeFormat with
  | .ok root => [⟨name, root⟩]
  | .error _ => []

/-- Sources among the declaration files of the system, each read at most once. -/
structure SystemSources (parser : Parser) (s : Session) (paths : List String)
    (system : List SourceTree) : Prop where
  files : (system.map (·.file)).Sublist paths
  trees : ∀ source ∈ system, ∃ content, parser source.file content s.options.freeFormat =
    .ok source.root

/-- Wherever the declaring passes stop, a grammatical file has disturbed nothing. -/
theorem undisturbed_passing (hs : s.Sound) {root : Node} (hgrammar : root.grammatical = true)
    (hmodule : root.tag = .module) :
    Globals.Undisturbed [⟨name, root⟩] s.globals
      (stateOf (passing (Pass.core.take 3) root s name none)).globals := by
  obtain ⟨m, hm, -⟩ := exists_numbered hs hgrammar hmodule name none
  have hname : m.node.name = root.name := by rw [← hm, Node.name_renumber]
  have hexports : exportNames m.node = exportNames root := by rw [← hm, exportNames_renumber]
  rw [passing, hm]
  have hdeclaring := @undisturbed_declaring m root hname hexports
    (s.beginRun name none (root.renumber 0).2) hs.consistent rfl
  exact holds_stateOf (P := fun t : Run => Globals.Undisturbed _ s.globals t.globals)
    (hdeclaring.mono (fun _ _ h => h.2) fun _ _ h => h)

/-- Some of the declaration files of the system were read, and disturbed nothing. -/
structure Loads (parser : Parser) (s : Session) (paths : List String) (t : Session) : Prop where
  keeps : s.Keeps t
  undisturbed : ∃ system, SystemSources parser s paths system ∧
    Globals.Undisturbed system s.globals t.globals

variable {t : Session}

theorem Loads.mono {paths paths' : List String} (h : Loads parser s paths t)
    (hpaths : paths.Sublist paths') : Loads parser s paths' t := by
  obtain ⟨system, hsystem, hundisturbed⟩ := h.undisturbed
  exact ⟨h.keeps, system, ⟨hsystem.files.trans hpaths, hsystem.trees⟩, hundisturbed⟩

section calls

variable (hs : s.Sound) (hparser : parser.Grammatical) (hrooted : parser.Rooted)

include hs hparser hrooted

/-- Wherever a run stops whose other passes leave the scope alone, it has disturbed nothing. -/
theorem undisturbed_run {passes : List Pass} {output? : Option String}
    (hpasses : ∀ (t : Session) (root : Node),
      (stateOf (passing passes root t name output?)).globals =
        (stateOf (passing (Pass.core.take 3) root t name none)).globals) :
    Ensures (run passes parser source name output?) s
      (fun _ t =>
        Globals.Undisturbed (parsed parser source name s.options.freeFormat) s.globals t.globals)
      (fun _ t => Globals.Undisturbed (parsed parser source name s.options.freeFormat) s.globals
        t.globals) := by
  unfold Ensures parsed
  cases hroot : parser name source s.options.freeFormat with
  | ok root =>
    have hlogged : (s.logged name source).Sound := ⟨hs.passes_eq, hs.consistent⟩
    have hpassing : Globals.Undisturbed [⟨name, root⟩] s.globals _ :=
      undisturbed_passing hlogged (hparser _ _ _ _ hroot) (hrooted _ _ _ _ hroot)
    rw [← hpasses] at hpassing
    rw [run_parsed hroot]
    cases hresult : passing passes root (s.logged name source) name output? with
    | ok _ run =>
      rw [hresult] at hpassing
      exact hpassing
    | error e run =>
      rw [hresult] at hpassing
      exact hpassing
  | error e =>
    rw [run_refused hroot]
    exact .refl _

theorem undisturbed_declareSource :
    Ensures (declareSource parser source name) s
      (fun _ t =>
        Globals.Undisturbed (parsed parser source name s.options.freeFormat) s.globals t.globals)
      (fun _ t => Globals.Undisturbed (parsed parser source name s.options.freeFormat) s.globals
        t.globals) := by
  have hrun :=
    @undisturbed_run parser source name s hs hparser hrooted (Pass.core.take 3) none fun _ _ => rfl
  unfold Ensures at hrun ⊢
  rw [declareSource_eq hs.passes_eq]
  cases hresult : run (Pass.core.take 3) parser source name none s <;> rw [hresult] at hrun <;>
    exact hrun

omit hs in
/-- Reading one more of the declaration files. -/
theorem Loads.declareFile {paths : List String} (h : Loads parser s paths t) (path : String) :
    Ensures (declareFile parser path) t (fun _ => Loads parser s (paths ++ [path]))
      (fun _ => Loads parser s (paths ++ [path])) := by
  obtain ⟨system, hsystem, hundisturbed⟩ := h.undisturbed
  unfold Session.declareFile readFile
  simp only [ensures_bind, ensures_get]
  split
  · next content _ =>
    rw [ensures_pure]
    -- a file that does not parse adds no source
    have hread : SystemSources parser s (paths ++ [path])
        (system ++ parsed parser content path t.options.freeFormat) := by
      unfold parsed
      cases hroot : parser path content t.options.freeFormat with
      | error e =>
        rw [List.append_nil]
        exact ⟨hsystem.files.trans (List.sublist_append_left _ _), hsystem.trees⟩
      | ok root =>
        refine ⟨?_, fun source hsource => ?_⟩
        · rw [List.map_append]
          exact hsystem.files.append (List.Sublist.refl _)
        · rcases List.mem_append.mp hsource with hsource | hsource
          · exact hsystem.trees source hsource
          · obtain rfl := List.mem_singleton.mp hsource
            exact ⟨content, by rw [← h.keeps.options_eq]; exact hroot⟩
    refine ((keeps_declareSource parser content path h.keeps.sound).and
      (undisturbed_declareSource h.keeps.sound hparser hrooted)).mono ?_ ?_
    · intro _ u hu
      exact ⟨h.keeps.trans hu.1, _, hread, hundisturbed.trans hu.2⟩
    · intro _ u hu
      exact ⟨h.keeps.trans hu.1, _, hread, hundisturbed.trans hu.2⟩
  · exact h.mono (List.sublist_append_left _ _)

/-- Reading the declaration files of the system disturbs nothing, wherever it stops. -/
theorem loads_loadSystem :
    Ensures (loadSystem parser) s (fun _ => Loads parser s s.systemFiles)
      (fun _ => Loads parser s s.systemFiles) := by
  have hstart : ∀ paths, Loads parser s paths s := fun paths =>
    ⟨⟨hs, rfl⟩, [], ⟨List.nil_sublist _, by simp⟩, .refl _⟩
  refine ensures_loadSystem_files (hstart []) (fun _ => hstart _)
    (fun t ht => ⟨ht.keeps.loaded, ht.undisturbed⟩) ?_
  intro done path rest t hsplit ht
  apply (ht.declareFile hparser hrooted path).mono (fun _ _ hu => hu)
  intro _ u hu
  rw [hsplit, List.append_cons]
  exact hu.mono (List.sublist_append_left _ _)

/-- Compiling disturbs nothing, apart from what its source and the declaration files of the system
add. -/
theorem undisturbed_compileSource (output? : Option String) :
    ∃ system, SystemSources parser s s.systemFiles system ∧
      Globals.Undisturbed (system ++ parsed parser source name s.options.freeFormat) s.globals
        (after (compileSource parser source name output?) s).globals := by
  apply holds_after (K := fun t => ∃ system, SystemSources parser s s.systemFiles system ∧
    Globals.Undisturbed (system ++ parsed parser source name s.options.freeFormat) s.globals
    t.globals)
  unfold compileSource
  rw [ensures_bind, ensures_ordered hs.passes_eq, ensures_bind]
  apply (loads_loadSystem hs hparser hrooted).mono
  · intro _ t ht
    obtain ⟨system, hsystem, hundisturbed⟩ := ht.undisturbed
    have hrun := @undisturbed_run parser source name t ht.keeps.sound hparser hrooted Pass.core
      output? fun _ root => globals_passing_core root output?
    rw [ht.keeps.options_eq] at hrun
    rw [ensures_bind]
    apply hrun.mono
    · intro product? u hu
      cases product? with
      | some product => exact ⟨system, hsystem, hundisturbed.trans hu⟩
      | none => exact ⟨system, hsystem, hundisturbed.trans hu⟩
    · exact fun _ u hu => ⟨system, hsystem, hundisturbed.trans hu⟩
  · intro _ t ht
    obtain ⟨system, hsystem, hundisturbed⟩ := ht.undisturbed
    exact ⟨system, hsystem, hundisturbed.mono (List.sublist_append_left _ _)⟩

end calls

/-- Without declaration files that are to be read the scope stays as it is. -/
theorem globals_loadSystem (parser : Parser) (h : s.systemFiles = []) :
    Ensures (loadSystem parser) s (fun _ t => t.globals = s.globals ∧ t.options = s.options)
      (fun _ t => t.globals = s.globals) := by
  refine ensures_loadSystem ⟨rfl, rfl⟩ (fun _ ht => ht) (fun _ _ ht => ht.1) ?_
  intro path hpath
  rw [h] at hpath
  cases hpath

/-- A text that is refused changes nothing in the scope when it is declared, and also when it is
compiled, unless declaration files of the system are read first. -/
theorem globals_of_refused (hs : s.Sound) {e : ParseError}
    (hroot : parser name source s.options.freeFormat = .error e) (output? : Option String) :
    (after (declareSource parser source name) s).globals = s.globals ∧
      (s.systemFiles = [] → (after (compileSource parser source name output?) s).globals =
        s.globals) := by
  constructor
  · rw [after, declareSource_eq hs.passes_eq, run_refused hroot]
    rfl
  · intro hfiles
    apply holds_after (K := fun t => t.globals = s.globals)
    unfold compileSource
    rw [ensures_bind, ensures_ordered hs.passes_eq]
    refine (globals_loadSystem parser hfiles).bind ?_
    intro _ t ht
    rw [← ht.2] at hroot
    rw [ensures_bind, Ensures, run_refused hroot]
    exact ht.1

/-- Passes that cannot be ordered keep a source text from being read. -/
theorem refused_of_ordered {e : Stop} (h : ordered s = .error e t) (parser : Parser)
    (source : List UInt8) (name : String) (output? : Option String) :
    t = s ∧ compileSource parser source name output? s = .error e s ∧
      declareSource parser source name s = .error e s := by
  have ht : t = s := by
    simp only [ordered, bind_apply, get_apply] at h
    cases hschedule : schedule (s.passes.map (·.wishes)) with
    | ok order =>
      rw [hschedule] at h
      cases h
    | error failure =>
      rw [hschedule] at h
      exact (EStateM.Result.error.inj h).2.symm
  subst ht
  refine ⟨rfl, ?_, ?_⟩
  · simp only [compileSource, bind_apply, h]
  · simp only [declareSource, bind_apply, h]

/-- Whatever a call on grammatical modules comes to, all that was declared before it stays as it
was, but for what the call adds to modules: one chunk for each of its sources, and entries under the
names of these and of what they export. The sources of a call are the text it is given and, when it
compiles, those declaration files of the system that it reads first. If the text is refused or the
passes cannot be ordered, the scope stays the same, unless such files were read. -/
theorem compiling_disturbs_nothing {s : Session} (hs : s.Reachable) {parser : Parser}
    (hparser : parser.Grammatical)
    (hrooted : parser.Rooted) (source : List UInt8) (name : String) (output? : Option String) :
    (∃ system, SystemSources parser s s.systemFiles system ∧
      Globals.Undisturbed (system ++ parsed parser source name s.options.freeFormat) s.globals
        (after (compileSource parser source name output?) s).globals) ∧
    Globals.Undisturbed (parsed parser source name s.options.freeFormat) s.globals
      (after (declareSource parser source name) s).globals ∧
    (∀ e, parser name source s.options.freeFormat = .error e →
      (after (declareSource parser source name) s).globals = s.globals ∧
      (s.systemFiles = [] → (after (compileSource parser source name output?) s).globals =
        s.globals)) ∧
    ∀ passes e t, ordered { s with passes } = .error e t →
      ∃ u, compileSource parser source name output? { s with passes } = .error e u ∧
        declareSource parser source name { s with passes } = .error e u ∧
          u.globals = s.globals := by
  refine ⟨undisturbed_compileSource hs.sound hparser hrooted output?, ?_, ?_, ?_⟩
  · exact holds_after (K := fun t => Globals.Undisturbed _ s.globals t.globals)
      (undisturbed_declareSource hs.sound hparser hrooted)
  · intro e he
    exact globals_of_refused hs.sound he output?
  · intro passes e t hordered
    obtain ⟨-, hcompile, hdeclare⟩ := refused_of_ordered hordered parser source name output?
    exact ⟨_, hcompile, hdeclare, rfl⟩

/-- The sample module was compiled. Under the name of another file it is refused, as its programs
are exported already, but not before a chunk was added; the chunk that was there is still the
same. -/
theorem sampleModule_undisturbed :
    let parser : Parser := fun _ _ _ => .ok Node.sampleModule
    let s := after (compileSource parser [] "SAMPLE.cbl" none) (start {} .empty)
    let t := after (compileSource parser [] "OTHER.cbl" none) s
    s.globals.chunks.size = 1 ∧ t.globals.chunks.size = 2 ∧
      t.globals.chunk ⟨0⟩ = s.globals.chunk ⟨0⟩ := by
  intro parser s t
  have hs : s.Reachable := .compiled (.start {} .empty) parser [] "SAMPLE.cbl" none
  have hparser : parser.Grammatical := Parser.holds_of_constant (by decide +kernel)
  have hrooted : parser.Rooted := Parser.holds_of_constant (by decide)
  have hsize : s.globals.chunks.size = 1 := by decide +kernel
  obtain ⟨⟨system, -, hundisturbed⟩, -⟩ :=
    compiling_disturbs_nothing hs hparser hrooted [] "OTHER.cbl" none
  exact ⟨hsize, by decide +kernel, hundisturbed.chunk_eq ⟨0⟩ (by rw [hsize]; decide)⟩

/-! ### Scopes that are disturbed -/

open Build

/-- A parser for which `STOCK.cbl` is a module whose program has a field of a wrong level behind a
good one, and any other file a lone field. -/
def stockParser : Parser := fun name _ _ =>
  .ok (if name = "STOCK.cbl" then
    Build.module "STOCK" [
      program "STOCKS" [
        node .dataDivision [node .workingStorageSection [field 1 "COUNT" [], field 99 "PRICE" []]],
        procedure [] [] []]]
  else field 1 "TOTAL" [])

/-- A parser for which a declaration file is the sample module, and any other text is refused. -/
def refusingParser : Parser := fun name _ _ =>
  if name = "types/a.d.cbl" then .ok Node.sampleModule
    else .error ⟨"unexpected end of file", Location.none⟩

/-- Roots matter: declaring `STOCK.cbl` stops in the middle of its program, and a lone field that is
declared next becomes a field of that program. And if the first text that is compiled is refused,
what the declaration file of the system declares is in the scope all the same. -/
theorem earlier_symbols_disturbed :
    (let s := after (declareSource stockParser [] "STOCK.cbl") (start {} .empty)
    s.Reachable ∧ stockParser.Grammatical ∧ s.globals.programs.size = 1 ∧
      (s.globals.program ⟨0⟩).fields.size = 1 ∧
      ((after (declareSource stockParser [] "TOTAL.cbl") s).globals.program ⟨0⟩).fields.size = 2) ∧
    declaringSession.Reachable ∧ refusingParser.Grammatical ∧ refusingParser.Rooted ∧
      ∃ e t, compileSource refusingParser [] "MAIN.cbl" none declaringSession =
        .error (.fault (.parse e) "MAIN.cbl" Location.none none) t ∧
        t.globals ≠ declaringSession.globals := by
  have hstock : stockParser.Grammatical := by
    intro name _ _ root hroot
    obtain rfl := Except.ok.inj hroot
    split <;> decide +kernel
  have hcases {P : Node → Prop} (h : P Node.sampleModule) :
      ∀ name source freeFormat root, refusingParser name source freeFormat = .ok root → P root := by
    intro name _ _ root hroot
    unfold refusingParser at hroot
    split at hroot
    · exact Except.ok.inj hroot ▸ h
    · cases hroot
  have hs : declaringSession.Reachable := .start _ _
  refine ⟨⟨.declared (.start _ _) _ _ _,
    hstock, by decide +kernel, by decide +kernel, by decide +kernel⟩, hs,
    hcases (by decide +kernel), hcases (by decide), ?_⟩
  have hstop : stopOf? (compileSource refusingParser [] "MAIN.cbl" none) declaringSession = some
      (.fault (.parse "unexpected end of file") "MAIN.cbl" Location.none none) := by decide +kernel
  have hsize : (after (compileSource refusingParser [] "MAIN.cbl" none)
      declaringSession).globals.chunks.size = 1 := by
    decide +kernel
  obtain ⟨t, ht⟩ := exists_of_stopOf? hstop
  refine ⟨_, t, ht, fun heq => ?_⟩
  rw [after, ht] at hsize
  rw [show t.globals = declaringSession.globals from heq] at hsize
  cases hsize

end Session

end CobolCompiler
