import CobolCompiler.Proofs.Scope

/-!
# How scopes nest

Modules list their chunks and chunks list their programs, and each chunk and program says where it
belongs. The two accounts agree, and the tables hold nothing that the lists do not
(`Globals.Nested`). Adding a module, a chunk or a program keeps this, as long as no chunk gets two
programs of one name.
-/

namespace CobolCompiler.Globals

/-! ### Numbers in use -/

/-- The chunks, in the order of their declaration. -/
def chunkIds (g : Globals) : List ChunkId :=
  (List.range g.chunks.size).map ChunkId.mk

/-- The programs, in the order of their declaration. -/
def programIds (g : Globals) : List ProgramId :=
  (List.range g.programs.size).map ProgramId.mk

section ids

variable {g g' : Globals}

@[simp] theorem mem_chunkIds {c : ChunkId} : c ∈ g.chunkIds ↔ c.index < g.chunks.size := by
  simp only [chunkIds, List.mem_map, List.mem_range]
  constructor
  · intro ⟨i, hi, hc⟩
    subst hc
    exact hi
  · intro hc
    exact ⟨c.index, hc, rfl⟩

@[simp] theorem mem_programIds {p : ProgramId} : p ∈ g.programIds ↔ p.index < g.programs.size := by
  simp only [programIds, List.mem_map, List.mem_range]
  constructor
  · intro ⟨i, hi, hp⟩
    subst hp
    exact hi
  · intro hp
    exact ⟨p.index, hp, rfl⟩

theorem chunkIds_of_size (h : g'.chunks.size = g.chunks.size) : g'.chunkIds = g.chunkIds := by
  rw [chunkIds, chunkIds, h]

theorem chunkIds_succ (h : g'.chunks.size = g.chunks.size + 1) :
    g'.chunkIds = g.chunkIds ++ [⟨g.chunks.size⟩] := by
  simp [chunkIds, h, List.range_succ]

theorem programIds_of_size (h : g'.programs.size = g.programs.size) :
    g'.programIds = g.programIds := by
  rw [programIds, programIds, h]

theorem programIds_succ (h : g'.programs.size = g.programs.size + 1) :
    g'.programIds = g.programIds ++ [⟨g.programs.size⟩] := by
  simp [programIds, h, List.range_succ]

end ids

/-! ### Nested scopes -/

/-- The lists and tables of modules and chunks agree with what chunks and programs say of
themselves. -/
structure Nested (g : Globals) : Prop where
  global_entry : ∀ name symbol, g.table.get? name = some symbol → (∃ u, symbol = .usage u) ∨
    ∃ m, symbol = .module m
  module_found : ∀ m, m.index < g.modules.size → g.table.get? (g.module m).name = some (.module m)
  module_chunks : ∀ m, (g.module m).chunks.toList = g.chunkIds.filter fun c => (g.chunk c).owner = m
  module_entry : ∀ m name symbol, (g.module m).table.get? name = some symbol →
    (∃ c, symbol = .chunk c ∧ c.index < g.chunks.size) ∨ ∃ p, symbol = .program p ∧
    (g.program p).exported = true
  chunk_programs : ∀ c, (g.chunk c).programs.toList = g.programIds.filter fun p =>
    (g.program p).owner = c
  chunk_entry : ∀ c name symbol, (g.chunk c).table.get? name = some symbol ↔
    ∃ p ∈ (g.chunk c).programs.toList, symbol = .program p ∧ (g.program p).name = name

namespace Nested

variable {g : Globals}

theorem initial : Globals.initial.Nested where
  global_entry := by
    intro name symbol h
    simp only [Globals.initial, Usage.all, List.foldl, Table.get?_define, Table.get?_empty] at h
    split_ifs at h <;> cases h <;> exact .inl ⟨_, rfl⟩
  module_found := by
    intro m h
    exact absurd h (Nat.not_lt_zero _)
  module_chunks := fun _ => rfl
  module_entry := by
    intro m name symbol h
    change Table.empty.get? name = _ at h
    simp at h
  chunk_programs := fun _ => rfl
  chunk_entry := by
    intro c name symbol
    change Table.empty.get? name = _ ↔ ∃ p ∈ ([] : List ProgramId), _
    simp

theorem addModule (h : g.Nested) (name : String) : (g.addModule name).2.Nested := by
  unfold Globals.addModule
  split
  · exact h
  next hnone =>
  have hnew : ∀ m, g.table.get? name ≠ some (.module m) := by
    intro m hm
    rw [module?_eq_some_iff.2 hm] at hnone
    cases hnone
  -- The new module has the place behind the others, and nothing in it.
  have hmodule : ∀ m : ModuleId, (g.modules.push ⟨name, #[], Table.empty⟩).getD m.index default =
      if m.index = g.modules.size then ⟨name, #[], Table.empty⟩ else g.module m :=
    fun m => getD_push _ _ _ _
  have hlast : ∀ m : ModuleId, ¬ m.index < g.modules.size → g.module m = default := by
    intro m hm
    simp [module, hm]
  constructor
  case global_entry =>
    intro other symbol hget
    rw [Table.get?_define] at hget
    split at hget
    · cases hget
      exact .inr ⟨_, rfl⟩
    · exact h.global_entry other symbol hget
  case module_found =>
    intro m hm
    rw [Array.size_push] at hm
    show (g.table.define name _).get?
      ((g.modules.push ⟨name, #[], Table.empty⟩).getD m.index default).name = _
    rw [hmodule, Table.get?_define]
    by_cases heq : m.index = g.modules.size
    · rw [if_pos heq, if_pos rfl, ← heq]
    · -- An older module is still found: its name is not the new one, which was not found.
      have hfound := h.module_found m (by omega)
      have hother : name ≠ (g.module m).name := fun hname => hnew m (hname ▸ hfound)
      rw [if_neg heq, if_neg hother]
      exact hfound
  case module_chunks =>
    intro m
    have hchunks := h.module_chunks m
    show ((g.modules.push ⟨name, #[], Table.empty⟩).getD m.index default).chunks.toList = _
    rw [hmodule]
    by_cases heq : m.index = g.modules.size
    · rw [hlast m (by omega)] at hchunks
      rw [if_pos heq]
      exact hchunks
    · rw [if_neg heq]
      exact hchunks
  case module_entry =>
    intro m other symbol hget
    have hget' : ((g.modules.push ⟨name, #[], Table.empty⟩).getD m.index default).table.get? other =
        some symbol := hget
    rw [hmodule] at hget'
    split at hget'
    · simp at hget'
    · exact h.module_entry m other symbol hget'
  case chunk_programs => exact h.chunk_programs
  case chunk_entry => exact h.chunk_entry

theorem addChunk (h : g.Nested) {owner : ModuleId} (howner : owner.index < g.modules.size)
    (name : String) :
    (g.addChunk owner name).2.Nested := by
  have hold : ∀ c : ChunkId, c.index < g.chunks.size →
      (g.addChunk owner name).2.chunk c = g.chunk c := by
    intro c hc
    rw [addChunk_chunk, if_neg (by omega)]
  -- A chunk that does not exist yet has no programs, so the new one can be told from it by its
  -- owner only.
  have hempty : ∀ c : ChunkId, ¬ c.index < g.chunks.size → g.chunk c = default := by
    intro c hc
    simp [chunk, hc]
  have hname : ∀ m, ((g.addChunk owner name).2.module m).name = (g.module m).name := by
    intro m
    rw [addChunk_module]
    split <;> rfl
  constructor
  case global_entry => exact h.global_entry
  case module_found =>
    intro m hm
    rw [addChunk_size_modules] at hm
    rw [hname]
    exact h.module_found m hm
  case module_chunks =>
    intro m
    have hfilter : (g.chunkIds.filter fun c => ((g.addChunk owner name).2.chunk c).owner = m) =
        g.chunkIds.filter fun c => (g.chunk c).owner = m := by
      apply List.filter_congr
      intro c hc
      rw [hold c (mem_chunkIds.1 hc)]
    have hlast : ((g.addChunk owner name).2.chunk ⟨g.chunks.size⟩).owner = owner := by
      rw [addChunk_chunk, if_pos rfl]
    rw [chunkIds_succ (addChunk_size_chunks g name owner), List.filter_append, hfilter,
      ← h.module_chunks, addChunk_module]
    by_cases heq : owner = m
    · subst heq
      rw [if_pos ⟨rfl, howner⟩]
      simp [hlast]
    · have hne : ¬ (owner.index = m.index ∧ m.index < g.modules.size) :=
        fun hcond => heq (ModuleId.eq_of_index hcond.1)
      rw [if_neg hne]
      simp [hlast, heq]
  case module_entry =>
    intro m other symbol hget
    have hold : (g.module m).table.get? other = some symbol →
        (∃ c, symbol = .chunk c ∧ c.index < g.chunks.size + 1) ∨
        ∃ p, symbol = .program p ∧ (g.program p).exported = true := by
      intro hget
      rcases h.module_entry m other symbol hget with ⟨c, hc, hlt⟩ | hprogram
      · exact .inl ⟨c, hc, Nat.lt_succ_of_lt hlt⟩
      · exact .inr hprogram
    rw [addChunk_size_chunks]
    rw [addChunk_module] at hget
    split at hget
    · rw [Table.get?_define] at hget
      split at hget
      · cases hget
        exact .inl ⟨_, rfl, Nat.lt_succ_self _⟩
      · exact hold hget
    · exact hold hget
  case chunk_programs =>
    intro c
    have hprograms := h.chunk_programs c
    rw [addChunk_chunk]
    by_cases heq : c.index = g.chunks.size
    · rw [hempty c (by omega)] at hprograms
      rw [if_pos heq]
      exact hprograms
    · rw [if_neg heq]
      exact hprograms
  case chunk_entry =>
    intro c other symbol
    have hentry := h.chunk_entry c other symbol
    rw [addChunk_chunk]
    by_cases heq : c.index = g.chunks.size
    · rw [hempty c (by omega)] at hentry
      rw [if_pos heq]
      exact hentry
    · rw [if_neg heq]
      exact hentry

section programs

variable {p : ProgramScope}

theorem addProgram_program_last : (g.addProgram p).2.program ⟨g.programs.size⟩ = p := by
  rw [addProgram_program, if_pos rfl]

theorem addProgram_chunk_owner (c : ChunkId) :
    ((g.addProgram p).2.chunk c).owner = (g.chunk c).owner := by
  rw [addProgram_chunk]
  split <;> rfl

theorem addProgram_module_name (m : ModuleId) :
    ((g.addProgram p).2.module m).name = (g.module m).name := by
  rw [addProgram_module]
  split <;> rfl

theorem addProgram_module_chunks (m : ModuleId) :
    ((g.addProgram p).2.module m).chunks = (g.module m).chunks := by
  rw [addProgram_module]
  split <;> rfl

variable (h : g.Nested)

include h

theorem program_lt {c : ChunkId} {q : ProgramId} (hq : q ∈ (g.chunk c).programs.toList) :
    q.index < g.programs.size := by
  rw [h.chunk_programs] at hq
  exact mem_programIds.1 (List.mem_filter.1 hq).1

theorem addProgram_module_entry (hg : g.Consistent) {m : ModuleId} {name : String} {symbol : Symbol}
    (hget : ((g.addProgram p).2.module m).table.get? name = some symbol) :
    (∃ c, symbol = .chunk c ∧ c.index < g.chunks.size) ∨
      ∃ q, symbol = .program q ∧ ((g.addProgram p).2.program q).exported = true := by
  have hold : (g.module m).table.get? name = some symbol →
      (∃ c, symbol = .chunk c ∧ c.index < g.chunks.size) ∨
      ∃ q, symbol = .program q ∧ ((g.addProgram p).2.program q).exported = true := by
    intro hget
    rcases h.module_entry m name symbol hget with hchunk | ⟨q, rfl, hexported⟩
    · exact .inl hchunk
    · refine .inr ⟨q, rfl, ?_⟩
      rw [addProgram_program_of_lt (hg.export_name m name q hget).1]
      exact hexported
  rw [addProgram_module] at hget
  split at hget
  · next hcond =>
    rw [Table.get?_define] at hget
    split at hget
    · -- the name of the new program now stands for it, also where it stood for another one
      obtain rfl := Option.some.inj hget
      refine .inr ⟨_, rfl, ?_⟩
      rw [addProgram_program_last]
      exact hcond.1
    · exact hold hget
  · exact hold hget

theorem addProgram_chunk_programs (howner : p.owner.index < g.chunks.size) (c : ChunkId) :
    ((g.addProgram p).2.chunk c).programs.toList =
      (g.addProgram p).2.programIds.filter fun q => ((g.addProgram p).2.program q).owner = c := by
  -- The programs that were there before belong where they did.
  have hfilter : (g.programIds.filter fun q => ((g.addProgram p).2.program q).owner = c) =
      g.programIds.filter fun q => (g.program q).owner = c := by
    apply List.filter_congr
    intro q hq
    rw [addProgram_program_of_lt (mem_programIds.1 hq)]
  rw [programIds_succ (addProgram_size_programs g p), List.filter_append, hfilter,
    ← h.chunk_programs, addProgram_chunk]
  by_cases heq : p.owner = c
  · subst heq
    rw [if_pos ⟨rfl, howner⟩]
    simp [addProgram_program_last]
  · have hne : ¬ (p.owner.index = c.index ∧ c.index < g.chunks.size) :=
      fun hcond => heq (ChunkId.eq_of_index hcond.1)
    rw [if_neg hne]
    simp [addProgram_program_last, heq]

theorem addProgram_chunk_entry (hfree : g.chunkProgram? p.owner p.name = none) (c : ChunkId)
    (name : String) (symbol : Symbol) :
    ((g.addProgram p).2.chunk c).table.get? name = some symbol ↔
      ∃ q ∈ ((g.addProgram p).2.chunk c).programs.toList,
        symbol = .program q ∧ ((g.addProgram p).2.program q).name = name := by
  have hkeep : (g.chunk c).table.get? name = some symbol ↔ ∃ q ∈ (g.chunk c).programs.toList,
      symbol = .program q ∧ ((g.addProgram p).2.program q).name = name := by
    rw [h.chunk_entry]
    apply exists_congr
    intro q
    apply and_congr_right
    intro hq
    rw [addProgram_program_of_lt (h.program_lt hq)]
  rw [addProgram_chunk]
  split
  · next hcond =>
    obtain rfl : p.owner = c := ChunkId.eq_of_index hcond.1
    -- The table of a chunk holds nothing but programs, and this name none.
    have hnone : (g.chunk p.owner).table.get? p.name = none := by
      cases hget : (g.chunk p.owner).table.get? p.name with
      | none => rfl
      | some old =>
        obtain ⟨q, _, rfl, _⟩ := (h.chunk_entry p.owner p.name old).1 hget
        rw [chunkProgram?_eq_some_iff.2 hget] at hfree
        cases hfree
    rw [Table.get?_define_of_free hnone, hkeep, Array.toList_push]
    simp only [List.mem_append, List.mem_singleton, or_and_right, exists_or, exists_eq_left,
      addProgram_program_last]
  · exact hkeep

/-- A new program, under a name that its chunk does not know yet. -/
theorem addProgram (hg : g.Consistent) (howner : p.owner.index < g.chunks.size)
    (hfree : g.chunkProgram? p.owner p.name = none) : (g.addProgram p).2.Nested := by
  constructor
  case global_entry =>
    rw [addProgram_table]
    exact h.global_entry
  case module_found =>
    intro m hm
    rw [addProgram_size_modules] at hm
    rw [addProgram_module_name, addProgram_table]
    exact h.module_found m hm
  case module_chunks =>
    intro m
    rw [addProgram_module_chunks, h.module_chunks, chunkIds_of_size (addProgram_size_chunks g p)]
    simp only [addProgram_chunk_owner]
  case module_entry =>
    rw [addProgram_size_chunks]
    exact fun _ _ _ => h.addProgram_module_entry hg
  case chunk_programs => exact h.addProgram_chunk_programs howner
  case chunk_entry => exact h.addProgram_chunk_entry hfree

end programs

/-- Changes inside of programs. -/
theorem of_outline (h : g.Nested) {g' : Globals} (hsame : g.SameOutline g') : g'.Nested := by
  constructor
  case global_entry =>
    rw [hsame.table_eq]
    exact h.global_entry
  case module_found =>
    rw [hsame.table_eq, hsame.modules_eq]
    simp only [hsame.module_eq]
    exact h.module_found
  case module_chunks =>
    intro m
    rw [hsame.module_eq, h.module_chunks, chunkIds_of_size (by rw [hsame.chunks_eq])]
    simp only [hsame.chunk_eq]
  case module_entry =>
    rw [hsame.chunks_eq]
    simp only [hsame.module_eq, hsame.exported_eq]
    exact h.module_entry
  case chunk_programs =>
    intro c
    rw [hsame.chunk_eq, h.chunk_programs, programIds_of_size hsame.size_eq]
    simp only [hsame.owner_eq]
  case chunk_entry =>
    intro c name symbol
    simp only [hsame.chunk_eq, hsame.name_eq]
    exact h.chunk_entry c name symbol

end Nested

end CobolCompiler.Globals
