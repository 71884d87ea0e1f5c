import CobolCompiler.Scope.Globals
import Mathlib.Tactic.SplitIfs

/-!
# The global scope

What each way of declaring something changes in the global scope, lookup by lookup, and an invariant
that all of them keep: `Globals.Consistent`. A name in a table stands for something that was
declared under this name and in this place, and numbers in the scope are those of things that exist,
so that nothing declared later can take their place.
-/

namespace CobolCompiler

theorem getD_push {α : Type} (items : Array α) (item d : α) (i : Nat) :
    (items.push item).getD i d = if i = items.size then item else items.getD i d := by
  simp only [Array.getD_eq_getD_getElem?, Array.getElem?_push]
  split <;> rfl

theorem getD_modify {α : Type} (items : Array α) (f : α → α) (d : α) (i j : Nat) :
    (items.modify i f).getD j d = if i = j ∧ j < items.size then f (items.getD j d)
      else items.getD j d := by
  simp only [Array.getD_eq_getD_getElem?, Array.getElem?_modify]
  by_cases hj : j < items.size
  · by_cases hij : i = j
    · simp [hij, hj]
    · simp [hij]
  · simp [hj]

theorem ModuleId.eq_of_index {a b : ModuleId} (h : a.index = b.index) : a = b := by
  cases a
  exact congrArg ModuleId.mk h

theorem ChunkId.eq_of_index {a b : ChunkId} (h : a.index = b.index) : a = b := by
  cases a
  exact congrArg ChunkId.mk h

theorem ProgramId.eq_of_index {a b : ProgramId} (h : a.index = b.index) : a = b := by
  cases a
  exact congrArg ProgramId.mk h

theorem FieldId.eq_of_index {a b : FieldId} (h : a.index = b.index) : a = b := by
  cases a
  exact congrArg FieldId.mk h

/-- A name that was free adds to what the table holds. -/
theorem Table.get?_define_of_free {t : Table} {name : String} (hfree : t.get? name = none)
    (new symbol : Symbol) (other : String) :
    (t.define name new).get? other = some symbol ↔ t.get? other = some symbol ∨ symbol = new ∧
      name = other := by
  rw [Table.get?_define]
  by_cases hname : name = other
  · subst hname
    simp [hfree, eq_comm]
  · simp [hname]

namespace Globals

variable (g : Globals)

/-! ### Names of one kind -/

section kinds

variable {g : Globals} {name : String}

theorem module?_eq_some_iff {m : ModuleId} :
    g.module? name = some m ↔ g.table.get? name = some (.module m) := by
  unfold module?
  split
  · next heq => simp [heq]
  · next hne => exact ⟨nofun, fun h => (hne _ h).elim⟩

theorem moduleProgram?_eq_some_iff {m : ModuleId} {p : ProgramId} :
    g.moduleProgram? m name = some p ↔ (g.module m).table.get? name = some (.program p) := by
  unfold moduleProgram?
  split
  · next heq => simp [heq]
  · next hne => exact ⟨nofun, fun h => (hne _ h).elim⟩

theorem chunkProgram?_eq_some_iff {c : ChunkId} {p : ProgramId} :
    g.chunkProgram? c name = some p ↔ (g.chunk c).table.get? name = some (.program p) := by
  unfold chunkProgram?
  split
  · next heq => simp [heq]
  · next hne => exact ⟨nofun, fun h => (hne _ h).elim⟩

end kinds

/-! ### What a change changes -/

section lookups

variable (name : String) (owner : ModuleId) (p : ProgramScope) (field : Field)

theorem program_modifyProgram (id other : ProgramId) (f : ProgramScope → ProgramScope) :
    (g.modifyProgram id f).program other =
      if id.index = other.index ∧ other.index < g.programs.size then f (g.program other)
        else g.program other :=
  getD_modify _ _ _ _ _

theorem field_modifyField (id other : FieldId) (f : Field → Field) :
    (g.modifyField id f).field other =
      if id.index = other.index ∧ other.index < g.fields.size then f (g.field other)
        else g.field other :=
  getD_modify _ _ _ _ _

@[simp] theorem addModule_program (id : ProgramId) :
    (g.addModule name).2.program id = g.program id := by
  unfold addModule
  split <;> rfl

@[simp] theorem addModule_field (id : FieldId) : (g.addModule name).2.field id = g.field id := by
  unfold addModule
  split <;> rfl

@[simp] theorem addModule_chunk (id : ChunkId) : (g.addModule name).2.chunk id = g.chunk id := by
  unfold addModule
  split <;> rfl

@[simp] theorem addModule_programs : (g.addModule name).2.programs = g.programs := by
  unfold addModule
  split <;> rfl

@[simp] theorem addModule_fields : (g.addModule name).2.fields = g.fields := by
  unfold addModule
  split <;> rfl

@[simp] theorem addModule_chunks : (g.addModule name).2.chunks = g.chunks := by
  unfold addModule
  split <;> rfl

@[simp] theorem addChunk_id : (g.addChunk owner name).1 = ⟨g.chunks.size⟩ := rfl

@[simp] theorem addChunk_program (id : ProgramId) :
    (g.addChunk owner name).2.program id = g.program id := rfl

@[simp] theorem addChunk_field (id : FieldId) :
    (g.addChunk owner name).2.field id = g.field id := rfl

@[simp] theorem addChunk_programs : (g.addChunk owner name).2.programs = g.programs := rfl

@[simp] theorem addChunk_fields : (g.addChunk owner name).2.fields = g.fields := rfl

@[simp] theorem addChunk_table : (g.addChunk owner name).2.table = g.table := rfl

theorem addChunk_chunk (id : ChunkId) :
    (g.addChunk owner name).2.chunk id =
      if id.index = g.chunks.size then ⟨name, owner, #[], Table.empty⟩ else g.chunk id :=
  getD_push _ _ _ _

theorem addChunk_module (id : ModuleId) :
    (g.addChunk owner name).2.module id =
      if owner.index = id.index ∧ id.index < g.modules.size then
        { g.module id with
          chunks := (g.module id).chunks.push ⟨g.chunks.size⟩
          table := (g.module id).table.define name (.chunk ⟨g.chunks.size⟩) }
      else g.module id :=
  getD_modify _ _ _ _ _

@[simp] theorem addChunk_size_chunks : (g.addChunk owner name).2.chunks.size = g.chunks.size + 1 :=
  Array.size_push _

@[simp] theorem addChunk_size_modules : (g.addChunk owner name).2.modules.size = g.modules.size :=
  Array.size_modify

@[simp] theorem addProgram_id : (g.addProgram p).1 = ⟨g.programs.size⟩ := rfl

theorem addProgram_program (id : ProgramId) :
    (g.addProgram p).2.program id = if id.index = g.programs.size then p else g.program id := by
  unfold addProgram
  split <;> exact getD_push _ _ _ _

variable {g p} in
theorem addProgram_program_of_lt {q : ProgramId} (hq : q.index < g.programs.size) :
    (g.addProgram p).2.program q = g.program q := by
  rw [addProgram_program, if_neg (by omega)]

@[simp] theorem addProgram_field (id : FieldId) : (g.addProgram p).2.field id = g.field id := by
  unfold addProgram
  split <;> rfl

@[simp] theorem addProgram_table : (g.addProgram p).2.table = g.table := by
  unfold addProgram
  split <;> rfl

@[simp] theorem addProgram_fields : (g.addProgram p).2.fields = g.fields := by
  unfold addProgram
  split <;> rfl

@[simp] theorem addProgram_size_programs :
    (g.addProgram p).2.programs.size = g.programs.size + 1 := by
  unfold addProgram
  split <;> exact Array.size_push _

@[simp] theorem addProgram_size_chunks : (g.addProgram p).2.chunks.size = g.chunks.size := by
  unfold addProgram
  split <;> exact Array.size_modify

@[simp] theorem addProgram_size_modules : (g.addProgram p).2.modules.size = g.modules.size := by
  unfold addProgram
  split
  · exact Array.size_modify
  · rfl

theorem addProgram_chunk (id : ChunkId) :
    (g.addProgram p).2.chunk id =
      if p.owner.index = id.index ∧ id.index < g.chunks.size then
        { g.chunk id with
          programs := (g.chunk id).programs.push ⟨g.programs.size⟩
          table := (g.chunk id).table.define p.name (.program ⟨g.programs.size⟩) }
      else g.chunk id := by
  unfold addProgram
  split <;> exact getD_modify _ _ _ _ _

theorem addProgram_module (id : ModuleId) :
    (g.addProgram p).2.module id =
      if p.exported ∧ (g.chunk p.owner).owner.index = id.index ∧ id.index < g.modules.size then
        { g.module id with table := (g.module id).table.define p.name (.program ⟨g.programs.size⟩) }
      else g.module id := by
  unfold addProgram
  split
  · next hexported =>
    simp only [hexported, true_and]
    exact getD_modify _ _ _ _ _
  · next hexported =>
    simp only [hexported]
    rfl

variable (home : ProgramId)

@[simp] theorem addField_id : (g.addField home field).1 = ⟨g.fields.size⟩ := rfl

theorem addField_field (id : FieldId) :
    (g.addField home field).2.field id = if id.index = g.fields.size then field else g.field id :=
  getD_push _ _ _ _

theorem addField_program (id : ProgramId) :
    (g.addField home field).2.program id =
      if home.index = id.index ∧ id.index < g.programs.size then
        { (g.program id).define field.name (.field ⟨g.fields.size⟩ field.home) with
          fields :=
            ((g.program id).define field.name (.field ⟨g.fields.size⟩ field.home)).fields.push
              ⟨g.fields.size⟩ }
      else g.program id :=
  getD_modify _ _ _ _ _

@[simp] theorem addField_size_fields : (g.addField home field).2.fields.size = g.fields.size + 1 :=
  Array.size_push _

@[simp] theorem addField_size_programs :
    (g.addField home field).2.programs.size = g.programs.size :=
  Array.size_modify

end lookups

end Globals

/-! ### Changes inside of programs -/

/-- What of a program can be seen from outside. -/
def ProgramScope.heading (p : ProgramScope) : ProgramScope :=
  .declare p.name p.owner p.exported p.location

theorem ProgramScope.heading_define (p : ProgramScope) (name : String) (symbol : Symbol) :
    (p.define name symbol).heading = p.heading := by
  unfold define
  split <;> rfl

namespace Globals

/-- Two scopes differ in nothing but their fields and what is inside of programs. -/
structure SameOutline (g g' : Globals) : Prop where
  table_eq : g'.table = g.table
  modules_eq : g'.modules = g.modules
  chunks_eq : g'.chunks = g.chunks
  size_eq : g'.programs.size = g.programs.size
  heading_eq : ∀ p, (g'.program p).heading = (g.program p).heading

section outline

variable {g g' : Globals}

theorem sameOutline_addField (home : ProgramId) (field : Field) :
    g.SameOutline (g.addField home field).2 := by
  refine ⟨rfl, rfl, rfl, Array.size_modify, fun p => ?_⟩
  rw [addField_program]
  split
  · exact (g.program p).heading_define ..
  · rfl

theorem sameOutline_modifyProgram (id : ProgramId) {f : ProgramScope → ProgramScope}
    (hf : ∀ p, (f p).heading = p.heading) :
    g.SameOutline (g.modifyProgram id f) := by
  refine ⟨rfl, rfl, rfl, Array.size_modify, fun p => ?_⟩
  rw [program_modifyProgram]
  split
  · exact hf _
  · rfl

theorem sameOutline_modifyField (id : FieldId) (f : Field → Field) :
    g.SameOutline (g.modifyField id f) :=
  ⟨rfl, rfl, rfl, rfl, fun _ => rfl⟩

namespace SameOutline

variable (h : g.SameOutline g')

include h

theorem module_eq (m : ModuleId) : g'.module m = g.module m := by
  rw [module, module, h.modules_eq]

theorem chunk_eq (c : ChunkId) : g'.chunk c = g.chunk c := by
  rw [chunk, chunk, h.chunks_eq]

theorem name_eq (p : ProgramId) : (g'.program p).name = (g.program p).name :=
  (congrArg ProgramScope.name (h.heading_eq p) :)

theorem owner_eq (p : ProgramId) : (g'.program p).owner = (g.program p).owner :=
  (congrArg ProgramScope.owner (h.heading_eq p) :)

theorem exported_eq (p : ProgramId) : (g'.program p).exported = (g.program p).exported :=
  (congrArg ProgramScope.exported (h.heading_eq p) :)

theorem location_eq (p : ProgramId) : (g'.program p).location = (g.program p).location :=
  (congrArg ProgramScope.location (h.heading_eq p) :)

end SameOutline

end outline

variable (g : Globals)

/-! ### Consistency -/

/-- Names stand for what was declared under them, and numbers for what exists. -/
structure Consistent : Prop where
  usage_eq : ∀ (u t : Usage), g.table.get? u.tag = some (.usage t) → t = u
  module_name : ∀ name m, g.table.get? name = some (.module m) →
    m.index < g.modules.size ∧ (g.module m).name = name
  export_name : ∀ m name q, (g.module m).table.get? name = some (.program q) →
    q.index < g.programs.size ∧ (g.program q).name = name ∧ (g.chunk (g.program q).owner).owner = m
  program_owner : ∀ q, q.index < g.programs.size → (g.program q).owner.index < g.chunks.size
  chunk_owner : ∀ c, c.index < g.chunks.size → (g.chunk c).owner.index < g.modules.size
  field_type : ∀ f, (g.field f).type = (g.field f).usage

namespace Consistent

variable {g : Globals}

theorem initial : Globals.initial.Consistent where
  usage_eq := by
    intro u t h
    cases u <;> simp [Globals.initial, Usage.all, Table.get?_define, Usage.tag] at h <;>
      exact h.symm
  module_name := by
    intro name m h
    simp only [Globals.initial, Usage.all, List.foldl, Table.get?_define, Table.get?_empty] at h
    split_ifs at h <;> simp at h
  export_name := by
    intro m name q h
    change Table.empty.get? name = _ at h
    simp at h
  program_owner := by
    intro q h
    exact absurd h (Nat.not_lt_zero _)
  chunk_owner := by
    intro c h
    exact absurd h (Nat.not_lt_zero _)
  field_type := fun _ => rfl

variable (h : g.Consistent)

include h

/-- A module that is looked up or added exists. -/
theorem addModule_lt (name : String) :
    (g.addModule name).1.index < (g.addModule name).2.modules.size := by
  unfold addModule
  split
  · next id hid =>
    unfold module? at hid
    split at hid
    · next found heq =>
      obtain rfl := Option.some.inj hid
      exact (h.module_name name _ heq).1
    · cases hid
  · simp

theorem addModule (name : String) : (g.addModule name).2.Consistent := by
  unfold Globals.addModule
  split
  · exact h
  · next hnone =>
    -- old modules keep their places, and the new one has an empty table
    have hmodule : ∀ m : ModuleId, (g.modules.push ⟨name, #[], Table.empty⟩).getD m.index default =
        if m.index = g.modules.size then ⟨name, #[], Table.empty⟩ else g.module m :=
      fun m => getD_push _ _ _ _
    refine ⟨?_, ?_, ?_, h.program_owner, ?_, h.field_type⟩
    · intro u t hget
      rw [Table.get?_define] at hget
      split at hget
      · cases hget
      · exact h.usage_eq u t hget
    · intro other m hget
      rw [Table.get?_define] at hget
      split at hget
      · next heq =>
        cases hget
        refine ⟨by simp, ?_⟩
        exact (congrArg ModuleScope.name (hmodule ⟨g.modules.size⟩)).trans (by simp [heq])
      · obtain ⟨hlt, hname⟩ := h.module_name other m hget
        refine ⟨by rw [Array.size_push]; omega, ?_⟩
        refine (congrArg ModuleScope.name (hmodule m)).trans ?_
        rw [if_neg (by omega), hname]
    · intro m other q hget
      have hget' : ((g.modules.push ⟨name, #[], Table.empty⟩).getD m.index default).table.get?
          other = some (.program q) := hget
      rw [hmodule] at hget'
      split at hget'
      · simp at hget'
      · exact h.export_name m other q hget'
    · intro c hc
      rw [Array.size_push]
      exact Nat.lt_succ_of_lt (h.chunk_owner c hc)

theorem addChunk {owner : ModuleId} (howner : owner.index < g.modules.size) (name : String) :
    (g.addChunk owner name).2.Consistent where
  usage_eq := h.usage_eq
  module_name := by
    intro other m hget
    obtain ⟨hlt, hname⟩ := h.module_name other m hget
    rw [addChunk_size_modules, addChunk_module]
    refine ⟨hlt, ?_⟩
    split <;> exact hname
  export_name := by
    intro m other q hget
    rw [addChunk_module] at hget
    -- the new entry is a chunk, so the entry of a program was there before
    have hget' : (g.module m).table.get? other = some (.program q) := by
      split at hget
      · rw [Table.get?_define] at hget
        split at hget
        · cases hget
        · exact hget
      · exact hget
    obtain ⟨hlt, hname, hmodule⟩ := h.export_name m other q hget'
    have hchunk := h.program_owner q hlt
    refine ⟨hlt, hname, ?_⟩
    rw [addChunk_program, addChunk_chunk, if_neg (by omega), hmodule]
  program_owner := by
    intro q hq
    rw [addChunk_program, addChunk_size_chunks]
    exact Nat.lt_succ_of_lt (h.program_owner q hq)
  chunk_owner := by
    intro c hc
    rw [addChunk_size_chunks] at hc
    rw [addChunk_chunk, addChunk_size_modules]
    split
    · exact howner
    · exact h.chunk_owner c (by omega)
  field_type := h.field_type

theorem addProgram {p : ProgramScope} (howner : p.owner.index < g.chunks.size) :
    (g.addProgram p).2.Consistent where
  usage_eq := by rw [addProgram_table]; exact h.usage_eq
  module_name := by
    intro other m hget
    rw [addProgram_table] at hget
    obtain ⟨hlt, hname⟩ := h.module_name other m hget
    rw [addProgram_size_modules, addProgram_module]
    refine ⟨hlt, ?_⟩
    split <;> exact hname
  export_name := by
    intro m other q hget
    have howner_eq : ∀ c, ((g.addProgram p).2.chunk c).owner = (g.chunk c).owner := by
      intro c
      rw [addProgram_chunk]
      split <;> rfl
    have hold : (g.module m).table.get? other = some (.program q) →
        q.index < (g.addProgram p).2.programs.size ∧ ((g.addProgram p).2.program q).name = other ∧
          ((g.addProgram p).2.chunk ((g.addProgram p).2.program q).owner).owner = m := by
      intro hget
      obtain ⟨hlt, hname, hmodule⟩ := h.export_name m other q hget
      rw [addProgram_size_programs, addProgram_program, if_neg (by omega), howner_eq]
      exact ⟨by omega, hname, hmodule⟩
    rw [addProgram_module] at hget
    split at hget
    · next hcond =>
      rw [Table.get?_define] at hget
      split at hget
      · next heq =>
        -- the entry of the new program
        cases hget
        rw [addProgram_size_programs, addProgram_program, if_pos rfl, howner_eq]
        exact ⟨Nat.lt_succ_self _, heq, ModuleId.eq_of_index hcond.2.1⟩
      · exact hold hget
    · exact hold hget
  program_owner := by
    intro q hq
    rw [addProgram_size_programs] at hq
    rw [addProgram_program, addProgram_size_chunks]
    split
    · exact howner
    · exact h.program_owner q (by omega)
  chunk_owner := by
    intro c hc
    rw [addProgram_size_chunks] at hc
    rw [addProgram_chunk, addProgram_size_modules]
    split <;> exact h.chunk_owner c hc
  field_type := by
    intro f
    rw [addProgram_field]
    exact h.field_type f

/-- Changes inside of programs, and fields of which the type is the usage. -/
theorem of_outline {g' : Globals} (hsame : g.SameOutline g')
    (hfield : ∀ f, (g'.field f).type = (g'.field f).usage) : g'.Consistent := by
  refine ⟨?_, ?_, ?_, ?_, ?_, hfield⟩
  · rw [hsame.table_eq]
    exact h.usage_eq
  · intro name m hget
    rw [hsame.table_eq] at hget
    rw [hsame.modules_eq, hsame.module_eq]
    exact h.module_name name m hget
  · intro m name q hget
    rw [hsame.module_eq] at hget
    rw [hsame.size_eq, hsame.name_eq, hsame.owner_eq, hsame.chunk_eq]
    exact h.export_name m name q hget
  · intro q hq
    rw [hsame.owner_eq, hsame.chunks_eq]
    exact h.program_owner q (hsame.size_eq ▸ hq)
  · intro c hc
    rw [hsame.chunk_eq, hsame.modules_eq]
    exact h.chunk_owner c (hsame.chunks_eq ▸ hc)

theorem modifyProgram (id : ProgramId) {f : ProgramScope → ProgramScope}
    (hf : ∀ p, (f p).heading = p.heading) : (g.modifyProgram id f).Consistent :=
  h.of_outline (sameOutline_modifyProgram id hf) h.field_type

theorem modifyField {id : FieldId} {f : Field → Field}
    (hf : (f (g.field id)).type = (f (g.field id)).usage) : (g.modifyField id f).Consistent := by
  refine h.of_outline (sameOutline_modifyField id f) fun other => ?_
  rw [field_modifyField]
  split
  · next hcond =>
    exact FieldId.eq_of_index hcond.1 ▸ hf
  · exact h.field_type other

theorem addField (owner : ProgramId) {field : Field} (hfield : field.type = field.usage) :
    (g.addField owner field).2.Consistent := by
  refine h.of_outline (sameOutline_addField owner field) fun f => ?_
  rw [addField_field]
  split
  · exact hfield
  · exact h.field_type f

end Consistent

end Globals

end CobolCompiler
