import CobolCompiler.Proofs.Declaring

/-!
# What a file adds to the scope

Declaring a file opens a chunk in its module and then only adds to the scope: what was there before
stays as it was, the new programs lie in the chunk, and the module exports what it did before and
besides it what the chunk exports. `Grown` says so of a scope, compared with the one right after the
chunk was opened. It holds wherever declaring stops (`grown_declaring`).
-/

namespace CobolCompiler

open Declaration

/-! ### Exports -/

namespace Globals

variable {g : Globals}

/-- The program that a chunk exports under a name. -/
def ownExport? (g : Globals) (c : ChunkId) (name : String) : Option ProgramId :=
  (g.chunkProgram? c name).filter fun p => (g.program p).exported

/-- The scope with the module and the chunk of a file, and the chunk. -/
def openFile (g : Globals) (name file : String) : ChunkId × Globals :=
  (g.addModule name).2.addChunk (g.addModule name).1 file

@[simp] theorem openFile_programs (name file : String) :
    (g.openFile name file).2.programs = g.programs :=
  g.addModule_programs name

@[simp] theorem openFile_fields (name file : String) : (g.openFile name file).2.fields = g.fields :=
  g.addModule_fields name

@[simp] theorem openFile_program (name file : String) (q : ProgramId) :
    (g.openFile name file).2.program q = g.program q := by
  rw [openFile, addChunk_program, addModule_program]

@[simp] theorem openFile_field (name file : String) (f : FieldId) :
    (g.openFile name file).2.field f = g.field f := by
  rw [openFile, addChunk_field, addModule_field]

theorem openFile_chunk_of_lt (name file : String) {d : ChunkId} (hd : d.index < g.chunks.size) :
    (g.openFile name file).2.chunk d = g.chunk d := by
  rw [openFile, addChunk_chunk, addModule_chunks, if_neg (Nat.ne_of_lt hd), addModule_chunk]

/-- The chunk that is opened is empty. -/
theorem openFile_chunk (name file : String) :
    (g.openFile name file).2.chunk (g.openFile name file).1 =
      ⟨file, (g.addModule name).1, #[], Table.empty⟩ := by
  rw [openFile, addChunk_chunk, addChunk_id, if_pos rfl]

theorem openFile_lt (name file : String) :
    (g.openFile name file).1.index < (g.openFile name file).2.chunks.size := by
  rw [openFile, addChunk_id, addChunk_size_chunks]
  exact Nat.lt_succ_self _

theorem openFile_chunkProgram? (name file other : String) :
    (g.openFile name file).2.chunkProgram? (g.openFile name file).1 other = none := by
  rw [chunkProgram?, openFile_chunk, Table.get?_empty]

/-- Another program changes what its chunk knows, but not whose chunks there are. -/
theorem addProgram_header (g : Globals) (p : ProgramScope) (d : ChunkId) :
    ((g.addProgram p).2.chunk d).name = (g.chunk d).name ∧
      ((g.addProgram p).2.chunk d).owner = (g.chunk d).owner := by
  rw [addProgram_chunk]
  split <;> exact ⟨rfl, rfl⟩

theorem chunkProgram?_addProgram {c : ChunkId} (hc : c.index < g.chunks.size) (name : String)
    (exported : Bool) (location : Location) (other : String) :
    (g.addProgram (.declare name c exported location)).2.chunkProgram? c other =
      if name = other then some ⟨g.programs.size⟩ else g.chunkProgram? c other := by
  rw [chunkProgram?, addProgram_chunk, if_pos ⟨rfl, hc⟩, Table.get?_define]
  by_cases hname : name = other
  · simp [ProgramScope.declare, hname]
  · simp [ProgramScope.declare, hname, chunkProgram?]

theorem moduleProgram?_addProgram {c : ChunkId} (hmodule : (g.chunk c).owner.index < g.modules.size)
    (name : String) (exported : Bool) (location : Location) (m : ModuleId) (other : String) :
    (g.addProgram (.declare name c exported location)).2.moduleProgram? m other =
      if exported ∧ m = (g.chunk c).owner ∧ name = other then some ⟨g.programs.size⟩
        else g.moduleProgram? m other := by
  rw [moduleProgram?, addProgram_module]
  by_cases hm : m = (g.chunk c).owner
  · subst hm
    by_cases hname : name = other
    · cases exported <;> simp [ProgramScope.declare, hname, hmodule, moduleProgram?]
    · cases exported <;> simp [ProgramScope.declare, hname, hmodule, Table.get?_define,
        moduleProgram?]
  · have hne : ¬(g.chunk c).owner.index = m.index := fun heq => hm (ModuleId.eq_of_index heq).symm
    simp [ProgramScope.declare, hm, hne, moduleProgram?]

end Globals

namespace Declaration

/-- Where a program stands that keeps a file from exporting one of that name: it comes from another
file. -/
def blocked? (g : Globals) (file : String) (m : ModuleId) (name : String) : Option Place :=
  match g.moduleProgram? m name with
  | some previous =>
    let previous := g.program previous
    let home := (g.chunk previous.owner).name
    if home = file then none else some ⟨home, previous.location⟩
  | none => none

theorem conflict?_eq (g : Globals) (file : String) (chunk : ChunkId) (name : String)
    (exported : Bool) :
    conflict? g file chunk name exported = match g.chunkProgram? chunk name with
      | some previous => some ⟨file, (g.program previous).location⟩
      | none => if exported then blocked? g file (g.chunk chunk).owner name else none := rfl

/-- Nothing keeps a program from being declared. -/
theorem conflict?_eq_none {g : Globals} {file : String} {chunk : ChunkId} {name : String}
    {exported : Bool} (h : conflict? g file chunk name exported = none) :
    g.chunkProgram? chunk name = none ∧
      (exported → blocked? g file (g.chunk chunk).owner name = none) := by
  rw [conflict?_eq] at h
  split at h
  · cases h
  · next hchunk =>
    refine ⟨hchunk, fun hexported => ?_⟩
    rwa [if_pos hexported] at h

end Declaration

/-! ### Growth -/

/-- A scope has grown by declarations in the chunk of a file. -/
structure Globals.Grown (file : String) (c : ChunkId) (before g : Globals) : Prop where
  consistent : g.Consistent
  chunk_lt : c.index < g.chunks.size
  file_eq : (g.chunk c).name = file
  table_eq : g.table = before.table
  module_name : ∀ m, (g.module m).name = (before.module m).name
  chunk_eq : ∀ d, (g.chunk d).name = (before.chunk d).name ∧
    (g.chunk d).owner = (before.chunk d).owner
  programs_le : before.programs.size ≤ g.programs.size
  program_eq : ∀ q : ProgramId, q.index < before.programs.size → g.program q = before.program q
  fields_le : before.fields.size ≤ g.fields.size
  field_eq : ∀ f : FieldId, f.index < before.fields.size →
    (g.field f).usage = (before.field f).usage ∧ (g.field f).location = (before.field f).location
  own : ∀ name p, g.chunkProgram? c name = some p →
    before.programs.size ≤ p.index ∧ p.index < g.programs.size ∧ (g.program p).owner = c
  exports : ∀ m name, g.moduleProgram? m name =
    if m = (g.chunk c).owner then (g.ownExport? c name).or (before.moduleProgram? m name)
    else before.moduleProgram? m name
  free : ∀ name p, g.ownExport? c name = some p → blocked? before file (g.chunk c).owner name = none

namespace Globals.Grown

variable {file : String} {c : ChunkId} {before g : Globals}

/-- Right after a chunk was opened, nothing is in it. -/
theorem openFile (h : g.Consistent) (name file : String) :
    Grown file (g.openFile name file).1 (g.openFile name file).2 (g.openFile name file).2 := by
  have hnone : ∀ other, (g.openFile name file).2.ownExport? (g.openFile name file).1 other =
      none := by
    intro other
    rw [ownExport?, openFile_chunkProgram?, Option.filter_none]
  refine ⟨(h.addModule name).addChunk (h.addModule_lt name) file,
    g.openFile_lt name file, by rw [openFile_chunk], rfl, fun _ => rfl, fun _ => ⟨rfl, rfl⟩,
    le_refl _, fun _ _ => rfl, le_refl _, fun _ _ => ⟨rfl, rfl⟩, ?_, ?_, ?_⟩
  · intro other p hp
    rw [openFile_chunkProgram?] at hp
    cases hp
  · intro m other
    rw [hnone, Option.none_or, ite_self]
  · intro other p hp
    rw [hnone] at hp
    cases hp

variable (h : Grown file c before g)

include h

/-- Programs of other files block what they blocked before. -/
theorem blocked?_eq (hbefore : before.Consistent) (name : String) :
    blocked? g file (g.chunk c).owner name = blocked? before file (g.chunk c).owner name := by
  have hexports := h.exports (g.chunk c).owner name
  rw [if_pos rfl] at hexports
  cases hown : g.ownExport? c name with
  | some p =>
    -- the program of this file blocks nothing, and its name was free
    rw [hown, Option.some_or] at hexports
    obtain ⟨hp, -⟩ := Option.filter_eq_some_iff.mp hown
    obtain ⟨-, -, howner⟩ := h.own name p hp
    rw [h.free name p hown, blocked?, hexports]
    simp [howner, h.file_eq]
  | none =>
    rw [hown, Option.none_or] at hexports
    rw [blocked?, blocked?, hexports]
    cases hq : before.moduleProgram? (g.chunk c).owner name with
    | none => rfl
    | some q =>
      obtain ⟨hlt, -⟩ := hbefore.export_name _ _ q (moduleProgram?_eq_some_iff.mp hq)
      simp only [h.program_eq q hlt, (h.chunk_eq _).1]

/-- Of the names that the chunk of the file exports, at most one is new. -/
theorem ownExport?_addProgram (name : String) (exported : Bool) (location : Location)
    (other : String) :
    (g.addProgram (.declare name c exported location)).2.ownExport? c other =
      if name = other then (if exported then some ⟨g.programs.size⟩ else none)
        else g.ownExport? c other := by
  rw [ownExport?, chunkProgram?_addProgram h.chunk_lt]
  by_cases hname : name = other
  · rw [if_pos hname, if_pos hname, Option.filter_some, addProgram_program, if_pos rfl,
      ProgramScope.declare]
  · rw [if_neg hname, if_neg hname, ownExport?]
    cases hq : g.chunkProgram? c other with
    | none => rfl
    | some q =>
      rw [Option.filter_some, Option.filter_some, addProgram_program_of_lt (h.own other q hq).2.1]

/-- Another program of the file. -/
theorem addProgram (hbefore : before.Consistent) {name : String} {exported : Bool}
    (hfree : conflict? g file c name exported = none) (location : Location) :
    Grown file c before (g.addProgram (.declare name c exported location)).2 := by
  obtain ⟨hchunk, hblocked⟩ := conflict?_eq_none hfree
  have hheader := addProgram_header g (.declare name c exported location)
  have hown := h.ownExport?_addProgram name exported location
  constructor
  case consistent => exact h.consistent.addProgram h.chunk_lt
  case chunk_lt => rw [addProgram_size_chunks]; exact h.chunk_lt
  case file_eq => exact (hheader c).1.trans h.file_eq
  case table_eq => exact (addProgram_table ..).trans h.table_eq
  case module_name =>
    intro m
    rw [addProgram_module, ← h.module_name]
    split <;> rfl
  case chunk_eq =>
    exact fun d => ⟨(hheader d).1.trans (h.chunk_eq d).1, (hheader d).2.trans (h.chunk_eq d).2⟩
  case programs_le =>
    rw [addProgram_size_programs]
    exact Nat.le_succ_of_le h.programs_le
  case program_eq =>
    intro q hq
    rw [addProgram_program_of_lt (lt_of_lt_of_le hq h.programs_le), h.program_eq q hq]
  case fields_le => rw [addProgram_fields]; exact h.fields_le
  case field_eq =>
    intro f hf
    rw [addProgram_field]
    exact h.field_eq f hf
  case own =>
    intro other q hq
    rw [chunkProgram?_addProgram h.chunk_lt] at hq
    rw [addProgram_size_programs]
    split at hq
    · obtain rfl := Option.some.inj hq
      rw [addProgram_program, if_pos rfl]
      exact ⟨h.programs_le, Nat.lt_succ_self _, rfl⟩
    · obtain ⟨hle, hlt, howner⟩ := h.own other q hq
      rw [addProgram_program_of_lt hlt]
      exact ⟨hle, Nat.lt_succ_of_lt hlt, howner⟩
  case exports =>
    intro m other
    rw [moduleProgram?_addProgram (h.consistent.chunk_owner c h.chunk_lt), hown, (hheader c).2,
      h.exports]
    by_cases hm : m = (g.chunk c).owner
    · by_cases hname : name = other
      · subst hname
        have hnone : g.ownExport? c name = none := by rw [ownExport?, hchunk, Option.filter_none]
        cases exported <;> simp [hm, hnone]
      · simp [hm, hname]
    · simp [hm]
  case free =>
    intro other q hq
    rw [hown] at hq
    rw [(hheader c).2]
    split at hq
    · next hname =>
      -- the new name was free before it was taken
      split at hq
      · next hexported =>
        rw [← hname, ← h.blocked?_eq hbefore]
        exact hblocked hexported
      · cases hq
    · exact h.free other q hq

/-- Changes inside the new programs and of new fields. -/
theorem of_outline {g' : Globals} (hconsistent : g'.Consistent) (hsame : g.SameOutline g')
    (hprogram : ∀ q : ProgramId, q.index < before.programs.size → g'.program q = g.program q)
    (hfields : g.fields.size ≤ g'.fields.size)
    (hfield : ∀ f : FieldId, f.index < g.fields.size →
      (g'.field f).usage = (g.field f).usage ∧ (g'.field f).location = (g.field f).location) :
    Grown file c before g' := by
  -- every look through modules and chunks gives the same
  have hfound : ∀ name, g'.chunkProgram? c name = g.chunkProgram? c name := fun name => by
    rw [chunkProgram?, chunkProgram?, hsame.chunk_eq]
  have hown : ∀ name, g'.ownExport? c name = g.ownExport? c name := by
    intro name
    rw [ownExport?, ownExport?, hfound]
    simp only [hsame.exported_eq]
  exact {
    consistent := hconsistent
    chunk_lt := hsame.chunks_eq ▸ h.chunk_lt
    file_eq := hsame.chunk_eq c ▸ h.file_eq
    table_eq := hsame.table_eq.trans h.table_eq
    module_name := fun m => hsame.module_eq m ▸ h.module_name m
    chunk_eq := fun d => hsame.chunk_eq d ▸ h.chunk_eq d
    programs_le := hsame.size_eq ▸ h.programs_le
    program_eq := fun q hq => (hprogram q hq).trans (h.program_eq q hq)
    fields_le := h.fields_le.trans hfields
    field_eq := by
      intro f hf
      obtain ⟨husage, hlocation⟩ := hfield f (lt_of_lt_of_le hf h.fields_le)
      exact ⟨husage.trans (h.field_eq f hf).1, hlocation.trans (h.field_eq f hf).2⟩
    own := by
      intro name p hp
      rw [hfound] at hp
      rw [hsame.size_eq, hsame.owner_eq]
      exact h.own name p hp
    exports := by
      intro m name
      rw [moduleProgram?, hsame.module_eq, hown, hsame.chunk_eq]
      exact h.exports m name
    free := by
      intro name p hp
      rw [hown] at hp
      rw [hsame.chunk_eq]
      exact h.free name p hp }

/-- Another field of a new program. -/
theorem addField {owner : ProgramId} (hnew : before.programs.size ≤ owner.index) {field : Field}
    (htype : field.type = field.usage) : Grown file c before (g.addField owner field).2 := by
  refine h.of_outline (h.consistent.addField owner htype) (sameOutline_addField owner field) ?_ ?_
    ?_
  · intro q hq
    rw [addField_program, if_neg (by omega)]
  · rw [addField_size_fields]
    exact Nat.le_succ _
  · intro f hf
    rw [addField_field, if_neg (by omega)]
    exact ⟨rfl, rfl⟩

/-- A parameter or result of a new program. -/
theorem extendSignature {owner : ProgramId} (hnew : before.programs.size ≤ owner.index)
    (list : Signature) (id : FieldId) :
    Grown file c before (g.modifyProgram owner (Declaration.extendSignature list id)) := by
  have hheading := heading_extendSignature list id
  refine h.of_outline (h.consistent.modifyProgram owner hheading)
    (sameOutline_modifyProgram owner hheading) ?_ (le_refl _) fun _ _ => ⟨rfl, rfl⟩
  intro q hq
  rw [program_modifyProgram, if_neg (by omega)]

/-- A field, of whatever program, gets its type. -/
theorem setType {id : FieldId} {type : Usage} (htype : type = (g.field id).usage) :
    Grown file c before (g.modifyField id fun field => { field with type? := some type }) := by
  refine h.of_outline (h.consistent.modifyField htype) (sameOutline_modifyField ..) (fun _ _ => rfl)
    (le_of_eq Array.size_modify.symm) ?_
  intro f hf
  rw [field_modifyField]
  split <;> exact ⟨rfl, rfl⟩

end Globals.Grown

/-- Below the node of a program there are no other programs and no modules. -/
theorem ProgramShape.tag_below (shape : ProgramShape) {n m : Node} (hn : n ∈ shape.node.children)
    (hm : m ∈ n.nodes) :
    m.tag ≠ .module ∧ m.tag ≠ .program := by
  have hframe : ∀ tag ∈ Tag.frameTags, tag ≠ .module ∧ tag ≠ .program := by decide
  have hcall : ∀ tag ∈ Tag.callTags, tag ≠ .module ∧ tag ≠ .program := by decide
  rw [shape.children_node] at hn
  rcases List.mem_append.mp hn with hn | hn
  · exact hframe _ (shape.tags_head n hn m hm)
  rcases List.mem_cons.mp hn with rfl | hn
  · rcases Node.mem_nodes.mp hm with rfl | ⟨k, hk, hm⟩
    · exact ⟨nofun, nofun⟩
    rw [shape.children_procedure] at hk
    rcases List.mem_append.mp hk with hk | hk
    · exact hframe _ (shape.tags_parameters k hk m hm)
    · exact hcall _ ((shape.areStatements k hk).tags m hm)
  · exact hframe _ (shape.tags_ends n hn m hm)

/-! ### Declaring a file -/

/-- A scope has grown, and if the declarations of a program are being read, that program is new. -/
structure Standing.Grows (file : String) (c : ChunkId) (before : Globals)
    (st : Standing) : Prop where
  chunk_eq : st.chunk? = some c
  grown : Globals.Grown file c before st.globals
  declaring_new : ∀ p, st.declaring? = some p → before.programs.size ≤ p.index

namespace Declaration

open Standing

variable {file : String} {policy : FractionPolicy} {c : ChunkId} {before : Globals}

/-- Every step that stays in the chunk lets the scope grow. -/
theorem keptWithin_grows (hbefore : before.Consistent) :
    KeptWithin file policy (Grows file c before) := by
  intro st st' hstep hchunk h
  cases hstep with
  | module name =>
    -- that would be another chunk
    have hnew : some (⟨st.globals.chunks.size⟩ : ChunkId) = some c := by
      rw [← h.chunk_eq, ← hchunk, Globals.addChunk_id, Globals.addModule_chunks]
    have hlt := h.grown.chunk_lt
    rw [← Option.some.inj hnew] at hlt
    exact absurd hlt (lt_irrefl _)
  | @program chunk hcurrent name exported hfree location =>
    obtain rfl : c = chunk := Option.some.inj (h.chunk_eq.symm.trans hcurrent)
    refine ⟨h.chunk_eq, h.grown.addProgram hbefore hfree location, fun p hp => ?_⟩
    obtain rfl := Option.some.inj hp
    exact h.grown.programs_le
  | leave => exact ⟨h.chunk_eq, h.grown, nofun⟩
  | @field owner howner home n field hread hfree =>
    obtain ⟨-, -, htype, -⟩ := readField_ok hread
    have hfield : field.type = field.usage := by simp [Field.type, htype]
    exact ⟨h.chunk_eq, h.grown.addField (h.declaring_new owner howner) hfield, h.declaring_new⟩
  | @parameter owner howner list name location id hid =>
    exact ⟨h.chunk_eq, h.grown.extendSignature (h.declaring_new owner howner) list id,
      h.declaring_new⟩
  | @usage id type htype =>
    exact ⟨h.chunk_eq, h.grown.setType (h.grown.consistent.usage_eq _ _ htype), h.declaring_new⟩

variable {s : State}

/-- What all that can happen at the nodes of a program keeps, declaring the program keeps. Whose
declarations were read before it does not matter. -/
theorem keeps_walk_program {J : State → Prop} (shape : ProgramShape)
    (hJ : ∀ n : Node, n.tag ≠ .module → (n.tag = .program → n = shape.node) →
      ∀ {s t}, Move file policy n s t → J s → J t) (hs : J s.left) :
    Ensures ((definer file policy).walk shape.node) s (fun _ t => J t.left)
      (fun _ t => J t.left) := by
  have hself : ∀ {s t}, Move file policy shape.node s t → J s → J t :=
    hJ shape.node Tag.noConfusion fun _ => rfl
  have henter : (definer file policy).enter shape.node = defineProgram file shape.node := rfl
  rw [Visitor.walk_eq, henter, ensures_bind]
  refine (@move_defineProgram file policy shape.node rfl s).mono (fun _ t ht => ?_) fun _ t ht =>
    ht.1 ▸ hs
  rw [ensures_bind]
  -- below a program there are neither modules nor programs
  refine (keeps_walkAll (fun k hk n hn => ?_) (hself ht hs)).mono
    (fun _ u hu => show J u.left from hself .leave hu) fun _ _ hu => hself .leave hu.1
  obtain ⟨hmodule, hprogram⟩ := shape.tag_below hk hn
  exact hJ n hmodule fun h => absurd h hprogram

theorem grows_walk_program (hbefore : before.Consistent) (shape : ProgramShape)
    (hs : Grows file c before s.left.standing) :
    Ensures ((definer file policy).walk shape.node) s
      (fun _ t => Grows file c before t.left.standing)
      (fun _ t => Grows file c before t.left.standing) :=
  keeps_walk_program (J := fun s => Grows file c before s.standing) shape
    (fun _ hn _ _ _ hstep => keeps_move (keptWithin_grows hbefore) hstep fun h => absurd h hn) hs

/-- The state once the module of a file is entered. -/
def State.opened (s : State) (moduleName file : String) : State :=
  { s with
    globals := (s.globals.openFile moduleName file).2
    chunk? := some (s.globals.openFile moduleName file).1 }

/-- What all that can happen in the programs of a module keeps, declaring the module keeps, once it
is opened. -/
theorem keeps_visit_module {J : State → Prop} {m : ModuleShape}
    (hJ : ∀ shape ∈ m.programs, ∀ n : Node, n.tag ≠ .module → (n.tag = .program → n = shape.node) →
      ∀ {s t}, Move file policy n s t → J s → J t) (hs : J (s.opened m.node.name file).left) :
    Ensures ((definer file policy).visit m.node) s (fun _ t => J t.left) (fun _ t => J t.left) := by
  rw [Visitor.visit_module m (definer_inert file policy _ (by decide)) rfl rfl, ensures_bind]
  change Ensures (defineModule file m.node) s _ _
  unfold defineModule
  simp only [ensures_bind, ensures_onGlobals, ensures_modify]
  refine ensures_forM (fun _ (t : State) => J t.left) hs ?_
  intro done shape rest t hsplit ht
  exact keeps_walk_program shape (hJ shape (by rw [hsplit]; simp)) ht

/-- Declaring a module lets its scope grow from where its chunk was opened. -/
theorem grows_visit (m : ModuleShape) (hs : s.globals.Consistent) :
    Ensures ((definer file policy).visit m.node) s
      (fun _ t =>
        Grows file (s.globals.openFile m.node.name file).1 (s.globals.openFile m.node.name file).2
        t.left.standing)
      (fun _ t =>
        Grows file (s.globals.openFile m.node.name file).1 (s.globals.openFile m.node.name file).2
        t.left.standing) := by
  have hopened := Globals.Grown.openFile hs m.node.name file
  refine keeps_visit_module (J := fun s => Grows file _ _ s.standing) ?_
    ⟨rfl, hopened, fun _ h => by cases h⟩
  intro _ _ n hn _ s t hstep
  exact keeps_move (keptWithin_grows hopened.consistent) hstep fun h => absurd h hn

end Declaration

/-- The core passes are those that declare, and then the others. -/
theorem runAll_core (root : Node) :
    runAll Pass.core root = runAll (Pass.core.take 3) root >>= runAll (Pass.core.drop 3) := by
  rw [← runAll_append, List.take_append_drop]

/-- Wherever the passes that declare stop, the scope has grown from where the chunk of the file was
opened. -/
theorem grown_declaring (m : ModuleShape) {run : Run} (hrun : run.globals.Consistent) :
    Ensures (runAll (Pass.core.take 3) m.node) run
      (fun _ t => Globals.Grown run.file (run.globals.openFile m.node.name run.file).1
        (run.globals.openFile m.node.name run.file).2 t.globals)
      (fun _ t => Globals.Grown run.file (run.globals.openFile m.node.name run.file).1
        (run.globals.openFile m.node.name run.file).2 t.globals) := by
  have hbefore := (Globals.Grown.openFile hrun m.node.name run.file).consistent
  refine (comesTo_declaring ?_ (grows_visit m hrun)).mono ?_ ?_
  · intro s n id type _ htype hs
    have hstep : Standing.Step run.file run.options.policy s.left.standing _ := .usage htype
    exact keptWithin_grows hbefore hstep rfl hs
  · rintro _ _ ⟨s, hs, rfl⟩
    exact hs.grown
  · rintro _ _ ⟨s, hs, rfl⟩
    exact hs.grown

end CobolCompiler
