import CobolCompiler.Proofs.Declaring
import CobolCompiler.Proofs.Nesting
import Mathlib.Data.List.Nodup

/-!
# The arena of symbols

Tables never refuse a name, and a compilation that stops leaves behind what it has declared so far.
Still the scope stays in order over whole sessions (`Session.reachable_arena_ordered`): the checks
that are made before each declaration are enough for that, whatever trees come along and wherever a
pass stops.

`ProgramScope.Tidy` is the part of it that concerns the fields of one program, and `Globals.Fielded`
says it of all programs and that they share no field. What concerns modules, chunks and programs is
`Globals.Nested`.
-/

namespace CobolCompiler

/-! ### The fields of one program -/

namespace ProgramScope

/-- The fields of a program have distinct names, its tables hold just these, and its signature is
made of linkage fields without default. What a number stands for is looked up by `field`, and
`count` is the number of fields there are. -/
structure Tidy (p : ProgramScope) (field : FieldId → Field) (count : Nat) : Prop where
  lt : ∀ f ∈ p.fields.toList, f.index < count
  nodup : p.fields.toList.Nodup
  entry_iff : ∀ home name symbol, (p.tableOf home).get? name = some symbol ↔
    ∃ f ∈ p.fields.toList, symbol = .field f home ∧ (field f).home = home ∧ (field f).name = name
  name_inj : ∀ f ∈ p.fields.toList, ∀ f' ∈ p.fields.toList, (field f).name = (field f').name →
    f = f'
  signature : ∀ f ∈ p.usings.toList ++ p.returnings.toList,
    f ∈ p.fields.toList ∧ (field f).home = .linkage ∧ (field f).default? = none
  signature_nodup : (p.usings.toList ++ p.returnings.toList).Nodup

theorem tableOf_define (p : ProgramScope) (name : String) (id : FieldId) (home home' : Section) :
    (p.define name (.field id home)).tableOf home' =
      if home = home' then (p.tableOf home').define name (.field id home) else p.tableOf home' := by
  cases home <;> cases home' <;> rfl

theorem tidy_declare (name : String) (owner : ChunkId) (exported : Bool) (location : Location)
    (field : FieldId → Field) (count : Nat) :
    (declare name owner exported location).Tidy field count := by
  constructor
  case entry_iff =>
    intro home other symbol
    cases home <;> simp [declare, tableOf]
  all_goals simp [declare]

namespace Tidy

variable {p : ProgramScope} {field : FieldId → Field} {count : Nat}

/-- Later fields, and changes to fields that leave name, section and default alone, do not
matter. -/
theorem mono (h : p.Tidy field count) {field' : FieldId → Field} {count' : Nat}
    (hcount : count ≤ count')
    (hfield : ∀ f, f.index < count → (field' f).name = (field f).name ∧ (field' f).home =
      (field f).home ∧ (field' f).default? = (field f).default?) : p.Tidy field' count' := by
  -- All that is said of a program is said of fields that it lists, and these are old.
  have hsame : ∀ f ∈ p.fields.toList, (field' f).name = (field f).name ∧ (field' f).home =
      (field f).home ∧ (field' f).default? = (field f).default? := fun f hf => hfield f (h.lt f hf)
  constructor
  · intro f hf
    have hlt := h.lt f hf
    omega
  · exact h.nodup
  · intro home name symbol
    rw [h.entry_iff]
    constructor
    · intro ⟨f, hf, hsymbol, hhome, hname⟩
      exact ⟨f, hf, hsymbol, (hsame f hf).2.1.trans hhome, (hsame f hf).1.trans hname⟩
    · intro ⟨f, hf, hsymbol, hhome, hname⟩
      exact ⟨f, hf, hsymbol, (hsame f hf).2.1.symm.trans hhome, (hsame f hf).1.symm.trans hname⟩
  · intro f hf f' hf' hname
    rw [(hsame f hf).1, (hsame f' hf').1] at hname
    exact h.name_inj f hf f' hf' hname
  · intro f hf
    obtain ⟨hmem, hhome, hdefault⟩ := h.signature f hf
    exact ⟨hmem, (hsame f hmem).2.1.trans hhome, (hsame f hmem).2.2.trans hdefault⟩
  · exact h.signature_nodup

/-- A name stands for the field of this name. -/
theorem field?_iff (h : p.Tidy field count) (name : String) (f : FieldId) :
    p.field? name = some f ↔ f ∈ p.fields.toList ∧ (field f).name = name := by
  have hworking := h.entry_iff .workingStorage name
  have hlinkage := h.entry_iff .linkage name
  simp only [tableOf] at hworking hlinkage
  constructor
  · intro hfound
    unfold field? member? at hfound
    cases hw : p.working.get? name with
    | some symbol =>
      obtain ⟨f', hf', rfl, _, hname⟩ := (hworking symbol).1 hw
      have heq : f' = f := by simpa [hw] using hfound
      exact heq ▸ ⟨hf', hname⟩
    | none =>
      cases hl : p.linkage.get? name with
      | some symbol =>
        obtain ⟨f', hf', rfl, _, hname⟩ := (hlinkage symbol).1 hl
        have heq : f' = f := by simpa [hw, hl] using hfound
        exact heq ▸ ⟨hf', hname⟩
      | none => simp [hw, hl] at hfound
  · intro ⟨hf, hname⟩
    unfold field? member?
    cases hhome : (field f).home with
    | workingStorage =>
      rw [(hworking _).2 ⟨f, hf, rfl, hhome, hname⟩]
      rfl
    | linkage =>
      -- Working storage has no field of the same name that could hide this one.
      have hw : p.working.get? name = none := by
        cases hw : p.working.get? name with
        | none => rfl
        | some symbol =>
          obtain ⟨f', hf', _, hhome', hname'⟩ := (hworking symbol).1 hw
          rw [h.name_inj f' hf' f hf (hname'.trans hname.symm), hhome] at hhome'
          cases hhome'
      rw [hw, (hlinkage _).2 ⟨f, hf, rfl, hhome, hname⟩]
      rfl

/-- A field under a name that the program does not know yet. -/
theorem addField (h : p.Tidy field count) {new : Field} (hfree : p.field? new.name = none)
    {field' : FieldId → Field} (hnew : field' ⟨count⟩ = new)
    (hold : ∀ f, f.index < count → field' f = field f) :
    Tidy { p.define new.name (.field ⟨count⟩ new.home) with
      fields := (p.define new.name (.field ⟨count⟩ new.home)).fields.push ⟨count⟩ } field'
      (count + 1) := by
  have h' : p.Tidy field' (count + 1) :=
    h.mono (by omega) fun f hf => by rw [hold f hf]; exact ⟨rfl, rfl, rfl⟩
  -- The new field has a number of its own and a name of its own.
  have hcount : (⟨count⟩ : FieldId) ∉ p.fields.toList := fun hmem => Nat.lt_irrefl _ (h.lt _ hmem)
  have hother : ∀ f ∈ p.fields.toList, (field' f).name ≠ new.name := by
    intro f hf hname
    rw [(h'.field?_iff new.name f).2 ⟨hf, hname⟩] at hfree
    cases hfree
  have hfields : ((p.define new.name (.field ⟨count⟩ new.home)).fields.push ⟨count⟩).toList =
      p.fields.toList ++ [⟨count⟩] := by
    rw [fields_define, Array.toList_push]
  obtain ⟨husings, hreturnings⟩ := signature_define p new.name (.field ⟨count⟩ new.home)
  constructor
  · intro f hf
    rw [hfields] at hf
    rcases List.mem_append.1 hf with hf | hf
    · exact h'.lt f hf
    · rw [List.mem_singleton.1 hf]
      exact Nat.lt_succ_self count
  · rw [hfields]
    exact List.nodup_append.2 ⟨h.nodup, by simp, by grind⟩
  · intro home name symbol
    show ((p.define new.name (.field ⟨count⟩ new.home)).tableOf home).get? name = some symbol ↔ _
    have hsplit : (∃ f ∈ p.fields.toList ++ [⟨count⟩],
          symbol = .field f home ∧ (field' f).home = home ∧ (field' f).name = name) ↔
        (p.tableOf home).get? name = some symbol ∨
          symbol = .field ⟨count⟩ home ∧ new.home = home ∧ new.name = name := by
      rw [h'.entry_iff, ← hnew]
      simp only [List.mem_append, List.mem_singleton, or_and_right, exists_or, exists_eq_left]
    rw [hfields, hsplit, tableOf_define]
    by_cases hhome : new.home = home
    · subst hhome
      have hnone : (p.tableOf new.home).get? new.name = none := by
        cases hget : (p.tableOf new.home).get? new.name with
        | none => rfl
        | some old =>
          obtain ⟨f, hf, _, _, hname⟩ := (h'.entry_iff _ _ _).1 hget
          exact absurd hname (hother f hf)
      rw [if_pos rfl, Table.get?_define_of_free hnone]
      simp
    · simp [hhome]
  · intro f hf f' hf' hname
    rw [hfields] at hf hf'
    rcases List.mem_append.1 hf with hf | hf <;> rcases List.mem_append.1 hf' with hf' | hf'
    · exact h'.name_inj f hf f' hf' hname
    · rw [List.mem_singleton.1 hf', hnew] at hname
      exact absurd hname (hother f hf)
    · rw [List.mem_singleton.1 hf, hnew] at hname
      exact absurd hname.symm (hother f' hf')
    · rw [List.mem_singleton.1 hf, List.mem_singleton.1 hf']
  · intro f hf
    rw [hfields]
    rw [husings, hreturnings] at hf
    obtain ⟨hmem, hrest⟩ := h'.signature f hf
    exact ⟨List.mem_append_left _ hmem, hrest⟩
  · rw [husings, hreturnings]
    exact h.signature_nodup

/-- A linkage field without default that is in neither list yet can be added to a signature. -/
theorem extendSignature (h : p.Tidy field count) (list : Declaration.Signature) {id : FieldId}
    (hmem : id ∈ p.fields.toList) (hhome : (field id).home = .linkage)
    (hdefault : (field id).default? = none)
    (husings : id ∉ p.usings.toList) (hreturnings : id ∉ p.returnings.toList) :
    (Declaration.extendSignature list id p).Tidy field count := by
  have hnew : id ∉ p.usings.toList ++ p.returnings.toList := by simp [husings, hreturnings]
  -- On either list, the new one is what was there and the new field.
  have hperm : ((Declaration.extendSignature list id p).usings.toList ++
      (Declaration.extendSignature list id p).returnings.toList).Perm
        (id :: (p.usings.toList ++ p.returnings.toList)) := by
    cases list with
    | usings =>
      simp only [Declaration.extendSignature, Array.toList_push, List.append_assoc,
        List.singleton_append]
      exact List.perm_middle
    | returnings =>
      simp only [Declaration.extendSignature, Array.toList_push, ← List.append_assoc]
      exact List.perm_append_singleton id _
  have hkept : (Declaration.extendSignature list id p).fields = p.fields ∧
      ∀ home, (Declaration.extendSignature list id p).tableOf home = p.tableOf home := by
    cases list with
    | usings => exact ⟨rfl, fun home => by cases home <;> rfl⟩
    | returnings => exact ⟨rfl, fun home => by cases home <;> rfl⟩
  obtain ⟨hfields, htable⟩ := hkept
  constructor
  · rw [hfields]
    exact h.lt
  · rw [hfields]
    exact h.nodup
  · rw [hfields]
    simp only [htable]
    exact h.entry_iff
  · rw [hfields]
    exact h.name_inj
  · intro f hf
    rw [hfields]
    rcases List.mem_cons.1 (hperm.mem_iff.1 hf) with heq | hf
    · subst heq
      exact ⟨hmem, hhome, hdefault⟩
    · exact h.signature f hf
  · exact hperm.nodup_iff.2 (List.nodup_cons.2 ⟨hnew, h.signature_nodup⟩)

end Tidy

end ProgramScope

/-! ### The fields of all programs -/

namespace Globals

/-- Every program is tidy, and every field is in just one program. -/
structure Fielded (g : Globals) : Prop where
  tidy : ∀ p, (g.program p).Tidy g.field g.fields.size
  placed : ∀ f, f.index < g.fields.size → ∃ p, p.index < g.programs.size ∧
    f ∈ (g.program p).fields.toList
  apart : ∀ p q f, f ∈ (g.program p).fields.toList → f ∈ (g.program q).fields.toList → p = q

namespace Fielded

variable {g : Globals}

theorem initial : Globals.initial.Fielded where
  tidy := fun _ => ProgramScope.tidy_declare "" default false default _ _
  placed := by
    intro f hf
    exact absurd hf (Nat.not_lt_zero _)
  apart := by
    intro p q f hf
    change f ∈ ([] : List FieldId) at hf
    cases hf

/-- Modules and chunks have no fields. -/
theorem of_eq (h : g.Fielded) {g' : Globals} (hprograms : g'.programs = g.programs)
    (hfields : g'.fields = g.fields) :
    g'.Fielded := by
  have hprogram : ∀ p, g'.program p = g.program p := fun p => by rw [program, program, hprograms]
  have hfield : g'.field = g.field := funext fun f => by rw [field, field, hfields]
  constructor
  · intro p
    rw [hprogram, hfield, hfields]
    exact h.tidy p
  · rw [hfields, hprograms]
    simp only [hprogram]
    exact h.placed
  · simp only [hprogram]
    exact h.apart

theorem addProgram (h : g.Fielded) (name : String) (owner : ChunkId) (exported : Bool)
    (location : Location) :
    (g.addProgram (.declare name owner exported location)).2.Fielded := by
  have hfield : (g.addProgram (.declare name owner exported location)).2.field = g.field :=
    funext fun f => addProgram_field g _ f
  -- the new program has no fields yet, and those of the others are the same
  have hfields :
      ∀ p, ((g.addProgram (.declare name owner exported location)).2.program p).fields.toList =
      if p.index = g.programs.size then [] else (g.program p).fields.toList := by
    intro p
    rw [addProgram_program]
    split <;> rfl
  constructor
  · intro p
    rw [hfield, addProgram_fields, addProgram_program]
    split
    · exact ProgramScope.tidy_declare ..
    · exact h.tidy p
  · intro f hf
    rw [addProgram_fields] at hf
    obtain ⟨p, hp, hmem⟩ := h.placed f hf
    refine ⟨p, by rw [addProgram_size_programs]; omega, ?_⟩
    rw [hfields, if_neg (by omega)]
    exact hmem
  · intro p q f hp hq
    rw [hfields] at hp hq
    split at hp
    · cases hp
    · split at hq
      · cases hq
      · exact h.apart p q f hp hq

theorem addField (h : g.Fielded) {owner : ProgramId}
    (howner : owner.index < g.programs.size) {new : Field}
    (hfree : (g.program owner).field? new.name = none) : (g.addField owner new).2.Fielded := by
  have hnew : (g.addField owner new).2.field ⟨g.fields.size⟩ = new := by
    rw [addField_field, if_pos rfl]
  have hold : ∀ f : FieldId, f.index < g.fields.size →
      (g.addField owner new).2.field f = g.field f := by
    intro f hf
    rw [addField_field, if_neg (by omega)]
  have hfields : ∀ p, ((g.addField owner new).2.program p).fields.toList =
      (g.program p).fields.toList ++ if owner = p then [⟨g.fields.size⟩] else [] := by
    intro p
    rw [addField_program]
    by_cases heq : owner = p
    · subst heq
      rw [if_pos ⟨rfl, howner⟩, if_pos rfl]
      simp
    · have hne : ¬ (owner.index = p.index ∧ p.index < g.programs.size) :=
        fun hcond => heq (ProgramId.eq_of_index hcond.1)
      rw [if_neg hne, if_neg heq, List.append_nil]
  have hlast : ∀ p, (⟨g.fields.size⟩ : FieldId) ∉ (g.program p).fields.toList :=
    fun p hmem => Nat.lt_irrefl _ ((h.tidy p).lt _ hmem)
  constructor
  · intro p
    rw [addField_size_fields, addField_program]
    split
    · next hcond =>
      obtain rfl : owner = p := ProgramId.eq_of_index hcond.1
      exact (h.tidy owner).addField hfree hnew hold
    · exact (h.tidy p).mono (Nat.le_succ _) fun f hf => by rw [hold f hf]; exact ⟨rfl, rfl, rfl⟩
  · intro f hf
    rw [addField_size_fields] at hf
    rw [addField_size_programs]
    by_cases heq : f.index = g.fields.size
    · obtain rfl : f = ⟨g.fields.size⟩ := FieldId.eq_of_index heq
      exact ⟨owner, howner, by rw [hfields]; simp⟩
    · obtain ⟨p, hp, hmem⟩ := h.placed f (by omega)
      exact ⟨p, hp, by rw [hfields]; simp [hmem]⟩
  · intro p q f hp hq
    rw [hfields] at hp hq
    -- The new field is in the list of its owner only, and the others are where they were.
    by_cases heq : f = ⟨g.fields.size⟩
    · subst heq
      have howner_of : ∀ r, (⟨g.fields.size⟩ : FieldId) ∈ (g.program r).fields.toList ++
          (if owner = r then [⟨g.fields.size⟩] else []) → owner = r := by
        intro r hr
        by_contra hne
        rw [if_neg hne, List.append_nil] at hr
        exact hlast r hr
      rw [← howner_of p hp, ← howner_of q hq]
    · have hmem : ∀ r, f ∈ (g.program r).fields.toList ++
          (if owner = r then [⟨g.fields.size⟩] else []) → f ∈ (g.program r).fields.toList := by
        intro r hr
        rcases List.mem_append.1 hr with hr | hr
        · exact hr
        · split at hr
          · exact absurd (List.mem_singleton.1 hr) heq
          · cases hr
      exact h.apart p q f (hmem p hp) (hmem q hq)

/-- Changes to programs and fields that leave the lists of fields alone and keep every program
tidy. -/
theorem of_fields (h : g.Fielded) {g' : Globals}
    (htidy : ∀ p, (g'.program p).Tidy g'.field g'.fields.size)
    (hsize : g'.fields.size = g.fields.size) (hprograms : g'.programs.size = g.programs.size)
    (hfields : ∀ p, (g'.program p).fields = (g.program p).fields) : g'.Fielded := by
  constructor
  · exact htidy
  · rw [hsize, hprograms]
    simp only [hfields]
    exact h.placed
  · simp only [hfields]
    exact h.apart

theorem extendSignature (h : g.Fielded) (list : Declaration.Signature)
    {owner : ProgramId} {file name : String} {location : Location} {id : FieldId}
    (hid : Declaration.signatureField g owner file name location = .ok id) :
    (g.modifyProgram owner (Declaration.extendSignature list id)).Fielded := by
  obtain ⟨hfound, hhome, hdefault, husings, hreturnings⟩ := Declaration.signatureField_cases hid
  obtain ⟨hmem, _⟩ := ((h.tidy owner).field?_iff name id).1 hfound
  refine h.of_fields ?_ rfl Array.size_modify ?_
  · intro p
    rw [program_modifyProgram]
    split
    · next hcond =>
      obtain rfl : owner = p := ProgramId.eq_of_index hcond.1
      exact (h.tidy owner).extendSignature list hmem hhome hdefault husings hreturnings
    · exact h.tidy p
  · intro p
    rw [program_modifyProgram]
    split
    · cases list <;> rfl
    · rfl

theorem setType (h : g.Fielded) (id : FieldId) (type : Usage) :
    (g.modifyField id fun f => { f with type? := some type }).Fielded := by
  refine h.of_fields ?_ Array.size_modify rfl fun _ => rfl
  intro p
  apply (h.tidy p).mono (by simp [modifyField])
  intro f _
  rw [field_modifyField]
  split <;> exact ⟨rfl, rfl, rfl⟩

end Fielded

end Globals

/-! ### Every step of declaring -/

/-- The scope is in order, and the chunk and the program that declarations go to exist. -/
structure Standing.Orderly (st : Standing) : Prop where
  sound : st.IsSound
  nested : st.globals.Nested
  fielded : st.globals.Fielded
  declaring_lt : ∀ p, st.declaring? = some p → p.index < st.globals.programs.size

open Declaration in
theorem kept_orderly : Standing.Kept Standing.Orderly where
  step := by
    intro file policy st st' hstep h
    have hsound : st'.IsSound := kept_sound.step hstep h.sound
    cases hstep with
    | module name =>
      refine ⟨hsound, (h.nested.addModule name).addChunk (h.sound.1.addModule_lt name) file, ?_, ?_⟩
      · exact h.fielded.of_eq (by simp) (by simp)
      · intro p hp
        simpa using h.declaring_lt p hp
    | @program chunk hchunk name exported hfree location =>
      -- There was no conflict, so the chunk has no program of the name.
      have hnone : st.globals.chunkProgram? chunk name = none :=
        chunkProgram?_of_conflict?_eq_none fun place hplace => by cases hfree.symm.trans hplace
      refine ⟨hsound, h.nested.addProgram h.sound.1 (h.sound.chunk_lt hchunk) hnone, ?_, ?_⟩
      · exact h.fielded.addProgram name chunk exported location
      · intro p hp
        obtain rfl := Option.some.inj hp
        simp
    | leave => exact ⟨hsound, h.nested, h.fielded, fun p hp => by cases hp⟩
    | @field owner howner home n field hread hfree =>
      -- The name was looked up in both sections before the field was added.
      have hnone : (st.globals.program owner).field? field.name = none := by
        simpa [previousField?] using hfree
      refine ⟨hsound, h.nested.of_outline (Globals.sameOutline_addField ..), ?_, ?_⟩
      · exact h.fielded.addField (h.declaring_lt owner howner) hnone
      · intro p hp
        rw [Globals.addField_size_programs]
        exact h.declaring_lt p hp
    | @parameter owner howner list name location id hid =>
      have hsame :=
        Globals.sameOutline_modifyProgram (g := st.globals) owner (heading_extendSignature list id)
      refine ⟨hsound, h.nested.of_outline hsame, h.fielded.extendSignature list hid, fun p hp => ?_⟩
      rw [hsame.size_eq]
      exact h.declaring_lt p hp
    | usage _ =>
      exact ⟨hsound, h.nested.of_outline (Globals.sameOutline_modifyField ..),
        h.fielded.setType _ _, h.declaring_lt⟩
  forget := fun h => ⟨kept_sound.forget h.sound, h.nested, h.fielded, h.declaring_lt⟩

theorem Session.Reachable.orderly {s : Session} (h : s.Reachable) : s.standing.Orderly := by
  have hstart : Standing.Orderly ⟨Globals.initial, none, none⟩ :=
    ⟨⟨.initial, fun c hc => by cases hc⟩, .initial, .initial, fun p hp => by cases hp⟩
  exact (kept_orderly.reachable hstart h).2

/-! ### The whole scope -/

namespace Globals

/-- What a name stands for exists. -/
def Has (g : Globals) : Symbol → Prop
  | .usage _ => True
  | .module m => m.index < g.modules.size
  | .chunk c => c.index < g.chunks.size
  | .program p => p.index < g.programs.size
  | .field f _ => f.index < g.fields.size

/-- Every number that is stored in the scope is that of something that exists. -/
structure InRange (g : Globals) : Prop where
  table : ∀ name symbol, g.table.get? name = some symbol → g.Has symbol
  module_chunks : ∀ m, ∀ c ∈ (g.module m).chunks.toList, c.index < g.chunks.size
  module_table : ∀ m name symbol, (g.module m).table.get? name = some symbol → g.Has symbol
  chunk_owner : ∀ c, c.index < g.chunks.size → (g.chunk c).owner.index < g.modules.size
  chunk_programs : ∀ c, ∀ p ∈ (g.chunk c).programs.toList, p.index < g.programs.size
  chunk_table : ∀ c name symbol, (g.chunk c).table.get? name = some symbol → g.Has symbol
  program_owner : ∀ p, p.index < g.programs.size → (g.program p).owner.index < g.chunks.size
  program_fields : ∀ p, ∀ f ∈ (g.program p).fields.toList, f.index < g.fields.size
  program_signature : ∀ p, ∀ f ∈ (g.program p).usings.toList ++ (g.program p).returnings.toList,
    f.index < g.fields.size
  program_table : ∀ p home name symbol, ((g.program p).tableOf home).get? name = some symbol →
    g.Has symbol

/-- Everything is in its place, once, and is found by its name. -/
structure Ordered (g : Globals) : Prop where
  in_range : g.InRange
  module_names : (g.modules.toList.map (·.name)).Nodup
  /-- A module lists its chunks in the order of their declaration. -/
  module_chunks : ∀ m, (g.module m).chunks.toList = g.chunkIds.filter fun c => (g.chunk c).owner = m
  /-- So does a chunk with its programs. -/
  chunk_programs : ∀ c, (g.chunk c).programs.toList = g.programIds.filter fun p =>
    (g.program p).owner = c
  program_names : ∀ c, ((g.chunk c).programs.toList.map fun p => (g.program p).name).Nodup
  program_found : ∀ c, ∀ p ∈ (g.chunk c).programs.toList,
    g.chunkProgram? c (g.program p).name = some p
  field_placed : ∀ f, f.index < g.fields.size → ∃! p, p.index < g.programs.size ∧
    f ∈ (g.program p).fields.toList
  /-- The names of a program's fields are distinct, in both sections together. -/
  field_names : ∀ p, ((g.program p).fields.toList.map fun f => (g.field f).name).Nodup
  field_found : ∀ p name f, (g.program p).field? name = some f ↔
    f ∈ (g.program p).fields.toList ∧ (g.field f).name = name
  signature_nodup : ∀ p, ((g.program p).usings.toList ++ (g.program p).returnings.toList).Nodup
  signature_linkage : ∀ p, ∀ f ∈ (g.program p).usings.toList ++ (g.program p).returnings.toList,
    f ∈ (g.program p).fields.toList ∧ (g.field f).home = .linkage ∧ (g.field f).default? = none
  /-- What a module exports was exported under this name from a chunk of the module. -/
  exported : ∀ m name p, g.moduleProgram? m name = some p → (g.program p).exported = true ∧
    (g.program p).name = name ∧ (g.program p).owner ∈ (g.module m).chunks.toList

section whole

variable {g : Globals} (hnested : g.Nested) (hconsistent : g.Consistent) (hfielded : g.Fielded)

include hnested

theorem Nested.module_names_nodup : (g.modules.toList.map (·.name)).Nodup := by
  rw [List.Nodup, List.pairwise_iff_getElem]
  intro i j hi hj hij hname
  simp only [List.length_map, Array.length_toList] at hi hj
  have hmodule : ∀ k (hk : k < g.modules.size), g.module ⟨k⟩ = g.modules[k] := by
    intro k hk
    simp [module, hk]
  have hfound := hnested.module_found ⟨i⟩ hi
  have hfound' := hnested.module_found ⟨j⟩ hj
  simp only [List.getElem_map, Array.getElem_toList] at hname
  -- The name that both have stands for one module only.
  rw [hmodule i hi, hname, ← hmodule j hj, hfound'] at hfound
  simp only [Option.some.injEq, Symbol.module.injEq, ModuleId.mk.injEq] at hfound
  omega

theorem Nested.program_found {c : ChunkId} {p : ProgramId} (hp : p ∈ (g.chunk c).programs.toList) :
    g.chunkProgram? c (g.program p).name = some p :=
  chunkProgram?_eq_some_iff.2 ((hnested.chunk_entry c _ _).2 ⟨p, hp, rfl, rfl⟩)

theorem Nested.program_names_nodup (c : ChunkId) :
    ((g.chunk c).programs.toList.map fun p => (g.program p).name).Nodup := by
  have hnodup : (g.chunk c).programs.toList.Nodup := by
    rw [hnested.chunk_programs]
    apply List.Nodup.filter
    exact List.nodup_range.map fun i j h => by cases h; rfl
  apply hnodup.map_on
  intro p hp q hq hname
  have hfound := hnested.program_found hp
  rw [hname, hnested.program_found hq] at hfound
  exact (Option.some.inj hfound).symm

include hconsistent hfielded

theorem inRange : g.InRange where
  table := by
    intro name symbol hget
    rcases hnested.global_entry name symbol hget with ⟨u, rfl⟩ | ⟨m, rfl⟩
    · trivial
    · exact (hconsistent.module_name name m hget).1
  module_chunks := by
    intro m c hc
    rw [hnested.module_chunks] at hc
    exact mem_chunkIds.1 (List.mem_filter.1 hc).1
  module_table := by
    intro m name symbol hget
    rcases hnested.module_entry m name symbol hget with ⟨c, rfl, hlt⟩ | ⟨p, rfl, _⟩
    · exact hlt
    · exact (hconsistent.export_name m name p hget).1
  chunk_owner := hconsistent.chunk_owner
  chunk_programs := fun _ _ hp => hnested.program_lt hp
  chunk_table := by
    intro c name symbol hget
    obtain ⟨p, hp, rfl, _⟩ := (hnested.chunk_entry c name symbol).1 hget
    exact hnested.program_lt hp
  program_owner := hconsistent.program_owner
  program_fields := fun p => (hfielded.tidy p).lt
  program_signature := fun p f hf => (hfielded.tidy p).lt f ((hfielded.tidy p).signature f hf).1
  program_table := by
    intro p home name symbol hget
    obtain ⟨f, hf, rfl, _⟩ := ((hfielded.tidy p).entry_iff home name symbol).1 hget
    exact (hfielded.tidy p).lt f hf

theorem ordered : g.Ordered where
  in_range := inRange hnested hconsistent hfielded
  module_names := hnested.module_names_nodup
  module_chunks := hnested.module_chunks
  chunk_programs := hnested.chunk_programs
  program_names := hnested.program_names_nodup
  program_found := fun _ _ hp => hnested.program_found hp
  field_placed := by
    intro f hf
    obtain ⟨p, hp, hmem⟩ := hfielded.placed f hf
    exact ⟨p, ⟨hp, hmem⟩, fun q hq => hfielded.apart q p f hq.2 hmem⟩
  field_names := fun p => (hfielded.tidy p).nodup.map_on (hfielded.tidy p).name_inj
  field_found := fun p => (hfielded.tidy p).field?_iff
  signature_nodup := fun p => (hfielded.tidy p).signature_nodup
  signature_linkage := fun p => (hfielded.tidy p).signature
  exported := by
    intro m name p hfound
    rw [moduleProgram?_eq_some_iff] at hfound
    obtain ⟨hlt, hname, howner⟩ := hconsistent.export_name m name p hfound
    rcases hnested.module_entry m name _ hfound with ⟨c, hc, _⟩ | ⟨q, hq, hexported⟩
    · cases hc
    · cases hq
      refine ⟨hexported, hname, ?_⟩
      rw [hnested.module_chunks]
      exact List.mem_filter.2
        ⟨mem_chunkIds.2 (hconsistent.program_owner p hlt), by simpa using howner⟩

end whole

end Globals

namespace Session

/-- However a session came about, and wherever its compilations stopped, everything in its scope is
in its place. The program that a stopped compilation was declaring, if there is one, exists too. -/
theorem reachable_arena_ordered {s : Session} (h : s.Reachable) :
    s.globals.Ordered ∧ ∀ p, s.memory.declaring? = some p → p.index < s.globals.programs.size :=
  ⟨Globals.ordered h.orderly.nested h.orderly.sound.1 h.orderly.fielded, h.orderly.declaring_lt⟩

/-- The sample module is compiled, and then again under the name of another file. That stops at the
first program, as the module exports one of that name already, and leaves an empty chunk behind. -/
theorem sampleModule_arena_ordered :
    let parser : Parser := fun _ _ _ => .ok Node.sampleModule
    let s := after (compileSource parser [] "OTHER.cbl" none)
      (after (compileSource parser [] "SAMPLE.cbl" none) (start {} .empty))
    (s.globals.chunks.size = 2 ∧ s.globals.programs.size = 3 ∧ s.globals.fields.size = 7) ∧
      s.globals.Ordered := by
  intro parser s
  have hfirst := Reachable.compiled (.start {} .empty) parser [] "SAMPLE.cbl" none
  have hs : s.Reachable := .compiled hfirst parser [] "OTHER.cbl" none
  exact ⟨by decide +kernel, (reachable_arena_ordered hs).1⟩

end Session

end CobolCompiler
