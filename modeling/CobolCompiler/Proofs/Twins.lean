import CobolCompiler.Proofs.Arena
import CobolCompiler.Proofs.Growth
import CobolCompiler.Proofs.SideBySide

/-!
# One tree declared in two scopes

When one tree is declared in two scopes, it gets other numbers for its programs and fields in each,
as each scope already has some of its own. Numbers that are equally far from the first new one are
twins (`Offsets`). The two runs declare programs and fields at the same time, so that twins are
declared alike (`Globals.Twin`), and what is learned about a node is the same up to twins
(`Bindings.Twin`).

If nothing else differs that declaring looks at, the two runs stop together, and for the same
reason.
-/

namespace CobolCompiler

variable {f f' : FieldId} {g g' : Globals} {name : String} {p p' : ProgramId}

/-! ### Maps -/

/-- Two maps take related keys to related values. -/
def MapsAlike {κ κ' υ υ' : Type} [Ord κ] [Ord κ'] (R : κ → κ' → Prop) (S : υ → υ' → Prop)
    (m : Std.TreeMap κ υ) (m' : Std.TreeMap κ' υ') : Prop :=
  ∀ a b, R a b → Option.Rel S m[a]? m'[b]?

namespace MapsAlike

variable {κ κ' υ υ' : Type} [Ord κ] [Ord κ'] {R : κ → κ' → Prop} {S S' : υ → υ' → Prop}
  {m : Std.TreeMap κ υ} {m' : Std.TreeMap κ' υ'}

theorem mono (h : MapsAlike R S m m') (hS : ∀ v w, S v w → S' v w) : MapsAlike R S' m m' := by
  intro a b hab
  have hrel := h a b hab
  generalize m[a]? = o at hrel ⊢
  generalize m'[b]? = o' at hrel ⊢
  cases hrel with
  | none => exact .none
  | some hvw => exact .some (hS _ _ hvw)

/-- Maps that agree on related keys. -/
theorem eq {n : Std.TreeMap κ' υ} (h : MapsAlike R Eq m n) {a : κ} {b : κ'} (hab : R a b) :
    m[a]? = n[b]? := by
  have hrel := h a b hab
  generalize m[a]? = o at hrel ⊢
  generalize n[b]? = o' at hrel ⊢
  cases hrel with
  | none => rfl
  | some hvw => rw [hvw]

variable [Std.TransOrd κ] [Std.TransOrd κ']

theorem empty : MapsAlike R S (∅ : Std.TreeMap κ υ) (∅ : Std.TreeMap κ' υ') := by
  intro a b _
  simp

/-- Related entries are added under keys that no others are related to. -/
theorem insert [Std.LawfulEqOrd κ] [Std.LawfulEqOrd κ'] (h : MapsAlike R S m m') {a : κ} {b : κ'}
    (hab : ∀ x y, R x y → (a = x ↔ b = y)) {v : υ} {w : υ'} (hvw : S v w) :
    MapsAlike R S (m.insert a v) (m'.insert b w) := by
  intro x y hxy
  have hkey : compare a x = .eq ↔ compare b y = .eq :=
    Std.LawfulEqOrd.compare_eq_iff_eq.trans
      ((hab x y hxy).trans Std.LawfulEqOrd.compare_eq_iff_eq.symm)
  rw [Std.TreeMap.getElem?_insert, Std.TreeMap.getElem?_insert]
  by_cases hax : compare a x = .eq
  · rw [if_pos hax, if_pos (hkey.mp hax)]
    exact .some hvw
  · rw [if_neg hax, if_neg fun hby => hax (hkey.mpr hby)]
    exact h x y hxy

end MapsAlike

/-! ### Twins -/

/-- Two numbers are equally far from where two counts begin. -/
def Shifted (first first' i i' : Nat) : Prop :=
  ∃ k, i = first + k ∧ i' = first' + k

namespace Shifted

variable {first first' i i' j j' : Nat}

theorem start (first first' : Nat) : Shifted first first' first first' := ⟨0, rfl, rfl⟩

theorem succ (h : Shifted first first' i i') : Shifted first first' (i + 1) (i' + 1) := by
  obtain ⟨k, rfl, rfl⟩ := h
  exact ⟨k + 1, rfl, rfl⟩

theorem eq_iff (h : Shifted first first' i i') (h' : Shifted first first' j j') :
    i = j ↔ i' = j' := by
  obtain ⟨k, rfl, rfl⟩ := h
  obtain ⟨l, rfl, rfl⟩ := h'
  omega

theorem lt_iff (h : Shifted first first' i i') (h' : Shifted first first' j j') :
    i < j ↔ i' < j' := by
  obtain ⟨k, rfl, rfl⟩ := h
  obtain ⟨l, rfl, rfl⟩ := h'
  omega

end Shifted

/-- The first new fields and programs of two scopes. -/
structure Offsets where
  field : Nat
  field' : Nat
  program : Nat
  program' : Nat

namespace Offsets

/-- Twin fields. -/
def Fields (o : Offsets) (f f' : FieldId) : Prop :=
  Shifted o.field o.field' f.index f'.index

/-- Twin programs. -/
def Programs (o : Offsets) (p p' : ProgramId) : Prop :=
  Shifted o.program o.program' p.index p'.index

/-- Programs that are twins, or both older. -/
def Known (o : Offsets) (p p' : ProgramId) : Prop :=
  o.Programs p p' ∨ p.index < o.program ∧ p'.index < o.program'

variable {o : Offsets}

theorem Fields.eq_iff {f f' x x' : FieldId} (h : o.Fields f f') (hx : o.Fields x x') :
    f = x ↔ f' = x' :=
  ⟨fun heq => FieldId.eq_of_index ((Shifted.eq_iff h hx).mp (congrArg FieldId.index heq)),
    fun heq => FieldId.eq_of_index ((Shifted.eq_iff h hx).mpr (congrArg FieldId.index heq))⟩

theorem Programs.eq_iff {p p' q q' : ProgramId} (h : o.Programs p p') (hq : o.Programs q q') :
    p = q ↔ p' = q' :=
  ⟨fun heq => ProgramId.eq_of_index ((Shifted.eq_iff h hq).mp (congrArg ProgramId.index heq)),
    fun heq => ProgramId.eq_of_index ((Shifted.eq_iff h hq).mpr (congrArg ProgramId.index heq))⟩

theorem Programs.eq_iff_known {p p' q q' : ProgramId} (h : o.Programs p p') (hq : o.Known q q') :
    p = q ↔ p' = q' := by
  obtain hq | ⟨hlt, hlt'⟩ := hq
  · exact h.eq_iff hq
  · obtain ⟨k, hk, hk'⟩ := h
    constructor
    · rintro rfl
      omega
    · rintro rfl
      omega

/-- Of lists of twins, both have a field or neither. -/
theorem Fields.mem_iff {fs fs' : List FieldId} (hfs : List.Forall₂ o.Fields fs fs')
    (h : o.Fields f f') :
    f ∈ fs ↔ f' ∈ fs' := by
  induction hfs with
  | nil => simp
  | cons hx _ ih => rw [List.mem_cons, List.mem_cons, ih, h.eq_iff hx]

end Offsets

/-- Symbols that stand for twin fields. -/
inductive Symbol.Twin (o : Offsets) : Symbol → Symbol → Prop
  | field {f f' : FieldId} (h : o.Fields f f') (home : Section) :
      Twin o (.field f home) (.field f' home)

/-- Programs that are declared alike. -/
structure ProgramScope.Twin (o : Offsets) (p p' : ProgramScope) : Prop where
  name_eq : p.name = p'.name
  exported_eq : p.exported = p'.exported
  location_eq : p.location = p'.location
  fields : List.Forall₂ o.Fields p.fields.toList p'.fields.toList
  usings : List.Forall₂ o.Fields p.usings.toList p'.usings.toList
  returnings : List.Forall₂ o.Fields p.returnings.toList p'.returnings.toList
  member : ∀ name, Option.Rel (Symbol.Twin o) (p.member? name) (p'.member? name)

namespace ProgramScope.Twin

variable {o : Offsets} {p p' : ProgramScope}

theorem declare (name : String) (owner owner' : ChunkId) (exported : Bool) (location : Location) :
    Twin o (.declare name owner exported location) (.declare name owner' exported location) where
  name_eq := rfl
  exported_eq := rfl
  location_eq := rfl
  fields := .nil
  usings := .nil
  returnings := .nil
  member := fun other => by simp [ProgramScope.declare, member?]

theorem field? (h : Twin o p p') (name : String) :
    Option.Rel o.Fields (p.field? name) (p'.field? name) := by
  have hmember := h.member name
  unfold ProgramScope.field?
  generalize p.member? name = o at hmember ⊢
  generalize p'.member? name = o' at hmember ⊢
  cases hmember with
  | none => exact .none
  | some hsymbol =>
    cases hsymbol with
    | field hf home => exact .some hf

/-- A name without a field stands for nothing. -/
theorem member?_eq_none (h : Twin o p p') (hnone : p.field? name = none) :
    p.member? name = none ∧ p'.member? name = none := by
  have hmember := h.member name
  unfold ProgramScope.field? at hnone
  generalize p.member? name = o at hmember hnone ⊢
  generalize p'.member? name = o' at hmember ⊢
  cases hmember with
  | none => exact ⟨rfl, rfl⟩
  | some hsymbol =>
    cases hsymbol with
    | field hf home => cases hnone

/-- The same declaration in both programs. -/
theorem addField (h : Twin o p p') (hnone : p.field? name = none) (home : Section)
    (hf : o.Fields f f') :
    Twin o { p.define name (.field f home) with fields := p.fields.push f }
      { p'.define name (.field f' home) with fields := p'.fields.push f' } := by
  obtain ⟨hmember, hmember'⟩ := h.member?_eq_none hnone
  have hheader : ∀ (p : ProgramScope) symbol, (p.define name symbol).name = p.name ∧
      (p.define name symbol).exported = p.exported ∧
      (p.define name symbol).location = p.location := by
    intro p symbol
    unfold ProgramScope.define
    split <;> exact ⟨rfl, rfl, rfl⟩
  constructor
  case name_eq => simpa only [(hheader _ _).1] using h.name_eq
  case exported_eq => simpa only [(hheader _ _).2.1] using h.exported_eq
  case location_eq => simpa only [(hheader _ _).2.2] using h.location_eq
  case fields =>
    simp only [Array.toList_push]
    exact List.rel_append h.fields (.cons hf .nil)
  case usings => simpa only [(signature_define _ _ _).1] using h.usings
  case returnings => simpa only [(signature_define _ _ _).2] using h.returnings
  case member =>
    intro other
    change Option.Rel _ ((p.define name (.field f home)).member? other)
      ((p'.define name (.field f' home)).member? other)
    rw [member?_define hmember, member?_define hmember']
    split
    · exact .some (.field hf home)
    · exact h.member other

theorem extendSignature (h : Twin o p p') (list : Declaration.Signature) (hf : o.Fields f f') :
    Twin o (Declaration.extendSignature list f p) (Declaration.extendSignature list f' p') := by
  cases list with
  | usings =>
    refine ⟨h.name_eq, h.exported_eq, h.location_eq, h.fields, ?_, h.returnings, h.member⟩
    simp only [Declaration.extendSignature, Array.toList_push]
    exact List.rel_append h.usings (.cons hf .nil)
  | returnings =>
    refine ⟨h.name_eq, h.exported_eq, h.location_eq, h.fields, h.usings, ?_, h.member⟩
    simp only [Declaration.extendSignature, Array.toList_push]
    exact List.rel_append h.returnings (.cons hf .nil)

end ProgramScope.Twin

/-- Two scopes in which one tree was declared, in a chunk of each. -/
structure Globals.Twin (o : Offsets) (c c' : ChunkId) (g g' : Globals) : Prop where
  chunk_lt : c.index < g.chunks.size
  chunk_lt' : c'.index < g'.chunks.size
  fields_size : Shifted o.field o.field' g.fields.size g'.fields.size
  programs_size : Shifted o.program o.program' g.programs.size g'.programs.size
  field_eq : ∀ f f', o.Fields f f' → g.field f = g'.field f'
  program : ∀ p p', o.Programs p p' → (g.program p).Twin o (g'.program p')
  programs : List.Forall₂ o.Programs (g.chunk c).programs.toList (g'.chunk c').programs.toList
  named : ∀ name, Option.Rel o.Programs (g.chunkProgram? c name) (g'.chunkProgram? c' name)

namespace Globals.Twin

variable {o : Offsets} {c c' : ChunkId} {g g' : Globals}
variable {p p' : ProgramId}

theorem addProgram (h : Twin o c c' g g') (name : String) (exported : Bool) (location : Location) :
    Twin o c c' (g.addProgram (.declare name c exported location)).2
      (g'.addProgram (.declare name c' exported location)).2 := by
  have hnew : o.Programs ⟨g.programs.size⟩ ⟨g'.programs.size⟩ := h.programs_size
  constructor
  case chunk_lt => rw [addProgram_size_chunks]; exact h.chunk_lt
  case chunk_lt' => rw [addProgram_size_chunks]; exact h.chunk_lt'
  case fields_size => rw [addProgram_fields, addProgram_fields]; exact h.fields_size
  case programs_size =>
    rw [addProgram_size_programs, addProgram_size_programs]
    exact h.programs_size.succ
  case field_eq => intro f f' hf; rw [addProgram_field, addProgram_field]; exact h.field_eq f f' hf
  case program =>
    intro p p' hp
    rw [addProgram_program, addProgram_program]
    -- the next free numbers correspond, so the new program is new on both sides
    by_cases hnew : p.index = g.programs.size
    · rw [if_pos hnew, if_pos ((Shifted.eq_iff hp h.programs_size).mp hnew)]
      exact .declare ..
    · rw [if_neg hnew, if_neg fun heq => hnew ((Shifted.eq_iff hp h.programs_size).mpr heq)]
      exact h.program p p' hp
  case programs =>
    rw [addProgram_chunk, addProgram_chunk, if_pos ⟨rfl, h.chunk_lt⟩, if_pos ⟨rfl, h.chunk_lt'⟩]
    simp only [Array.toList_push]
    exact List.rel_append h.programs (.cons hnew .nil)
  case named =>
    intro other
    have hfound := chunkProgram?_addProgram h.chunk_lt name exported location other
    have hfound' := chunkProgram?_addProgram h.chunk_lt' name exported location other
    rw [hfound, hfound']
    change Option.Rel _ (if name = other then _ else _) (if name = other then _ else _)
    split
    · exact .some hnew
    · exact h.named other

/-- A change of twin programs. -/
theorem modifyPrograms (h : Twin o c c' g g') (hp : o.Programs p p')
    {f f' : ProgramScope → ProgramScope} (hf : (f (g.program p)).Twin o (f' (g'.program p'))) :
    ∀ q q', o.Programs q q' →
      ((g.modifyProgram p f).program q).Twin o ((g'.modifyProgram p' f').program q') := by
  intro q q' hq
  rw [program_modifyProgram, program_modifyProgram]
  by_cases hcond : p.index = q.index ∧ q.index < g.programs.size
  · have hcond' : p'.index = q'.index ∧ q'.index < g'.programs.size :=
      ⟨(Shifted.eq_iff hp hq).mp hcond.1, (Shifted.lt_iff hq h.programs_size).mp hcond.2⟩
    rw [if_pos hcond, if_pos hcond', ← ProgramId.eq_of_index hcond.1,
      ← ProgramId.eq_of_index hcond'.1]
    exact hf
  · rw [if_neg hcond, if_neg fun hcond' => hcond
      ⟨(Shifted.eq_iff hp hq).mpr hcond'.1, (Shifted.lt_iff hq h.programs_size).mpr hcond'.2⟩]
    exact h.program q q' hq

theorem modifyProgram (h : Twin o c c' g g') (hp : o.Programs p p')
    {f f' : ProgramScope → ProgramScope} (hf : (f (g.program p)).Twin o (f' (g'.program p'))) :
    Twin o c c' (g.modifyProgram p f) (g'.modifyProgram p' f') where
  chunk_lt := h.chunk_lt
  chunk_lt' := h.chunk_lt'
  fields_size := h.fields_size
  programs_size := by
    simp only [Globals.modifyProgram, Array.size_modify]
    exact h.programs_size
  field_eq := h.field_eq
  program := h.modifyPrograms hp hf
  programs := h.programs
  named := h.named

theorem addField (h : Twin o c c' g g') (hp : o.Programs p p') {field : Field}
    (hnone : (g.program p).field? field.name = none) :
    Twin o c c' (g.addField p field).2 (g'.addField p' field).2 where
  chunk_lt := h.chunk_lt
  chunk_lt' := h.chunk_lt'
  fields_size := by
    rw [addField_size_fields, addField_size_fields]
    exact h.fields_size.succ
  programs_size := by
    rw [addField_size_programs, addField_size_programs]
    exact h.programs_size
  field_eq := by
    intro f f' hf
    rw [addField_field, addField_field]
    by_cases hnew : f.index = g.fields.size
    · rw [if_pos hnew, if_pos ((Shifted.eq_iff hf h.fields_size).mp hnew)]
    · rw [if_neg hnew, if_neg fun heq => hnew ((Shifted.eq_iff hf h.fields_size).mpr heq)]
      exact h.field_eq f f' hf
  program := by
    refine h.modifyPrograms hp ?_
    have hnew : o.Fields ⟨g.fields.size⟩ ⟨g'.fields.size⟩ := h.fields_size
    have hadded := (h.program p p' hp).addField hnone field.home hnew
    simpa only [ProgramScope.fields_define] using hadded
  programs := h.programs
  named := h.named

/-- A change of twin fields. -/
theorem modifyField (h : Twin o c c' g g') (hf : o.Fields f f') (change : Field → Field) :
    Twin o c c' (g.modifyField f change) (g'.modifyField f' change) where
  chunk_lt := h.chunk_lt
  chunk_lt' := h.chunk_lt'
  fields_size := by
    simp only [Globals.modifyField, Array.size_modify]
    exact h.fields_size
  programs_size := h.programs_size
  field_eq := by
    intro x x' hx
    rw [field_modifyField, field_modifyField, h.field_eq x x' hx]
    have hiff : (f.index = x.index ∧ x.index < g.fields.size) ↔
        (f'.index = x'.index ∧ x'.index < g'.fields.size) := by
      rw [Shifted.eq_iff hf hx, Shifted.lt_iff hx h.fields_size]
    simp only [hiff]
  program := h.program
  programs := h.programs
  named := h.named

end Globals.Twin

/-! ### Bindings -/

/-- The same is known about nodes in two runs, up to twins. The programs that calls call are related
by `C`. Of the types of arguments nothing is asked where the runs may stop at different points. -/
structure Bindings.Twin (exact : Prop) (o : Offsets) (C : ProgramId → ProgramId → Prop)
    (b b' : Bindings) : Prop where
  programs : MapsAlike Eq o.Programs b.programs b'.programs
  fields : MapsAlike Eq o.Fields b.fields b'.fields
  callees : MapsAlike Eq C b.callees b'.callees
  types : MapsAlike Eq (fun type type' => exact → type = type') b.types b'.types
  params : MapsAlike Eq Eq b.params b'.params

namespace Bindings.Twin

variable {exact : Prop} {o : Offsets} {C C' : ProgramId → ProgramId → Prop} {b b' : Bindings}

theorem empty : Twin exact o C Bindings.empty Bindings.empty :=
  ⟨.empty, .empty, .empty, .empty, .empty⟩

/-- A node has one identity. -/
theorem id_eq_iff (id x y : Nat) (hxy : x = y) : id = x ↔ id = y := by
  rw [hxy]

variable (h : Twin exact o C b b') (n : Node)

include h

theorem mono (hC : ∀ q q', C q q' → C' q q') : Twin exact o C' b b' :=
  { h with callees := h.callees.mono hC }

theorem program? : Option.Rel o.Programs (b.program? n) (b'.program? n) :=
  h.programs n.id n.id rfl

theorem field? : Option.Rel o.Fields (b.field? n) (b'.field? n) :=
  h.fields n.id n.id rfl

theorem callee? : Option.Rel C (b.callee? n) (b'.callee? n) :=
  h.callees n.id n.id rfl

theorem type? : Option.Rel (fun type type' => exact → type = type') (b.type? n) (b'.type? n) :=
  h.types n.id n.id rfl

theorem param? : b.param? n = b'.param? n :=
  h.params.eq rfl

theorem bindProgram (hp : o.Programs p p') :
    Twin exact o C (b.bindProgram n p) (b'.bindProgram n p') :=
  { h with programs := h.programs.insert (id_eq_iff n.id) hp }

theorem bindField (hf : o.Fields f f') :
    Twin exact o C (b.bindField n f) (b'.bindField n f') :=
  { h with fields := h.fields.insert (id_eq_iff n.id) hf }

theorem bindCallee {q q' : ProgramId} (hq : C q q') :
    Twin exact o C (b.bindCallee n q) (b'.bindCallee n q') :=
  { h with callees := h.callees.insert (id_eq_iff n.id) hq }

theorem setType {type type' : ArgumentType} (htype : exact → type = type') :
    Twin exact o C (b.setType n type) (b'.setType n type') :=
  { h with types := h.types.insert (id_eq_iff n.id) htype }

theorem setParam {usage usage' : Usage} (husage : usage = usage') :
    Twin exact o C (b.setParam n usage) (b'.setParam n usage') :=
  { h with params := h.params.insert (id_eq_iff n.id) husage }

end Bindings.Twin

/-! ### Declaring in two scopes -/

namespace Declaration

/-- Two runs are at the same point between programs. -/
structure State.Twin (exact : Prop) (o : Offsets) (c c' : ChunkId) (s s' : State) : Prop where
  globals : Globals.Twin o c c' s.globals s'.globals
  bindings : Bindings.Twin exact o (fun _ _ => False) s.bindings s'.bindings
  chunk_eq : s.chunk? = some c
  chunk_eq' : s'.chunk? = some c'

/-- Two runs are at the same point in a program. -/
structure State.TwinIn (exact : Prop) (o : Offsets) (c c' : ChunkId) (s s' : State) : Prop
    extends State.Twin exact o c c' s s' where
  program : Option.Rel o.Programs s.program? s'.program?
  home_eq : s.home? = s'.home?

section steps

variable {exact : Prop} {o : Offsets} {c c' : ChunkId} {s s' : State} {file file' : String}

theorem conflict?_twin (h : Globals.Twin o c c' g g') (hfile : file = file')
    (hblocked : blocked? g file (g.chunk c).owner name = blocked? g' file' (g'.chunk c').owner name)
    (exported : Bool) :
    conflict? g file c name exported = conflict? g' file' c' name exported := by
  have hnamed := h.named name
  rw [conflict?_eq, conflict?_eq, hblocked, ← hfile]
  generalize g.chunkProgram? c name = found at hnamed ⊢
  generalize g'.chunkProgram? c' name = found' at hnamed ⊢
  cases hnamed with
  | none => rfl
  | some hp => simp only [(h.program _ _ hp).location_eq]

theorem alike_defineProgram (h : State.Twin exact o c c' s s') (hfile : exact → file = file')
    (n : Node) (hblocked : exact → blocked? s.globals file (s.globals.chunk c).owner n.name =
      blocked? s'.globals file' (s'.globals.chunk c').owner n.name) :
    Alike exact (defineProgram file n) (defineProgram file' n) s s' fun _ t _ t' =>
      State.TwinIn exact o c c' t t' := by
  have hchunk : Option.Rel (fun d d' => d = c ∧ d' = c') s.chunk? s'.chunk? := by
    rw [h.chunk_eq, h.chunk_eq']
    exact .some ⟨rfl, rfl⟩
  have hconflict := fun hexact =>
    conflict?_twin h.globals (hfile hexact) (hblocked hexact) (n.child? .exportMark).isSome
  unfold defineProgram
  rw [alike_get_bind]
  apply alike_bind
  apply alike_require hchunk
  rintro _ _ ⟨rfl, rfl⟩
  dsimp only
  rw [alike_get_bind]
  -- an exact comparison rules the mixed cases out, and otherwise a stop ends the comparison
  cases hx : conflict? s.globals file _ n.name (n.child? .exportMark).isSome with
  | some place =>
    cases hx' : conflict? s'.globals file' _ n.name (n.child? .exportMark).isSome with
    | some place' =>
      refine alike_stop rfl rfl fun hexact => ?_
      have hsame := hconflict hexact
      rw [hx, hx'] at hsame
      rw [hfile hexact, hsame]
    | none =>
      refine alike_stop_left rfl fun hexact => ?_
      have hsame := hconflict hexact
      rw [hx, hx'] at hsame
      cases hsame
  | none =>
    cases hx' : conflict? s'.globals file' _ n.name (n.child? .exportMark).isSome with
    | some place' =>
      refine alike_stop_right rfl fun hexact => ?_
      have hsame := hconflict hexact
      rw [hx, hx'] at hsame
      cases hsame
    | none =>
      have hnew : o.Programs ⟨s.globals.programs.size⟩ ⟨s'.globals.programs.size⟩ :=
        h.globals.programs_size
      exact ⟨⟨h.globals.addProgram .., h.bindings.bindProgram n hnew, h.chunk_eq, h.chunk_eq'⟩,
        .some hnew, rfl⟩

theorem alike_defineField (h : State.TwinIn exact o c c' s s') (hfile : exact → file = file')
    (policy : FractionPolicy) (n : Node) :
    Alike exact (defineField file policy n) (defineField file' policy n) s s'
      fun _ t _ t' => State.TwinIn exact o c c' t t' := by
  unfold defineField
  rw [alike_get_bind]
  apply alike_bind
  apply alike_require h.program
  intro p p' hp
  rw [alike_get_bind, h.home_eq]
  dsimp only
  split
  · exact alike_stop rfl rfl fun _ => rfl
  cases readField policy (s'.home?.getD .workingStorage) n with
  | error mistake => exact alike_stop rfl rfl fun hexact => by rw [hfile hexact]
  | ok field =>
    dsimp only
    rw [alike_get_bind]
    -- the name is taken in both programs or in neither
    have hprevious : previousField? s.globals p field.name =
        previousField? s'.globals p' field.name := by
      have hfield := (h.globals.program p p' hp).field? field.name
      unfold previousField?
      generalize (s.globals.program p).field? field.name = found at hfield ⊢
      generalize (s'.globals.program p').field? field.name = found' at hfield ⊢
      cases hfield with
      | none => rfl
      | some hf => simp only [Option.map_some, h.globals.field_eq _ _ hf]
    rw [hprevious]
    cases hx : previousField? s'.globals p' field.name with
    | some place => exact alike_stop rfl rfl fun hexact => by rw [hfile hexact]
    | none =>
      have hfree : (s.globals.program p).field? field.name = none := by
        rw [hx, previousField?, Option.map_eq_none_iff] at hprevious
        exact hprevious
      have hnew : o.Fields ⟨s.globals.fields.size⟩ ⟨s'.globals.fields.size⟩ := h.globals.fields_size
      exact ⟨⟨h.globals.addField hp hfree, h.bindings.bindField n hnew, h.chunk_eq, h.chunk_eq'⟩,
        h.program, h.home_eq⟩

theorem signatureField_eq (g : Globals) (p : ProgramId) (file name : String) (location : Location) :
    signatureField g p file name location =
      match (g.program p).field? name with
      | none => .error (.fault (.undefined name) file location none)
      | some f =>
        if (g.field f).home ≠ .linkage
          then .error (.fault (.notInLinkageSection name) file location none)
        else if (g.field f).default?.isSome
          then .error (.fault (.usingWithDefaultValue name) file location none)
        else if (g.program p).usings.contains f || (g.program p).returnings.contains f then
          .error (.fault (.redefinition name) file location (some ⟨file, (g.field f).location⟩))
        else .ok f := by
  unfold signatureField
  dsimp only
  cases (g.program p).field? name with
  | none => rfl
  | some f =>
    dsimp only
    split_ifs <;> rfl

/-- A name of a signature stands for twins, or is wrong in the same way. -/
theorem signatureField_twin (h : Globals.Twin o c c' g g') (hp : o.Programs p p') (name : String)
    (location : Location) :
    (∃ f f', signatureField g p file name location = .ok f ∧
      signatureField g' p' file' name location = .ok f' ∧ o.Fields f f') ∨
    ∃ e e', signatureField g p file name location = .error e ∧
      signatureField g' p' file' name location = .error e' ∧ (file = file' → e = e') := by
  have hscope := h.program p p' hp
  have hfield := hscope.field? name
  rw [signatureField_eq, signatureField_eq]
  generalize (g.program p).field? name = found at hfield ⊢
  generalize (g'.program p').field? name = found' at hfield ⊢
  cases hfield with
  | none => exact Or.inr ⟨_, _, rfl, rfl, fun hfile => by rw [hfile]⟩
  | @some f f' hf =>
    have hused : ((g.program p).usings.contains f || (g.program p).returnings.contains f) =
        ((g'.program p').usings.contains f' || (g'.program p').returnings.contains f') := by
      rw [Bool.eq_iff_iff]
      simp only [Bool.or_eq_true, Array.contains_iff_mem, ← Array.mem_toList_iff]
      rw [Offsets.Fields.mem_iff hscope.usings hf, Offsets.Fields.mem_iff hscope.returnings hf]
    simp only [h.field_eq f f' hf, hused]
    split_ifs
    · exact Or.inr ⟨_, _, rfl, rfl, fun hfile => by rw [hfile]⟩
    · exact Or.inr ⟨_, _, rfl, rfl, fun hfile => by rw [hfile]⟩
    · exact Or.inr ⟨_, _, rfl, rfl, fun hfile => by rw [hfile]⟩
    · exact Or.inl ⟨f, f', rfl, rfl, hf⟩

theorem alike_defineParameter (h : State.TwinIn exact o c c' s s') (hfile : exact → file = file')
    (list : Signature) (hp : o.Programs p p') (n : Node) :
    Alike exact (defineParameter file list p n) (defineParameter file' list p' n) s s'
      fun _ t _ t' => State.TwinIn exact o c c' t t' := by
  unfold defineParameter
  split
  · next name _ =>
    rw [alike_get_bind]
    rcases signatureField_twin h.globals hp name n.location with
      ⟨f, f', hok, hok', hf⟩ | ⟨e, e', herror, herror', he⟩
    · rw [hok, hok']
      exact ⟨⟨h.globals.modifyProgram hp ((h.globals.program p p' hp).extendSignature list hf),
        h.bindings.bindField n hf, h.chunk_eq, h.chunk_eq'⟩, h.program, h.home_eq⟩
    · rw [herror, herror']
      exact alike_stop rfl rfl fun hexact => he (hfile hexact)
  · exact h

theorem alike_defineParameters (h : State.TwinIn exact o c c' s s') (hfile : exact → file = file')
    (list : Signature) (n : Node) :
    Alike exact (defineParameters file list n) (defineParameters file' list n) s s'
      fun _ t _ t' => State.TwinIn exact o c c' t t' := by
  unfold defineParameters
  rw [alike_get_bind]
  apply alike_bind
  apply alike_require h.program
  intro p p' hp
  apply alike_forM_same h
  intro parameter _ t t' ht
  exact alike_defineParameter ht hfile list hp parameter

/-- Below the node of a program, the same is declared in both runs. -/
theorem alike_walk_below (h : State.TwinIn exact o c c' s s') (hfile : exact → file = file')
    (policy : FractionPolicy) (shape : ProgramShape) :
    Alike exact ((definer file policy).walkAll shape.node.children)
      ((definer file' policy).walkAll shape.node.children)
      s s' fun _ t _ t' => State.TwinIn exact o c c' t t' := by
  apply Visitor.alike_walkAll _ _ h
  · intro n hn m hm t t' ht
    obtain ⟨hmodule, hprogram⟩ := shape.tag_below hn hm
    obtain ⟨id, payload, location, children⟩ := m
    cases payload
    case module => exact absurd rfl hmodule
    case program => exact absurd rfl hprogram
    case workingStorageSection =>
      exact ⟨⟨ht.globals, ht.bindings, ht.chunk_eq, ht.chunk_eq'⟩, ht.program, rfl⟩
    case linkageSection =>
      exact ⟨⟨ht.globals, ht.bindings, ht.chunk_eq, ht.chunk_eq'⟩, ht.program, rfl⟩
    case field => exact alike_defineField ht hfile policy _
    case procedureUsings => exact alike_defineParameters ht hfile .usings _
    case procedureReturnings => exact alike_defineParameters ht hfile .returnings _
    all_goals exact ht
  · intro n hn m hm t t' ht
    have hprogram := (shape.tag_below hn hm).2
    obtain ⟨id, payload, location, children⟩ := m
    cases payload
    case program => exact absurd rfl hprogram
    all_goals exact ht

/-- A program is declared in both runs. What the runs were doing before it does not matter. -/
theorem alike_walk_program (h : State.Twin exact o c c' s s') (hfile : exact → file = file')
    (policy : FractionPolicy) (shape : ProgramShape)
    (hblocked : exact → ∀ name, blocked? s.globals file (s.globals.chunk c).owner name =
      blocked? s'.globals file' (s'.globals.chunk c').owner name) :
    Alike exact ((definer file policy).walk shape.node) ((definer file' policy).walk shape.node) s
      s' fun _ t _ t' => State.Twin exact o c c' t t' := by
  rw [Visitor.walk_eq, Visitor.walk_eq]
  apply alike_bind
  apply (alike_defineProgram h hfile shape.node fun hexact => hblocked hexact _).mono
  intro _ t _ t' ht
  apply alike_bind
  apply (alike_walk_below ht hfile policy shape).mono
  intro _ u _ u' hu
  exact ⟨hu.globals, hu.bindings, hu.chunk_eq, hu.chunk_eq'⟩

end steps

/-- The offsets of two scopes. -/
def offsets (g g' : Globals) : Offsets :=
  ⟨g.fields.size, g'.fields.size, g.programs.size, g'.programs.size⟩

/-- Where chunks were opened in two scopes, nothing is in either. -/
theorem twin_openFile (g g' : Globals) (name file file' : String) :
    Globals.Twin (offsets g g') (g.openFile name file).1 (g'.openFile name file').1
      (g.openFile name file).2 (g'.openFile name file').2 := by
  -- no twins exist yet, and what does not exist is the same everywhere
  have hfield : ∀ (g : Globals) (f : FieldId), g.fields.size ≤ f.index → g.field f = default := by
    intro g f hf
    simp [Globals.field, Nat.not_lt.mpr hf]
  have hprogram : ∀ (g : Globals) (p : ProgramId), g.programs.size ≤ p.index →
      g.program p = default := by
    intro g p hp
    simp [Globals.program, Nat.not_lt.mpr hp]
  constructor
  case chunk_lt => exact g.openFile_lt name file
  case chunk_lt' => exact g'.openFile_lt name file'
  case fields_size =>
    rw [Globals.openFile_fields, Globals.openFile_fields]
    exact Shifted.start ..
  case programs_size =>
    rw [Globals.openFile_programs, Globals.openFile_programs]
    exact Shifted.start ..
  case field_eq =>
    rintro f f' ⟨k, hk, hk'⟩
    rw [hfield, hfield] <;> rw [Globals.openFile_fields]
    · exact hk' ▸ Nat.le_add_right _ _
    · exact hk ▸ Nat.le_add_right _ _
  case program =>
    rintro p p' ⟨k, hk, hk'⟩
    rw [hprogram, hprogram]
    · exact .declare "" default default false default
    · rw [Globals.openFile_programs]
      exact hk' ▸ Nat.le_add_right _ _
    · rw [Globals.openFile_programs]
      exact hk ▸ Nat.le_add_right _ _
  case programs =>
    rw [Globals.openFile_chunk, Globals.openFile_chunk]
    exact .nil
  case named =>
    intro other
    rw [Globals.openFile_chunkProgram?, Globals.openFile_chunkProgram?]
    exact .none

/-- What programs of other files block does not change while a file is declared. -/
theorem blocked?_of_grows {g t : Globals} {name file : String} (hg : g.Consistent)
    (h : Globals.Grown file (g.openFile name file).1 (g.openFile name file).2 t) (other : String) :
    blocked? t file (t.chunk (g.openFile name file).1).owner other =
      blocked? (g.openFile name file).2 file (g.addModule name).1 other := by
  rw [h.blocked?_eq (Globals.Grown.openFile hg name file).consistent, (h.chunk_eq _).2,
    Globals.openFile_chunk]

/-- One module is declared in two scopes. For an exact comparison, programs of other files must
block the same names. -/
theorem alike_visit_definer {exact : Prop} {file file' : String} (hfile : exact → file = file')
    (policy : FractionPolicy) (m : ModuleShape) {s s' : State} (hs : s.globals.Consistent)
    (hs' : s'.globals.Consistent) (hbindings : s.bindings = Bindings.empty)
    (hbindings' : s'.bindings = Bindings.empty)
    (hblocked : exact → ∀ name, blocked? (s.globals.openFile m.node.name file).2 file
      (s.globals.addModule m.node.name).1 name = blocked? (s'.globals.openFile m.node.name file').2
      file' (s'.globals.addModule m.node.name).1 name) :
    Alike exact ((definer file policy).visit m.node) ((definer file' policy).visit m.node) s s'
      fun _ t _ t' =>
      State.Twin exact (offsets s.globals s'.globals) (s.globals.openFile m.node.name file).1
        (s'.globals.openFile m.node.name file').1 t t' := by
  let c := (s.globals.openFile m.node.name file).1
  let c' := (s'.globals.openFile m.node.name file').1
  let before := (s.globals.openFile m.node.name file).2
  let before' := (s'.globals.openFile m.node.name file').2
  have hopened : before.Consistent := (Globals.Grown.openFile hs m.node.name file).consistent
  have hopened' : before'.Consistent := (Globals.Grown.openFile hs' m.node.name file').consistent
  rw [Visitor.visit_module m (definer_inert file policy _ (by decide)) rfl rfl,
    Visitor.visit_module m (definer_inert file' policy _ (by decide)) rfl rfl]
  apply alike_bind
  change Alike exact (m.programs.forM fun shape => (definer file policy).walk shape.node)
    (m.programs.forM fun shape => (definer file' policy).walk shape.node)
    { s with globals := before, chunk? := some c } { s' with globals := before', chunk? := some c' }
    _
  -- the scopes stay alike, and each of them grows
  refine Alike.mono (alike_forM_same (I := fun t t' : State => State.Twin
    exact (offsets s.globals s'.globals) c c' t t' ∧ Standing.Grows file c before t.left.standing ∧
    Standing.Grows file' c' before' t'.left.standing) ?_ ?_) fun _ _ _ _ ht => ht.1
  · refine ⟨⟨twin_openFile .., ?_, rfl, rfl⟩, ⟨rfl, .openFile hs .., nofun⟩,
      ⟨rfl, .openFile hs' .., nofun⟩⟩
    change Bindings.Twin exact _ _ s.bindings s'.bindings
    rw [hbindings, hbindings']
    exact .empty
  · rintro shape _ t t' ⟨ht, hgrows, hgrows'⟩
    refine Alike.with (alike_walk_program ht hfile policy shape fun hexact name => ?_)
      (grows_walk_program hopened shape hgrows)
      (grows_walk_program hopened' shape hgrows')
    have hleft := blocked?_of_grows hs hgrows.grown name
    have hright := blocked?_of_grows hs' hgrows'.grown name
    exact hleft.trans ((hblocked hexact name).trans hright.symm)

end Declaration

/-! ### The declaring passes in two runs -/

/-- Two attempts to write a file both succeed, or fail in the same way. -/
def SameWrite {α : Type} : Except FileError α → Except FileError α → Prop
  | .ok _, .ok _ => True
  | .error e, .error e' => e = e'
  | _, _ => False

/-- Two runs over one tree, after it was declared. For an exact comparison, they are about one
source file, and can write to one output file. -/
structure Run.Twin (exact : Prop) (o : Offsets) (c c' : ChunkId) (C : ProgramId → ProgramId → Prop)
    (run run' : Run) : Prop where
  file_eq : exact → run.file = run'.file
  output_eq : exact → run.output? = run'.output?
  writes : exact → ∀ path, run.output? = some path →
    ∀ content, SameWrite (run.files.write path content) (run'.files.write path content)
  nextId_eq : run.nextId = run'.nextId
  globals : Globals.Twin o c c' run.globals run'.globals
  bindings : Bindings.Twin exact o C run.bindings run'.bindings
  chunk_eq : run.chunk? = some c
  chunk_eq' : run'.chunk? = some c'

/-- Two runs that begin on a module. For an exact comparison, the names that are taken must be the
same. -/
structure Run.Begin (exact : Prop) (name : String) (run run' : Run) : Prop where
  file_eq : exact → run.file = run'.file
  output_eq : exact → run.output? = run'.output?
  writes : exact → ∀ path, run.output? = some path →
    ∀ content, SameWrite (run.files.write path content) (run'.files.write path content)
  nextId_eq : run.nextId = run'.nextId
  policy_eq : run.options.policy = run'.options.policy
  consistent : run.globals.Consistent
  consistent' : run'.globals.Consistent
  bindings_eq : run.bindings = Bindings.empty
  bindings_eq' : run'.bindings = Bindings.empty
  table_eq : exact → (run.globals.openFile name run.file).2.table =
    (run'.globals.openFile name run'.file).2.table
  blocked_eq : exact → ∀ other,
    Declaration.blocked? (run.globals.openFile name run.file).2 run.file
      (run.globals.addModule name).1 other =
    Declaration.blocked? (run'.globals.openFile name run'.file).2 run'.file
      (run'.globals.addModule name).1 other

namespace Declaration

section passes

variable {exact : Prop} {o : Offsets} {c c' : ChunkId} {C : ProgramId → ProgramId → Prop}
  {run run' : Run}

theorem alike_define (m : ModuleShape) (h : Run.Begin exact m.node.name run run') :
    Alike exact (define m.node) (define m.node) run run' fun root t root' t' => root = m.node ∧
      root' = m.node ∧
      Run.Twin exact (offsets run.globals run'.globals)
        (run.globals.openFile m.node.name run.file).1
        (run'.globals.openFile m.node.name run'.file).1 (fun _ _ => False) t t' := by
  unfold define Pass.ofWalk
  apply alike_bind
  rw [alike_get_bind, alike_onPart, h.policy_eq]
  let s : State := ⟨run.globals, run.bindings, run.chunk?, run.memory.declaring?, run.memory.home?⟩
  let s' : State := ⟨run'.globals, run'.bindings, run'.chunk?, run'.memory.declaring?,
    run'.memory.home?⟩
  have hs : s.globals.Consistent := h.consistent
  have hs' : s'.globals.Consistent := h.consistent'
  apply (alike_visit_definer h.file_eq run'.options.policy m hs hs' h.bindings_eq
    h.bindings_eq' h.blocked_eq).mono
  intro _ t _ t' ht
  exact ⟨rfl, rfl, h.file_eq, h.output_eq, h.writes, h.nextId_eq, ht.globals, ht.bindings,
    ht.chunk_eq, ht.chunk_eq'⟩

theorem alike_endMarkers (m : ModuleShape) (hfile : exact → run.file = run'.file) :
    Alike exact (endMarkers m.node) (endMarkers m.node) run run' fun root t root' t' =>
      (root = m.dropEnds.node ∧ t = run) ∧ (root' = m.dropEnds.node ∧ t' = run') := by
  by_cases hexact : exact
  · have hsame : Alike exact (endMarkers m.node) (endMarkers m.node) run run' fun _ _ _ _ =>
        True := by
      unfold endMarkers
      rw [alike_get_bind, alike_onPart, hfile hexact]
      exact alike_self fun _ _ _ => trivial
    exact (hsame.with (ensures_endMarkers m run) (ensures_endMarkers m run')).mono fun _ _ _ _ h =>
      h.2
  · exact alike_of_ensures hexact (ensures_endMarkers m run) (ensures_endMarkers m run')

/-- A declared field gets a type if its usage stands for one. -/
theorem attachType_field (file : String) {b : Bindings} {n : Node} {f : FieldId}
    (hpayload : n.payload = .field) (hf : b.field? n = some f) (g : Globals) :
    (∃ type, g.table.get? (g.field f).usage.tag = some (.usage type) ∧
      attachType file b n g =
        .ok () (g.modifyField f fun field => { field with type? := some type })) ∨
    (¬∃ type, g.table.get? (g.field f).usage.tag = some (.usage type)) ∧
      attachType file b n g =
        .error (.fault (.undefined (g.field f).usage.tag) file n.location none) g := by
  simp only [attachType, hpayload, hf, bind_apply, get_apply]
  by_cases htype : ∃ type, g.member? .global (g.field f).usage.tag = some (.usage type)
  · obtain ⟨type, htype⟩ := htype
    refine Or.inl ⟨type, htype, ?_⟩
    rw [htype]
    rfl
  · refine Or.inr ⟨htype, ?_⟩
    cases hmember : g.member? .global (g.field f).usage.tag with
    | none => rfl
    | some symbol =>
      cases symbol
      case usage type => exact absurd ⟨type, hmember⟩ htype
      all_goals rfl

/-- Twin fields get their types together. -/
theorem alike_attachType {b b' : Bindings} (hb : Bindings.Twin exact o C b b') {file file' : String}
    (hfile : exact → file = file') (n : Node) (h : Globals.Twin o c c' g g') (hg : g.Consistent)
    (hg' : g'.Consistent) (htable : exact → g.table = g'.table) :
    Alike exact (attachType file b n) (attachType file' b' n) g g' fun _ t _ t' =>
      Globals.Twin o c c' t t' ∧ t.Consistent ∧ t'.Consistent ∧ (exact → t.table = t'.table) := by
  by_cases hpayload : n.payload = .field
  swap
  · -- other nodes have no part in it
    obtain ⟨id, payload, location, children⟩ := n
    cases payload
    case field => exact absurd rfl hpayload
    all_goals exact ⟨h, hg, hg', htable⟩
  have hfield := hb.field? n
  generalize hf : b.field? n = found at hfield
  generalize hf' : b'.field? n = found' at hfield
  cases hfield with
  | none =>
    simp only [attachType, hpayload, hf, hf']
    exact ⟨h, hg, hg', htable⟩
  | @some f f' hff =>
    -- the usage is the same; only the tables could differ
    have husage : (g'.field f').usage = (g.field f).usage := by rw [h.field_eq f f' hff]
    have hleft := attachType_field file hpayload hf g
    have hright := attachType_field file' hpayload hf' g'
    rw [husage] at hright
    rcases hleft with ⟨type, htype, hstep⟩ | ⟨hnone, hstep⟩ <;>
      rcases hright with ⟨type', htype', hstep'⟩ | ⟨hnone', hstep'⟩
    · -- both tables have the usage itself
      have hlookup : (g'.field f').usage = type' := by rw [husage, hg'.usage_eq _ _ htype']
      have htypes : type' = type := by rw [hg.usage_eq _ _ htype, hg'.usage_eq _ _ htype']
      subst htypes
      rw [Alike, hstep, hstep']
      exact ⟨h.modifyField hff _, hg.modifyField (hg.usage_eq _ _ htype),
        hg'.modifyField hlookup.symm, htable⟩
    · refine alike_stop_right hstep' fun hexact => hnone' ⟨type, ?_⟩
      rw [← htable hexact]
      exact htype
    · refine alike_stop_left hstep fun hexact => hnone ⟨type', ?_⟩
      rw [htable hexact]
      exact htype'
    · exact alike_stop hstep hstep' fun hexact => by rw [hfile hexact]

theorem alike_usageTypes (h : Run.Twin exact o c c' C run run') (hrun : run.globals.Consistent)
    (hrun' : run'.globals.Consistent) (htable : exact → run.globals.table = run'.globals.table)
    (root : Node) :
    Alike exact (usageTypes root) (usageTypes root) run run' fun typed t typed' t' =>
      typed = root ∧ typed' = root ∧ Run.Twin exact o c c' C t t' := by
  unfold usageTypes Pass.ofWalk
  apply alike_bind
  rw [alike_get_bind, alike_onPart]
  apply alike_bind
  refine (Visitor.alike_walk (I := fun g g' : Globals => Globals.Twin o c c' g g' ∧ g.Consistent ∧
    g'.Consistent ∧ (exact → g.table = g'.table)) ?_ ?_ ⟨h.globals, hrun, hrun', htable⟩).mono ?_
  · intro n _ g g' hI
    exact alike_attachType h.bindings h.file_eq n hI.1 hI.2.1 hI.2.2.1 hI.2.2.2
  · intro n _ g g' hI
    exact hI
  intro _ g _ g' hI
  exact ⟨rfl, rfl, h.file_eq, h.output_eq, h.writes, h.nextId_eq, hI.1, h.bindings, h.chunk_eq,
    h.chunk_eq'⟩

/-- The passes that declare, in two runs over one module. -/
theorem alike_declaring (m : ModuleShape) (h : Run.Begin exact m.node.name run run') :
    Alike exact (runAll (Pass.core.take 3) m.node)
      (runAll (Pass.core.take 3) m.node) run run' fun root t root' t' =>
      root = m.dropEnds.node ∧ root' = m.dropEnds.node ∧
      Run.Twin exact (offsets run.globals run'.globals)
        (run.globals.openFile m.node.name run.file).1
        (run'.globals.openFile m.node.name run'.file).1 (fun _ _ => False) t t' := by
  rw [runAll_declaring]
  apply alike_bind
  apply ((alike_define m h).with (comesTo_define (grows_visit m h.consistent))
    (comesTo_define (grows_visit m h.consistent'))).mono
  rintro _ _ _ _ ⟨⟨rfl, rfl, htwin⟩, ⟨s, hgrows, rfl⟩, ⟨s', hgrows', rfl⟩⟩
  apply alike_bind
  apply (alike_endMarkers m htwin.file_eq).mono
  rintro _ _ _ _ ⟨⟨rfl, rfl⟩, ⟨rfl, rfl⟩⟩
  refine alike_usageTypes htwin hgrows.grown.consistent hgrows'.grown.consistent
    (fun hexact => ?_) _
  exact hgrows.grown.table_eq.trans ((h.table_eq hexact).trans hgrows'.grown.table_eq.symm)

end passes

end Declaration

end CobolCompiler
