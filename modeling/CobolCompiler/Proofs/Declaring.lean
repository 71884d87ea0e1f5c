import CobolCompiler.Proofs.Reachable
import CobolCompiler.Proofs.Rewrite
import Mathlib.Data.List.Forall2
import Mathlib.Tactic.Tauto

/-!
# Declaring a file

What the scope holds after the declarations of a grammatical file have been entered. Each program of
the file has its fields in the order of the tree, each as its declaration says, and its parameters
and results under their names (`Declared`); the chunk of the file has the programs in the order of
the tree, and finds each by its name (`DeclaredModule`). Stops are failures: nothing that a step
relies on is missing.

The proof goes down the tree. `HasFields` and `HasSignature` say how far the declaration of a
program has come, and `Keeps` says that all other programs stay as they are meanwhile.
-/

namespace CobolCompiler

variable {name : String}

theorem exists_of_forall₂_left {α β : Type} {R : α → β → Prop} {as : List α} {bs : List β}
    (h : List.Forall₂ R as bs) {a : α} (ha : a ∈ as) : ∃ b ∈ bs, R a b := by
  induction h with
  | nil => cases ha
  | cons hab _ ih =>
    rcases List.mem_cons.mp ha with rfl | ha
    · exact ⟨_, List.mem_cons_self, hab⟩
    · obtain ⟨b, hb, hR⟩ := ih ha
      exact ⟨b, List.mem_cons_of_mem _ hb, hR⟩

theorem exists_of_forall₂_right {α β : Type} {R : α → β → Prop} {as : List α} {bs : List β}
    (h : List.Forall₂ R as bs) {b : β} (hb : b ∈ bs) : ∃ a ∈ as, R a b :=
  exists_of_forall₂_left h.flip hb

/-! ### Tables of a program -/

namespace ProgramScope

theorem member?_define {p : ProgramScope} (hnone : p.member? name = none) (id : FieldId)
    (home : Section) (other : String) :
    (p.define name (.field id home)).member? other =
      if name = other then some (.field id home) else p.member? other := by
  unfold member? at hnone ⊢
  have hworking : p.working.get? name = none := by
    cases h : p.working.get? name with
    | none => rfl
    | some symbol => simp [h] at hnone
  cases home with
  | workingStorage =>
    simp only [define, Table.get?_define]
    split <;> simp
  | linkage =>
    simp only [define, Table.get?_define]
    split
    · next heq => subst heq; simp [hworking]
    · rfl

theorem field?_define {p : ProgramScope} (hnone : p.member? name = none) (id : FieldId)
    (home : Section) (other : String) :
    (p.define name (.field id home)).field? other = if name = other then some id
      else p.field? other := by
  unfold field?
  rw [member?_define hnone]
  by_cases heq : name = other
  · simp only [if_pos heq]
  · simp only [if_neg heq]

@[simp] theorem fields_define (p : ProgramScope) (name : String) (symbol : Symbol) :
    (p.define name symbol).fields = p.fields := by
  unfold define
  split <;> rfl

theorem signature_define (p : ProgramScope) (name : String) (symbol : Symbol) :
    (p.define name symbol).usings = p.usings ∧
      (p.define name symbol).returnings = p.returnings := by
  unfold define
  split <;> exact ⟨rfl, rfl⟩

end ProgramScope

namespace Declaration

open Syntax (identifier?)

variable {policy : FractionPolicy} {g g' : Globals} {p q : ProgramId}
variable {b : Bindings} {chunk : ChunkId} {d : Section × Node}
  {declarations : List (Section × Node)} {f : FieldId}
  {frame : ProgramFrame} {frames : List ProgramFrame} {id : FieldId} {m : ModuleShape}
  {ps : List ProgramId} {usings returnings : List String}

/-! ### How far a program is declared -/

/-- A field is as its declaration says. Its type may have been looked up already; then it is its
usage. -/
structure IsFieldOf (policy : FractionPolicy) (g : Globals) (f : FieldId)
    (d : Section × Node) : Prop where
  lt : f.index < g.fields.size
  read : ∃ field, readField policy d.1 d.2 = .ok field ∧
    (g.field f = field ∨ g.field f = { field with type? := some field.usage })

/-- The fields of a program are those of some declarations, and it knows them by their names. -/
structure HasFields (policy : FractionPolicy) (g : Globals) (p : ProgramId)
    (declarations : List (Section × Node)) : Prop where
  lt : p.index < g.programs.size
  fields : List.Forall₂ (IsFieldOf policy g) (g.program p).fields.toList declarations
  nodup : (g.program p).fields.toList.Nodup
  field?_iff : ∀ name f, (g.program p).field? name = some f ↔
    f ∈ (g.program p).fields.toList ∧ (g.field f).name = name
  member?_eq_none : ∀ name, (g.program p).field? name = none → (g.program p).member? name = none

/-- The parameters and results of a program are linkage fields without default, with some names. -/
structure HasSignature (g : Globals) (p : ProgramId) (usings returnings : List String) : Prop where
  usings_eq : (g.program p).usings.toList.map (fun f => (g.field f).name) = usings
  returnings_eq : (g.program p).returnings.toList.map (fun f => (g.field f).name) = returnings
  linkage : ∀ f ∈ (g.program p).usings.toList ++ (g.program p).returnings.toList,
    f ∈ (g.program p).fields.toList ∧ (g.field f).home = .linkage ∧ (g.field f).default? = none
  nodup : ((g.program p).usings.toList ++ (g.program p).returnings.toList).Nodup

/-- Apart from one program, what was declared stays as it is. -/
structure Keeps (g g' : Globals) (p : ProgramId) : Prop where
  program_eq : ∀ q, q ≠ p → q.index < g.programs.size → g'.program q = g.program q
  field_eq : ∀ f, f.index < g.fields.size → g'.field f = g.field f
  programs_le : g.programs.size ≤ g'.programs.size
  fields_le : g.fields.size ≤ g'.fields.size

theorem Keeps.refl (g : Globals) (p : ProgramId) : Keeps g g p :=
  ⟨fun _ _ _ => rfl, fun _ _ => rfl, le_rfl, le_rfl⟩

theorem Keeps.trans {g'' : Globals} (h : Keeps g g' p) (h' : Keeps g' g'' p) : Keeps g g'' p where
  program_eq :=
    fun q hne hq => (h'.program_eq q hne (hq.trans_le h.programs_le)).trans (h.program_eq q hne hq)
  field_eq := fun f hf => (h'.field_eq f (hf.trans_le h.fields_le)).trans (h.field_eq f hf)
  programs_le := h.programs_le.trans h'.programs_le
  fields_le := h.fields_le.trans h'.fields_le

theorem HasFields.field_lt (h : HasFields policy g p declarations) :
    ∀ f ∈ (g.program p).fields.toList, f.index < g.fields.size := by
  intro f hf
  obtain ⟨d, _, hd⟩ := exists_of_forall₂_left h.fields hf
  exact hd.lt

/-- The fields of a program are those of its declarations also after other things were declared. -/
theorem IsFieldOf.keep (h : IsFieldOf policy g f d) (hkeep : Keeps g g' p) :
    IsFieldOf policy g' f d := by
  refine ⟨h.lt.trans_le hkeep.fields_le, ?_⟩
  rw [hkeep.field_eq f h.lt]
  exact h.read

theorem HasFields.keep (h : HasFields policy g q declarations) (hkeep : Keeps g g' p)
    (hne : q ≠ p) :
    HasFields policy g' q declarations := by
  have hprogram := hkeep.program_eq q hne h.lt
  refine ⟨h.lt.trans_le hkeep.programs_le, ?_, ?_, ?_, ?_⟩ <;> rw [hprogram]
  · exact h.fields.imp fun _ _ hd => hd.keep hkeep
  · exact h.nodup
  · intro name f
    rw [h.field?_iff]
    refine and_congr_right fun hf => ?_
    rw [hkeep.field_eq f (h.field_lt f hf)]
  · exact h.member?_eq_none

/-- A signature is that of its program as long as its fields have their names and places. -/
theorem HasSignature.of_eq (h : HasSignature g p usings returnings)
    (husings : (g'.program p).usings = (g.program p).usings)
    (hreturnings : (g'.program p).returnings = (g.program p).returnings)
    (hfields : (g.program p).fields.toList ⊆ (g'.program p).fields.toList)
    (hfield : ∀ f ∈ (g.program p).usings.toList ++ (g.program p).returnings.toList,
      (g'.field f).name = (g.field f).name ∧ (g'.field f).home = (g.field f).home ∧
        (g'.field f).default? = (g.field f).default?) : HasSignature g' p usings returnings := by
  refine ⟨?_, ?_, ?_, ?_⟩ <;> simp only [husings, hreturnings]
  · rw [← h.usings_eq]
    exact List.map_congr_left fun f hf => (hfield f (List.mem_append_left _ hf)).1
  · rw [← h.returnings_eq]
    exact List.map_congr_left fun f hf => (hfield f (List.mem_append_right _ hf)).1
  · intro f hf
    obtain ⟨hmem, hrest⟩ := h.linkage f hf
    rw [(hfield f hf).2.1, (hfield f hf).2.2]
    exact ⟨hfields hmem, hrest⟩
  · exact h.nodup

theorem HasSignature.keep (h : HasSignature g q usings returnings)
    (hfields : HasFields policy g q declarations)
    (hkeep : Keeps g g' p) (hne : q ≠ p) : HasSignature g' q usings returnings := by
  have hprogram := hkeep.program_eq q hne hfields.lt
  refine h.of_eq (by rw [hprogram]) (by rw [hprogram]) (by simp [hprogram]) fun f hf => ?_
  rw [hkeep.field_eq f (hfields.field_lt f (h.linkage f hf).1)]
  exact ⟨rfl, rfl, rfl⟩

/-! ### One more field -/

section addField

variable {declarations : List (Section × Node)} {d : Section × Node} {field : Field}

theorem keeps_addField (g : Globals) (p : ProgramId) (field : Field) :
    Keeps g (g.addField p field).2 p where
  program_eq := by
    intro q hne hq
    rw [Globals.addField_program, if_neg]
    exact fun h => hne (ProgramId.eq_of_index h.1.symm)
  field_eq := by
    intro f hf
    rw [Globals.addField_field, if_neg (by omega)]
  programs_le := by rw [Globals.addField_size_programs]
  fields_le := by rw [Globals.addField_size_fields]; omega

theorem program_addField (hp : p.index < g.programs.size) (field : Field) :
    (g.addField p field).2.program p =
      { (g.program p).define field.name (.field ⟨g.fields.size⟩ field.home) with
        fields := (g.program p).fields.push ⟨g.fields.size⟩ } := by
  rw [Globals.addField_program, if_pos ⟨rfl, hp⟩, ProgramScope.fields_define]

theorem HasFields.addField (h : HasFields policy g p declarations)
    (hread : readField policy d.1 d.2 = .ok field) (hnew : (g.program p).field? field.name = none) :
    HasFields policy (g.addField p field).2 p (declarations ++ [d]) := by
  have hkeep := keeps_addField g p field
  have hnone := h.member?_eq_none field.name hnew
  have hprogram := program_addField h.lt field
  have hnewField : (g.addField p field).2.field ⟨g.fields.size⟩ = field := by
    rw [Globals.addField_field, if_pos rfl]
  -- the name was free, so it stands for the new field now, and all other names for what they stood
  -- for
  have hfield? : ∀ name, ((g.addField p field).2.program p).field? name =
      if field.name = name then some ⟨g.fields.size⟩ else (g.program p).field? name := by
    intro name
    rw [hprogram]
    exact ProgramScope.field?_define hnone _ _ name
  have hmember? : ∀ name, ((g.addField p field).2.program p).member? name =
      if field.name = name then some (.field ⟨g.fields.size⟩ field.home)
        else (g.program p).member? name := by
    intro name
    rw [hprogram]
    exact ProgramScope.member?_define hnone _ _ name
  have hfields : ((g.addField p field).2.program p).fields.toList =
      (g.program p).fields.toList ++ [⟨g.fields.size⟩] := by
    rw [hprogram, Array.toList_push]
  have holdName : ∀ f ∈ (g.program p).fields.toList, ((g.addField p field).2.field f).name =
      (g.field f).name :=
    fun f hf => by rw [hkeep.field_eq f (h.field_lt f hf)]
  refine ⟨by rw [Globals.addField_size_programs]; exact h.lt, ?_, ?_, ?_, ?_⟩
  · rw [hfields]
    refine List.rel_append (h.fields.imp fun _ _ hd => hd.keep hkeep)
      (.cons ⟨?_, field, hread, Or.inl hnewField⟩ .nil)
    rw [Globals.addField_size_fields]
    exact Nat.lt_succ_self _
  · rw [hfields, List.nodup_append]
    refine ⟨h.nodup, by simp, ?_⟩
    intro f hf other hother heq
    rw [heq, List.mem_singleton.mp hother] at hf
    exact absurd (h.field_lt _ hf) (Nat.lt_irrefl _)
  · intro name f
    rw [hfield?, hfields, List.mem_append, List.mem_singleton]
    by_cases heq : field.name = name
    · rw [if_pos heq]
      constructor
      · intro hf
        obtain rfl := Option.some.inj hf
        exact ⟨Or.inr rfl, by rw [hnewField, heq]⟩
      · rintro ⟨hf | rfl, hname⟩
        · -- an old field of this name would have been found
          rw [holdName f hf] at hname
          have hfound := (h.field?_iff name f).mpr ⟨hf, hname⟩
          rw [← heq, hnew] at hfound
          cases hfound
        · rfl
    · rw [if_neg heq, h.field?_iff]
      constructor
      · rintro ⟨hf, hname⟩
        exact ⟨Or.inl hf, by rw [holdName f hf, hname]⟩
      · rintro ⟨hf | rfl, hname⟩
        · exact ⟨hf, by rw [← holdName f hf, hname]⟩
        · rw [hnewField] at hname
          exact absurd hname heq
  · intro name hfield
    rw [hfield?] at hfield
    rw [hmember?]
    split at hfield
    · cases hfield
    · next hne =>
      rw [if_neg hne]
      exact h.member?_eq_none name hfield

theorem HasSignature.addField (h : HasSignature g p usings returnings)
    (hfields : HasFields policy g p declarations)
    (field : Field) : HasSignature (g.addField p field).2 p usings returnings := by
  have hkeep := keeps_addField g p field
  have hprogram := program_addField hfields.lt field
  obtain ⟨husings, hreturnings⟩ :=
    (g.program p).signature_define field.name (.field ⟨g.fields.size⟩ field.home)
  refine h.of_eq (by rw [hprogram, husings]) (by rw [hprogram, hreturnings]) (by simp [hprogram])
    fun f hf => ?_
  -- the fields of the signature are older than the new one
  rw [hkeep.field_eq f (hfields.field_lt f (h.linkage f hf).1)]
  exact ⟨rfl, rfl, rfl⟩

end addField

/-! ### One more parameter or result -/

section extendSignature

variable {declarations : List (Section × Node)} (list : Signature) (id : FieldId)

theorem keeps_modifyProgram (g : Globals) (p : ProgramId) (f : ProgramScope → ProgramScope) :
    Keeps g (g.modifyProgram p f) p where
  program_eq := by
    intro q hne hq
    rw [Globals.program_modifyProgram, if_neg]
    exact fun h => hne (ProgramId.eq_of_index h.1.symm)
  field_eq := fun _ _ => rfl
  programs_le := by rw [show (g.modifyProgram p f).programs.size = _ from Array.size_modify]
  fields_le := le_rfl

theorem program_extendSignature (hp : p.index < g.programs.size) :
    (g.modifyProgram p (extendSignature list id)).program p =
      extendSignature list id (g.program p) := by
  rw [Globals.program_modifyProgram, if_pos ⟨rfl, hp⟩]

theorem HasFields.extendSignature (h : HasFields policy g p declarations) :
    HasFields policy (g.modifyProgram p (extendSignature list id)) p declarations := by
  have hprogram := program_extendSignature list id h.lt
  have hsize : (g.modifyProgram p (Declaration.extendSignature list id)).programs.size =
      g.programs.size :=
    Array.size_modify
  have hfields := h.fields.imp fun _ _ hd =>
    hd.keep (keeps_modifyProgram g p (Declaration.extendSignature list id))
  refine ⟨hsize ▸ h.lt, ?_, ?_, ?_, ?_⟩ <;> rw [hprogram] <;> cases list
  · exact hfields
  · exact hfields
  · exact h.nodup
  · exact h.nodup
  · exact h.field?_iff
  · exact h.field?_iff
  · exact h.member?_eq_none
  · exact h.member?_eq_none

/-- The signature has one more name at the end of one of its lists. -/
theorem HasSignature.extend (h : HasSignature g p usings returnings)
    (hp : p.index < g.programs.size)
    (hmem : id ∈ (g.program p).fields.toList) (hhome : (g.field id).home = .linkage)
    (hdefault : (g.field id).default? = none) (husing : id ∉ (g.program p).usings.toList)
    (hreturning : id ∉ (g.program p).returnings.toList) :
    HasSignature (g.modifyProgram p (extendSignature list id)) p
      (usings ++ if list = .usings then [(g.field id).name] else [])
      (returnings ++ if list = .returnings then [(g.field id).name] else []) := by
  have hprogram := program_extendSignature list id hp
  -- what is asked of the fields in the lists is known of the new one too
  have hlinkage : ∀ f, f ∈ (g.program p).usings.toList ++ (g.program p).returnings.toList ∨ f = id →
      f ∈ (g.program p).fields.toList ∧ (g.field f).home = .linkage ∧
      (g.field f).default? = none := by
    rintro f (hf | rfl)
    · exact h.linkage f hf
    · exact ⟨hmem, hhome, hdefault⟩
  have hnodup : (id :: ((g.program p).usings.toList ++ (g.program p).returnings.toList)).Nodup :=
    List.nodup_cons.mpr ⟨by simp [husing, hreturning], h.nodup⟩
  cases list with
  | usings =>
    refine ⟨?_, ?_, ?_, ?_⟩ <;> rw [hprogram]
    · simp only [extendSignature, Array.toList_push, List.map_append, ← h.usings_eq, if_true]
      rfl
    · simp only [extendSignature, reduceCtorEq, if_false, List.append_nil]
      exact h.returnings_eq
    · intro f hf
      refine hlinkage f ?_
      simp only [extendSignature, Array.toList_push, List.mem_append, List.mem_singleton] at hf ⊢
      tauto
    · simp only [extendSignature, Array.toList_push, List.append_assoc]
      exact List.perm_middle.nodup_iff.mpr hnodup
  | returnings =>
    refine ⟨?_, ?_, ?_, ?_⟩ <;> rw [hprogram]
    · simp only [extendSignature, reduceCtorEq, if_false, List.append_nil]
      exact h.usings_eq
    · simp only [extendSignature, Array.toList_push, List.map_append, ← h.returnings_eq, if_true]
      rfl
    · intro f hf
      refine hlinkage f ?_
      simp only [extendSignature, Array.toList_push, List.mem_append, List.mem_singleton] at hf ⊢
      tauto
    · simp only [extendSignature, Array.toList_push, ← List.append_assoc]
      exact (List.perm_append_singleton id _).nodup_iff.mpr hnodup

end extendSignature

/-! ### Inside a program -/

/-- The part of a program that is fixed when it is declared. -/
def header (p : ProgramScope) : String × ChunkId × Bool :=
  (p.name, p.owner, p.exported)

/-- The declarations inside a program have brought one state to another. -/
structure Inside (p : ProgramId) (s s' : State) : Prop where
  program?_eq : s'.program? = some p
  chunk?_eq : s'.chunk? = s.chunk?
  chunks_eq : s'.globals.chunks = s.globals.chunks
  programs_eq : s'.bindings.programs = s.bindings.programs
  header_eq : header (s'.globals.program p) = header (s.globals.program p)
  keeps : Keeps s.globals s'.globals p

/-- How far the declaration of a program has come since it was begun in some state. -/
structure Progress (policy : FractionPolicy) (p : ProgramId) (start : State)
    (declarations : List (Section × Node))
    (usings returnings : List String) (s : State) : Prop where
  inside : Inside p start s
  fields : HasFields policy s.globals p declarations
  signature : HasSignature s.globals p usings returnings

/-- The kinds of nodes at which something is declared. -/
def declaringTags : List Tag :=
  [.module, .program, .workingStorageSection, .linkageSection, .field, .procedureUsings,
    .procedureReturnings]

theorem definer_inert (file : String) (policy : FractionPolicy) (tags : List Tag)
    (htags : ∀ tag ∈ tags, tag ∉ declaringTags) : (definer file policy).InertOn tags := by
  intro n hn
  have hnone := htags n.tag hn
  obtain ⟨id, payload, location, children⟩ := n
  cases payload <;> first
    | exact ⟨rfl, rfl⟩
    | exact absurd (by simp [declaringTags, Node.tag, Payload.tag]) hnone

section steps

variable {start s : State} {declarations : List (Section × Node)} {usings returnings : List String}
  (file : String)
variable {location : Location} {n : Node} {name : String}

/-- The names that are added to one of the two lists. -/
def added (list target : Signature) (names : List String) : List String :=
  if list = target then names else []

/-- A name can be added to a signature if it stands for a linkage field without default that is not
in it yet. -/
theorem signatureField_cases {file : String} {owner : ProgramId}
    (hid : signatureField g owner file name location = .ok id) :
    (g.program owner).field? name = some id ∧ (g.field id).home = .linkage ∧
      (g.field id).default? = none ∧
      id ∉ (g.program owner).usings.toList ∧ id ∉ (g.program owner).returnings.toList := by
  unfold signatureField at hid
  simp only [bind, Except.bind] at hid
  split at hid
  · cases hid
  · next found hfound =>
    split_ifs at hid with hhome hdefault hused
    obtain rfl : found = id := by simpa [pure, Except.pure] using hid
    simp only [Bool.or_eq_true, Array.contains_iff_mem, not_or] at hused
    refine ⟨hfound, by simpa using hhome, by simpa using hdefault, ?_, ?_⟩
    · simpa using hused.1
    · simpa using hused.2

theorem signatureField_ok (hfields : HasFields policy g p declarations)
    (hid : signatureField g p file name location = .ok id) :
    id ∈ (g.program p).fields.toList ∧ (g.field id).name = name ∧ (g.field id).home = .linkage ∧
      (g.field id).default? = none ∧ id ∉ (g.program p).usings.toList ∧
        id ∉ (g.program p).returnings.toList := by
  obtain ⟨hfound, hrest⟩ := signatureField_cases hid
  obtain ⟨hmem, hname⟩ := (hfields.field?_iff name id).mp hfound
  exact ⟨hmem, hname, hrest⟩

/-- Walking a declaration declares its field. -/
theorem walk_field (hn : IsField n) : (definer file policy).walk n = defineField file policy n := by
  cases hn with
  | intro id location hclauses =>
    have hinert := (definer_inert file policy _ (by decide)).walkAll
      fun c hc => tags_of_leaf (hclauses c hc).1 (hclauses c hc).2
    rw [Visitor.walk_of_leave rfl, hinert, bind_pure_unit]
    rfl

section progress

variable (h : Progress policy p start declarations usings returnings s)

include h

/-- Entering a section changes only where fields belong. -/
theorem Progress.atHome (home? : Option Section) :
    Progress policy p start declarations usings returnings { s with home? } :=
  ⟨⟨h.inside.program?_eq, h.inside.chunk?_eq, h.inside.chunks_eq, h.inside.programs_eq,
    h.inside.header_eq, h.inside.keeps⟩, h.fields, h.signature⟩

theorem ensures_defineField {home : Section} (hhome : s.home? = some home) (n : Node) :
    Ensures (defineField file policy n) s
      (fun _ s' => Progress policy p start (declarations ++ [(home, n)]) usings returnings s' ∧
        s'.home? = some home)
      (fun e _ => e.IsFailureOr .pictureSize) := by
  unfold defineField
  simp only [ensures_bind, ensures_get, h.inside.program?_eq, ensures_require_some, hhome,
    Option.getD_some]
  split
  · exact Or.inr rfl
  split
  · next mistake _ => exact Or.inl (isFailure_fault ..)
  · next field hread =>
    simp only [ensures_bind, ensures_get]
    split
    · exact Or.inl (isFailure_fault ..)
    · next hprevious =>
      simp only [ensures_bind, ensures_onGlobals, ensures_modify]
      -- no field of this name was found, so the name is new
      have hnew : (s.globals.program p).field? field.name = none := by
        cases hfield : (s.globals.program p).field? field.name with
        | none => rfl
        | some f => exact absurd (show previousField? s.globals p field.name = some _ by
            rw [previousField?, hfield, Option.map_some]) (hprevious _)
      refine ⟨⟨⟨h.inside.program?_eq, h.inside.chunk?_eq, h.inside.chunks_eq, h.inside.programs_eq,
        ?_, h.inside.keeps.trans (keeps_addField _ _ _)⟩, h.fields.addField hread hnew,
        h.signature.addField h.fields field⟩, hhome⟩
      rw [← h.inside.header_eq, program_addField h.fields.lt]
      unfold ProgramScope.define
      split <;> rfl

theorem ensures_defineParameter (list : Signature) (hn : IsName n) :
    Ensures (defineParameter file list p n) s
      (fun _ =>
        Progress policy p start declarations (usings ++ added list .usings ((identifier? n).toList))
        (returnings ++ added list .returnings ((identifier? n).toList)))
      (fun e _ => e.IsFailure) := by
  cases hn with
  | intro nodeId location name =>
    unfold defineParameter
    simp only [ensures_bind, ensures_get]
    split
    · next stop hstop => exact signatureField_error hstop
    · next id hid =>
      obtain ⟨hmem, rfl, hhome, hdefault, husing, hreturning⟩ := signatureField_ok file h.fields hid
      simp only [ensures_bind, ensures_onGlobals, ensures_modify]
      refine ⟨⟨h.inside.program?_eq, h.inside.chunk?_eq, h.inside.chunks_eq, h.inside.programs_eq,
        ?_, h.inside.keeps.trans (keeps_modifyProgram _ _ _)⟩, h.fields.extendSignature list id,
        h.signature.extend list id h.fields.lt hmem hhome hdefault husing hreturning⟩
      rw [← h.inside.header_eq, program_extendSignature list id h.fields.lt]
      cases list <;> rfl

/-- The parameters or results of a procedure are added in their order. -/
theorem ensures_defineParameters (list : Signature) (hn : ∀ c ∈ n.children, IsName c) :
    Ensures (defineParameters file list n) s
      (fun _ => Progress policy p start declarations
        (usings ++ added list .usings (n.children.filterMap identifier?))
        (returnings ++ added list .returnings (n.children.filterMap identifier?)))
      (fun e _ => e.IsFailure) := by
  unfold defineParameters
  simp only [ensures_bind, ensures_get, h.inside.program?_eq, ensures_require_some]
  refine ensures_forM (fun done => Progress policy p start declarations
    (usings ++ added list .usings (done.filterMap identifier?))
    (returnings ++ added list .returnings (done.filterMap identifier?))) ?_ ?_
  · have hnil : ∀ target, added list target [] = [] := fun target => by simp [added]
    simpa [hnil] using h
  · intro done c rest t hsplit ht
    have happend : ∀ target, added list target ((done ++ [c]).filterMap identifier?) = added list
        target (done.filterMap identifier?) ++ added list target ((identifier? c).toList) := by
      intro target
      unfold added
      split
      · cases hc : identifier? c <;> simp [hc]
      · rfl
    rw [happend, happend, ← List.append_assoc, ← List.append_assoc]
    exact ensures_defineParameter file ht list (hn c (by rw [hsplit]; simp))

/-! ### Walking a program -/

/-- Walking the fields of a section declares them in their order. -/
theorem ensures_walk_fields {home : Section} (hhome : s.home? = some home) {ns : List Node}
    (hns : ∀ n ∈ ns, IsField n) :
    Ensures ((definer file policy).walkAll ns) s
      (fun _ => Progress policy p start (declarations ++ ns.map (home, ·)) usings returnings)
      (fun e _ => e.IsFailureOr .pictureSize) := by
  rw [Visitor.walkAll_eq_forM]
  refine (ensures_forM (fun done t => Progress policy p start (declarations ++ done.map (home, ·))
    usings returnings t ∧ t.home? = some home) ⟨by simpa using h, hhome⟩ ?_).imp fun _ _ ht => ht.1
  intro done n rest t hsplit ⟨ht, hhome⟩
  rw [walk_field file (hns n (by rw [hsplit]; simp)), List.map_append, ← List.append_assoc]
  exact ensures_defineField file ht hhome n

/-- Walking a section, if it is there, declares its fields. -/
theorem ensures_walk_section (home : Section) {heading : Payload}
    (hheading : heading.tag = Syntax.sectionTag home) {nodes ns : List Node}
    (hunder : Under heading nodes ns) (hns : ∀ n ∈ ns, IsField n) :
    Ensures ((definer file policy).walkAll nodes) s
      (fun _ => Progress policy p start (declarations ++ ns.map (home, ·)) usings returnings)
      (fun e _ => e.IsFailureOr .pictureSize) := by
  cases hunder with
  | absent => simpa using h
  | present id location =>
    have hwalk : (definer file policy).walkAll [⟨id, heading, location, ns⟩] = (do
        modify fun s => { s with home? := some home }
        (definer file policy).walkAll ns) := by
      rw [Visitor.walkAll_singleton]
      cases home <;> cases heading <;> cases hheading <;> exact Visitor.walk_of_leave rfl
    rw [hwalk, ensures_bind, ensures_modify]
    exact ensures_walk_fields file (h.atHome (some home)) rfl hns

/-- Walking a parameter list, if it is there, adds its names to the signature. -/
theorem ensures_walk_parameters (list : Signature) {heading : Payload} {nodes names : List Node}
    (hunder : Under heading nodes names) (hnames : ∀ n ∈ names, IsName n)
    (henter : ∀ n : Node, n.payload = heading → (definer file policy).enter n =
      defineParameters file list n ∧ (definer file policy).leave n = pure ()) :
    Ensures ((definer file policy).walkAll nodes) s
      (fun _ => Progress policy p start declarations
        (usings ++ added list .usings (names.filterMap identifier?))
        (returnings ++ added list .returnings (names.filterMap identifier?)))
      (fun e _ => e.IsFailure) := by
  cases hunder with
  | absent =>
    have hnil : ∀ target, added list target [] = [] := fun target => by simp [added]
    simpa [hnil] using h
  | present id location =>
    obtain ⟨hdefine, hleave⟩ := henter ⟨id, heading, location, names⟩ rfl
    have hinert : (definer file policy).walkAll names = pure () :=
      (definer_inert file policy [.identifier] (by decide)).walkAll fun n hn =>
        (hnames n hn).tags (by decide)
    rw [Visitor.walkAll_singleton, Visitor.walk_of_leave hleave, hdefine, hinert, bind_pure_unit]
    exact ensures_defineParameters file h list hnames

end progress

/-- The declarations of a program, each with its section. -/
def declarationsOf (frame : ProgramFrame) : List (Section × Node) :=
  frame.working.map (.workingStorage, ·) ++ frame.linkage.map (.linkage, ·)

/-- Walking the data division declares all fields. -/
theorem ensures_walk_data (h : Progress policy p start [] usings returnings s) :
    Ensures ((definer file policy).walkAll frame.data) s
      (fun _ => Progress policy p start (declarationsOf frame) usings returnings)
        (fun e _ => e.IsFailureOr .pictureSize) := by
  have hdata := frame.isData
  have hworking := frame.isWorking
  have hlinkage := frame.isLinkage
  unfold declarationsOf
  generalize frame.data = data, frame.working = working, frame.linkage = linkage at *
  cases hdata with
  | absent => simpa using h
  | @present id location workings linkages _ _ hworkings hlinkages =>
    rw [Visitor.walkAll_singleton, Visitor.walk_of_leave rfl, Visitor.walkAll_append]
    change Ensures (pure () >>= fun _ => _) _ _ _
    rw [pure_bind]
    refine (ensures_walk_section file h .workingStorage rfl hworkings hworking).bind ?_
    intro _ t ht
    exact ensures_walk_section file ht .linkage rfl hlinkages hlinkage

/-- Walking the procedure division declares the signature; statements declare nothing. -/
theorem ensures_walk_procedure {shape : ProgramShape}
    (h : Progress policy p start declarations [] [] s) :
    Ensures ((definer file policy).walk (shape.frame.procedure shape.statements)) s
      (fun _ => Progress policy p start declarations (shape.frame.usings.filterMap identifier?)
        (shape.frame.returnings.filterMap identifier?))
      (fun e _ => e.IsFailure) := by
  have hstatements : (definer file policy).walkAll shape.statements = pure () :=
    (definer_inert file policy Tag.callTags (by decide)).walkAll fun n hn =>
      (shape.areStatements n hn).tags
  rw [Visitor.walk_of_leave rfl]
  change Ensures (pure () >>= fun _ => (definer file policy).walkAll
    (shape.frame.usingsNodes ++ (shape.frame.returningsNodes ++ shape.statements))) _ _ _
  rw [pure_bind, Visitor.walkAll_append, Visitor.walkAll_append, hstatements, bind_pure_unit]
  refine (ensures_walk_parameters file h .usings shape.frame.isUsings shape.frame.areUsings ?_).bind
    ?_
  · rintro ⟨id, payload, location, children⟩ rfl
    exact ⟨rfl, rfl⟩
  · intro _ t ht
    refine (ensures_walk_parameters file ht .returnings shape.frame.isReturnings
      shape.frame.areReturnings ?_).imp ?_
    · rintro ⟨id, payload, location, children⟩ rfl
      exact ⟨rfl, rfl⟩
    · intro _ u hu
      simpa [added] using hu

/-- Walking what is inside a program declares its fields and its signature. -/
theorem ensures_walk_inside {shape : ProgramShape} (h : Progress policy p start [] [] [] s) :
    Ensures ((definer file policy).walkAll shape.node.children) s
      (fun _ => Progress policy p start (declarationsOf shape.frame)
        (shape.frame.usings.filterMap identifier?) (shape.frame.returnings.filterMap identifier?))
      (fun e _ => e.IsFailureOr .pictureSize) := by
  have hname : (definer file policy).walkAll [shape.frame.name] = pure () :=
    (definer_inert file policy [.identifier] (by decide)).walkAll fun n hn => by
      rw [List.mem_singleton.mp hn]
      exact shape.frame.isName.tags (by decide)
  have hexports : (definer file policy).walkAll shape.frame.exports = pure () :=
    (definer_inert file policy [.exportMark] (by decide)).walkAll
      (shape.frame.isExport.tags (by decide) (by simp))
  have hends : (definer file policy).walkAll shape.ends = pure () := by
    obtain ⟨marker, hends⟩ := shape.areEnds
    exact (definer_inert file policy [.endProgram] (by decide)).walkAll
      (hends.tags (by simp [Payload.tag]) (by simp))
  change Ensures ((definer file policy).walkAll ([shape.frame.name] ++ (shape.frame.exports ++
    (shape.frame.data ++ shape.frame.procedure shape.statements :: shape.ends)))) _ _ _
  rw [Visitor.walkAll_append, hname, pure_bind, Visitor.walkAll_append, hexports, pure_bind,
    Visitor.walkAll_append, Visitor.walkAll_cons, hends, bind_pure_unit, ensures_bind]
  refine (ensures_walk_data file h).imp ?_
  intro _ t ht
  exact (ensures_walk_procedure file ht).mono (fun _ _ h => h) fun _ _ he => Or.inl he

end steps

/-! ### Programs and modules -/

/-- A program is declared as its frame says. -/
structure Declared (policy : FractionPolicy) (g : Globals) (chunk : ChunkId) (p : ProgramId)
    (frame : ProgramFrame) : Prop where
  header_eq : header (g.program p) = (frame.nameText, chunk, !frame.exports.isEmpty)
  fields : HasFields policy g p (declarationsOf frame)
  signature :
    HasSignature g p (frame.usings.filterMap identifier?) (frame.returnings.filterMap identifier?)

theorem Declared.keep (h : Declared policy g chunk q frame) (hkeep : Keeps g g' p) (hne : q ≠ p) :
    Declared policy g' chunk q frame := by
  refine ⟨?_, h.fields.keep hkeep hne, h.signature.keep h.fields hkeep hne⟩
  rw [hkeep.program_eq q hne h.fields.lt]
  exact h.header_eq

theorem Declared.name_eq (h : Declared policy g chunk p frame) :
    (g.program p).name = frame.nameText :=
  congrArg Prod.fst h.header_eq

/-- A chunk has the programs of some frames, in their order, and finds them by their names. -/
structure DeclaredModule (policy : FractionPolicy) (g : Globals) (b : Bindings) (chunk : ChunkId)
    (ps : List ProgramId) (frames : List ProgramFrame) : Prop where
  programs_eq : (g.chunk chunk).programs.toList = ps
  declared : List.Forall₂ (Declared policy g chunk) ps frames
  bound : List.Forall₂ (fun p (frame : ProgramFrame) => b.programs[frame.id]? = some p) ps frames
  chunkProgram?_iff : ∀ name q, g.chunkProgram? chunk name = some q ↔ q ∈ ps ∧
    (g.program q).name = name
  nodup : ps.Nodup

theorem DeclaredModule.lt (h : DeclaredModule policy g b chunk ps frames) :
    ∀ q ∈ ps, q.index < g.programs.size := by
  intro q hq
  obtain ⟨frame, _, hdeclared⟩ := exists_of_forall₂_left h.declared hq
  exact hdeclared.fields.lt

/-- Every frame has its program. -/
theorem DeclaredModule.exists_program (h : DeclaredModule policy g b chunk ps frames)
    (hframe : frame ∈ frames) :
    ∃ p ∈ ps, Declared policy g chunk p frame ∧ b.programs[frame.id]? = some p := by
  have hdeclared := h.declared
  have hbound := h.bound
  clear h
  induction hdeclared with
  | nil => cases hframe
  | cons hp _ ih =>
    cases hbound with
    | cons hb hbound =>
      rcases List.mem_cons.mp hframe with rfl | hframe
      · exact ⟨_, List.mem_cons_self, hp, hb⟩
      · obtain ⟨p, hmem, hboth⟩ := ih hframe hbound
        exact ⟨p, List.mem_cons_of_mem _ hmem, hboth⟩

/-- One more program at the end. -/
theorem DeclaredModule.add {b b' : Bindings} (h : DeclaredModule policy g b chunk ps frames)
    (hp : p = ⟨g.programs.size⟩) (hkeep : Keeps g g' p)
    (hdeclared : Declared policy g' chunk p frame)
    (hprograms : (g'.chunk chunk).programs = (g.chunk chunk).programs.push p)
    (hfind : ∀ other, g'.chunkProgram? chunk other = if frame.nameText = other then some p
      else g.chunkProgram? chunk other) (hfresh : g.chunkProgram? chunk frame.nameText = none)
    (hbindings : b'.programs = b.programs.insert frame.id p) (hid : frame.id ∉ frames.map (·.id)) :
    DeclaredModule policy g' b' chunk (ps ++ [p]) (frames ++ [frame]) := by
  -- the new program has the next free number, so it is none of the earlier ones
  have hne : ∀ q ∈ ps, q ≠ p := by
    rintro q hq rfl
    have hlt := h.lt q hq
    rw [hp] at hlt
    exact absurd hlt (Nat.lt_irrefl _)
  have hname : ∀ q ∈ ps, (g'.program q).name = (g.program q).name :=
    fun q hq => by rw [hkeep.program_eq q (hne q hq) (h.lt q hq)]
  refine ⟨?_, List.rel_append ?_ (.cons hdeclared .nil), List.rel_append ?_ (.cons ?_ .nil), ?_, ?_⟩
  · rw [hprograms, Array.toList_push, h.programs_eq]
  · refine List.forall₂_iff_zip.mpr ⟨h.declared.length_eq, fun {q frame} hmem => ?_⟩
    exact (List.forall₂_zip h.declared hmem).keep hkeep (hne q (List.of_mem_zip hmem).1)
  · refine List.forall₂_iff_zip.mpr ⟨h.bound.length_eq, fun {q other} hmem => ?_⟩
    have hother : frame.id ≠ other.id := fun heq =>
      hid (heq ▸ List.mem_map_of_mem (List.of_mem_zip hmem).2)
    rw [hbindings, Std.TreeMap.getElem?_insert, if_neg (by simpa using hother)]
    exact List.forall₂_zip h.bound hmem
  · rw [hbindings, Std.TreeMap.getElem?_insert_self]
  · intro name q
    rw [hfind, List.mem_append, List.mem_singleton]
    by_cases heq : frame.nameText = name
    · rw [if_pos heq]
      constructor
      · intro hq
        obtain rfl := Option.some.inj hq
        exact ⟨Or.inr rfl, hdeclared.name_eq.trans heq⟩
      · rintro ⟨hq | rfl, hqname⟩
        · -- an earlier program of this name would have been a conflict
          rw [hname q hq] at hqname
          have hfound := (h.chunkProgram?_iff name q).mpr ⟨hq, hqname⟩
          rw [← heq, hfresh] at hfound
          cases hfound
        · rfl
    · rw [if_neg heq, h.chunkProgram?_iff]
      constructor
      · rintro ⟨hq, hqname⟩
        exact ⟨Or.inl hq, (hname q hq).trans hqname⟩
      · rintro ⟨hq | rfl, hqname⟩
        · exact ⟨hq, (hname q hq).symm.trans hqname⟩
        · exact absurd (hdeclared.name_eq.symm.trans hqname) heq
  · rw [List.nodup_append]
    exact ⟨h.nodup, by simp,
      fun q hq other hother => by rw [List.mem_singleton.mp hother]; exact hne q hq⟩

theorem child?_exportMark (shape : ProgramShape) :
    (shape.node.child? .exportMark).isSome = !shape.frame.exports.isEmpty := by
  have hhead : shape.node.child? .exportMark = (shape.node.childrenOf .exportMark).head? :=
    List.head?_filter.symm
  rw [hhead, ProgramShape.node, shape.frame.childrenOf_node shape.tag_ends]
  cases shape.frame.exports <;> rfl

/-- A program that has just been declared is empty. -/
theorem progress_begun {s : State} {exported : Bool} {location : Location}
    (hlt : p.index < s.globals.programs.size)
    (hprogram : s.globals.program p = ProgramScope.declare name chunk exported location)
    (hcurrent : s.program? = some p) : Progress policy p s [] [] [] s := by
  have hfields : (s.globals.program p).fields = #[] := by rw [hprogram]; rfl
  have husings : (s.globals.program p).usings = #[] := by rw [hprogram]; rfl
  have hreturnings : (s.globals.program p).returnings = #[] := by rw [hprogram]; rfl
  have hmember : ∀ name, (s.globals.program p).member? name = none := by
    intro name
    rw [hprogram]
    simp [ProgramScope.member?, ProgramScope.declare]
  have hfield : ∀ name, (s.globals.program p).field? name = none := by
    intro name
    rw [ProgramScope.field?, hmember]
  refine ⟨⟨hcurrent, rfl, rfl, rfl, rfl, Keeps.refl _ _⟩,
    ⟨hlt, ?_, ?_, ?_, fun name _ => hmember name⟩, ⟨?_, ?_, ?_, ?_⟩⟩
  · simp [hfields]
  · simp [hfields]
  · simp [hfields, hfield]
  · simp [husings]
  · simp [hreturnings]
  · simp [husings, hreturnings]
  · simp [husings, hreturnings]

theorem keeps_addProgram (g : Globals) (scope : ProgramScope) :
    Keeps g (g.addProgram scope).2 ⟨g.programs.size⟩ where
  program_eq := by
    intro q hne hq
    rw [Globals.addProgram_program, if_neg (by omega)]
  field_eq := fun f _ => Globals.addProgram_field g scope f
  programs_le := by rw [Globals.addProgram_size_programs]; omega
  fields_le := by rw [Globals.addProgram_fields]

/-- Where nothing is in conflict, no program of the file has the name yet. -/
theorem chunkProgram?_of_conflict?_eq_none {file name : String} {exported : Bool}
    (h : ∀ place, conflict? g file chunk name exported = some place → False) :
    g.chunkProgram? chunk name = none := by
  cases hfound : g.chunkProgram? chunk name with
  | none => rfl
  | some previous => exact (h _ (by rw [conflict?, hfound])).elim

/-- Declaring one more program of a file. -/
theorem ensures_walk_program (file : String) (shape : ProgramShape)
    {s : State} (hchunk : s.chunk? = some chunk) (hlt : chunk.index < s.globals.chunks.size)
    (hmodule : DeclaredModule policy s.globals s.bindings chunk ps frames)
    (hid : shape.frame.id ∉ frames.map (·.id)) :
    Ensures ((definer file policy).walk shape.node) s
      (fun _ s' => s'.chunk? = some chunk ∧ chunk.index < s'.globals.chunks.size ∧ ∃ p,
        DeclaredModule policy s'.globals s'.bindings chunk (ps ++ [p]) (frames ++ [shape.frame]))
      (fun e _ => e.IsFailureOr .pictureSize) := by
  rw [Visitor.walk_eq]
  change Ensures (defineProgram file shape.node >>= fun _ =>
    (definer file policy).walkAll shape.node.children >>= fun _ => modify fun s =>
    { s with program? := none, home? := none }) _ _ _
  rw [ensures_bind]
  unfold defineProgram
  simp only [ensures_bind, ensures_get, hchunk, ensures_require_some]
  split
  · exact Or.inl (isFailure_fault ..)
  · next hconflict =>
    simp only [ensures_bind, ensures_onGlobals, ensures_modify]
    have hname : shape.node.name = shape.frame.nameText := shape.frame.name_node
    rw [child?_exportMark, hname] at hconflict ⊢
    -- only the name and the chunk of the new program matter from here on
    generalize hscope : ProgramScope.declare shape.frame.nameText chunk
      (!shape.frame.exports.isEmpty) shape.node.nameLocation = scope
    have howner : scope.owner = chunk := by rw [← hscope]; rfl
    have hscopeName : scope.name = shape.frame.nameText := by rw [← hscope]; rfl
    have hprogram : (s.globals.addProgram scope).2.program ⟨s.globals.programs.size⟩ = scope := by
      rw [Globals.addProgram_program, if_pos rfl]
    have hchunkOf : (s.globals.addProgram scope).2.chunk chunk =
        { s.globals.chunk chunk with
          programs := (s.globals.chunk chunk).programs.push ⟨s.globals.programs.size⟩
          table := (s.globals.chunk chunk).table.define scope.name
            (.program ⟨s.globals.programs.size⟩) } := by
      rw [Globals.addProgram_chunk, if_pos ⟨by rw [howner], hlt⟩]
    have hfresh := chunkProgram?_of_conflict?_eq_none hconflict
    refine (ensures_walk_inside file
      (progress_begun (by simp) (hprogram.trans hscope.symm) rfl)).imp ?_
    intro _ t ht
    -- the walk inside of the program leaves the chunks alone
    have hchunks : ∀ c, t.globals.chunk c = (s.globals.addProgram scope).2.chunk c := fun c => by
      rw [Globals.chunk, ht.inside.chunks_eq]
      rfl
    refine ⟨ht.inside.chunk?_eq.trans hchunk, ?_, ⟨s.globals.programs.size⟩, ?_⟩
    · rw [ht.inside.chunks_eq]
      simpa using hlt
    · refine hmodule.add rfl ((keeps_addProgram s.globals scope).trans ht.inside.keeps)
        ⟨?_, ht.fields, ht.signature⟩ ?_ ?_ hfresh ?_ hid
      · rw [ht.inside.header_eq]
        exact (congrArg header hprogram).trans (by rw [← hscope]; rfl)
      · rw [hchunks, hchunkOf]
      · intro other
        rw [Globals.chunkProgram?, Globals.chunkProgram?, hchunks, hchunkOf, Table.get?_define,
          hscopeName]
        by_cases hother : shape.frame.nameText = other
        · simp only [if_pos hother]
        · simp only [if_neg hother]
      · exact ht.inside.programs_eq

/-- The programs of a file have different identities. -/
theorem nodup_frame_ids (h : m.node.UniqueIds) : (m.programs.map (·.frame.id)).Nodup := by
  refine List.Nodup.sublist ?_ h
  have hids : m.node.ids = m.id :: (m.name.ids ++ Node.allIds (m.programs.map (·.node))) := by
    rw [Node.ids_eq]
    rfl
  rw [hids]
  refine List.Sublist.cons _ (List.Sublist.trans ?_ (List.sublist_append_right _ _))
  induction m.programs with
  | nil => exact List.Sublist.refl _
  | cons p rest ih =>
    rw [List.map_cons, List.map_cons, Node.allIds_cons, Node.ids_eq]
    exact List.Sublist.cons_cons _ (ih.trans (List.sublist_append_right _ _))

/-- Declaring a whole file. -/
theorem ensures_visit_definer (file : String) (policy : FractionPolicy)
    (hids : (m.programs.map (·.frame.id)).Nodup) (s : State) :
    Ensures ((definer file policy).visit m.node) s
      (fun _ s' => ∃ chunk ps, s'.chunk? = some chunk ∧
        DeclaredModule policy s'.globals s'.bindings chunk ps (m.programs.map (·.frame)))
      (fun e _ => e.IsFailureOr .pictureSize) := by
  rw [Visitor.visit_module m (definer_inert file policy [.identifier] (by decide)) rfl rfl,
    ensures_bind]
  change Ensures (defineModule file m.node) _ _ _
  unfold defineModule
  simp only [ensures_bind, ensures_onGlobals, ensures_modify]
  generalize hg :
    ((s.globals.addModule m.node.name).2.addChunk (s.globals.addModule m.node.name).1 file).2 = g
  have hid :
      ((s.globals.addModule m.node.name).2.addChunk (s.globals.addModule m.node.name).1 file).1 =
      ⟨s.globals.chunks.size⟩ := by simp
  rw [hid]
  have hsize : g.chunks.size = s.globals.chunks.size + 1 := by rw [← hg]; simp
  have hchunk : g.chunk ⟨s.globals.chunks.size⟩ =
      ⟨file, (s.globals.addModule m.node.name).1, #[], Table.empty⟩ := by
    rw [← hg, Globals.addChunk_chunk, if_pos (by simp)]
  -- the programs are declared one after the other
  refine (ensures_forM (fun done t => t.chunk? = some ⟨s.globals.chunks.size⟩ ∧
    s.globals.chunks.size < t.globals.chunks.size ∧ ∃ ps, DeclaredModule policy t.globals t.bindings
    ⟨s.globals.chunks.size⟩ ps (done.map (·.frame))) ?_ ?_).imp ?_
  · refine ⟨rfl, by rw [hsize]; omega, [], ?_, .nil, .nil, ?_, List.nodup_nil⟩
    · rw [hchunk]
    · intro name q
      rw [Globals.chunkProgram?, hchunk]
      simp
  · rintro done p rest t hsplit ⟨hcurrent, hlt, ps, hmodule⟩
    have hfresh : p.frame.id ∉ (done.map (·.frame)).map (·.id) := by
      rw [hsplit, List.map_append, List.map_cons] at hids
      intro hmem
      rw [List.map_map] at hmem
      exact (List.nodup_append.mp hids).2.2 _ hmem _ List.mem_cons_self rfl
    refine (ensures_walk_program file p hcurrent hlt hmodule hfresh).imp ?_
    rintro _ u ⟨hcurrent, hlt, q, hmodule⟩
    exact ⟨hcurrent, hlt, ps ++ [q], by rw [List.map_append]; exact hmodule⟩
  · rintro _ t ⟨hcurrent, _, ps, hmodule⟩
    exact ⟨_, ps, hcurrent, hmodule⟩

/-! ### Pictures that are too large -/

/-- Some field of a tree has more places in its picture than a number of 32 bits can hold. -/
def Oversized (root : Node) : Prop :=
  ∃ n ∈ root.nodes, n.payload = .field ∧ overflows (Clauses.ofNode n) = true

/-- Declaring breaks over the size of a picture only at such a field. -/
theorem oversized_of_visit (file : String) (policy : FractionPolicy) (root : Node) (s : State) :
    Ensures ((definer file policy).visit root) s (fun _ _ => True)
      (fun e _ => e = .broken .pictureSize → Oversized root) := by
  rw [visit_eq, ← Visitor.walkAll_singleton]
  refine (keeps_walkAll (J := fun _ => True) (fun _ _ _ _ _ _ _ _ => trivial) trivial).mono
    (fun _ _ _ => trivial) ?_
  rintro e t ⟨-, k, hk, n, hn, hstop⟩ he
  obtain rfl := List.mem_singleton.mp hk
  exact ⟨n, hn, hstop he⟩

/-! ### Usage types -/

/-- Some fields got their usage as their type, and nothing else changed. -/
structure Retyped (g g' : Globals) : Prop where
  table_eq : g'.table = g.table
  chunks_eq : g'.chunks = g.chunks
  programs_eq : g'.programs = g.programs
  fields_size : g'.fields.size = g.fields.size
  field_eq : ∀ f, g'.field f = g.field f ∨
    g'.field f = { g.field f with type? := some (g.field f).usage }

theorem Retyped.refl (g : Globals) : Retyped g g :=
  ⟨rfl, rfl, rfl, rfl, fun _ => Or.inl rfl⟩

theorem Retyped.trans {g'' : Globals} (h : Retyped g g') (h' : Retyped g' g'') : Retyped g g'' where
  table_eq := h'.table_eq.trans h.table_eq
  chunks_eq := h'.chunks_eq.trans h.chunks_eq
  programs_eq := h'.programs_eq.trans h.programs_eq
  fields_size := h'.fields_size.trans h.fields_size
  field_eq := by
    intro f
    rcases h.field_eq f with heq | heq <;> rcases h'.field_eq f with heq' | heq' <;> rw [heq', heq]
    · exact Or.inl rfl
    · exact Or.inr rfl
    · exact Or.inr rfl
    · exact Or.inr rfl

theorem Retyped.modifyField (hg : g.Consistent) {type : Usage}
    (htype : g.table.get? (g.field id).usage.tag = some (.usage type)) :
    Retyped g (g.modifyField id fun f => { f with type? := some type }) := by
  refine ⟨rfl, rfl, rfl, Array.size_modify, fun f => ?_⟩
  rw [Globals.field_modifyField]
  split
  · next hcond =>
    have hid : id = f := by
      cases id
      cases f
      exact congrArg FieldId.mk hcond.1
    subst hid
    rw [hg.usage_eq _ _ htype]
    exact Or.inr rfl
  · exact Or.inl rfl

theorem ensures_attachType (file : String) (b : Bindings) (n : Node) (hg : g.Consistent) :
    Ensures (attachType file b n) g (fun _ => Retyped g)
      (fun e g' => e.IsFailure ∧ Retyped g g') := by
  unfold attachType
  split
  · simp only [ensures_bind, ensures_get]
    split
    · next type htype => exact Retyped.modifyField hg htype
    · exact ⟨isFailure_fault .., Retyped.refl g⟩
  · exact Retyped.refl g

/-- Looking up usages only changes types, and a stop is a failure. -/
theorem ensures_usageTypes (root : Node) {run : Run} (hrun : run.Sound) :
    Ensures (usageTypes root) run
      (fun root' run' => root' = root ∧ run' = { run with globals := run'.globals } ∧
        Retyped run.globals run'.globals)
      (fun e _ => e.IsFailure) := by
  unfold usageTypes Pass.ofWalk
  simp only [ensures_bind, ensures_get, ensures_onPart, ensures_pure]
  have hleave : ∀ m ∈ root.nodes, (⟨attachType run.file run.bindings, fun _ => pure (), pure ()⟩ :
      Visitor Stop Globals).leave m = pure () := fun _ _ => rfl
  rw [Visitor.visit, Visitor.walk_eq_forM hleave]
  change Ensures (root.nodes.forM (attachType run.file run.bindings) >>= fun _ => pure ()) _ _ _
  rw [bind_pure_unit]
  refine (ensures_forM (fun _ g => g.Consistent ∧ Retyped run.globals g)
    ⟨hrun.consistent, Retyped.refl _⟩ ?_).imp ?_
  · rintro done n rest g hsplit ⟨hg, hretyped⟩
    exact ((consistent_attachType run.file run.bindings n hg).and
      (ensures_attachType run.file run.bindings n hg)).mono
      (fun _ _ h => ⟨h.1, hretyped.trans h.2⟩) (fun _ _ h => h.2.1)
  · rintro _ g ⟨_, hretyped⟩
    exact ⟨trivial, trivial, hretyped⟩

theorem IsFieldOf.retype (h : IsFieldOf policy g f d) (hg : Retyped g g') :
    IsFieldOf policy g' f d := by
  obtain ⟨field, hread, hfield⟩ := h.read
  refine ⟨by rw [hg.fields_size]; exact h.lt, field, hread, ?_⟩
  rcases hg.field_eq f with heq | heq <;> rcases hfield with hfield | hfield <;> rw [heq, hfield]
  · exact Or.inl rfl
  · exact Or.inr rfl
  · exact Or.inr rfl
  · exact Or.inr rfl

theorem Retyped.program_eq (hg : Retyped g g') (p : ProgramId) : g'.program p = g.program p := by
  rw [Globals.program, hg.programs_eq]
  rfl

/-- The parts of a field that its type does not touch. -/
theorem Retyped.name_eq (hg : Retyped g g') (f : FieldId) :
    (g'.field f).name = (g.field f).name ∧ (g'.field f).home = (g.field f).home ∧
      (g'.field f).default? = (g.field f).default? := by
  rcases hg.field_eq f with heq | heq <;> rw [heq] <;> exact ⟨rfl, rfl, rfl⟩

theorem Declared.retype (h : Declared policy g chunk p frame) (hg : Retyped g g') :
    Declared policy g' chunk p frame := by
  have hprogram := hg.program_eq p
  have hsignature :=
    h.signature.of_eq (by rw [hprogram]) (by rw [hprogram]) (by simp [hprogram]) fun f _ =>
      hg.name_eq f
  refine ⟨hprogram ▸ h.header_eq, ⟨hg.programs_eq ▸ h.fields.lt, ?_, ?_, ?_, ?_⟩, hsignature⟩ <;>
    rw [hprogram]
  · exact h.fields.fields.imp fun _ _ hd => hd.retype hg
  · exact h.fields.nodup
  · intro name f
    rw [(hg.name_eq f).1]
    exact h.fields.field?_iff name f
  · exact h.fields.member?_eq_none

theorem DeclaredModule.retype (h : DeclaredModule policy g b chunk ps frames) (hg : Retyped g g') :
    DeclaredModule policy g' b chunk ps frames := by
  have hchunk : g'.chunk chunk = g.chunk chunk := by
    rw [Globals.chunk, hg.chunks_eq]
    rfl
  refine ⟨hchunk ▸ h.programs_eq, h.declared.imp fun _ _ hd => hd.retype hg, h.bound, ?_, h.nodup⟩
  intro name q
  rw [Globals.chunkProgram?, hchunk, hg.program_eq]
  exact h.chunkProgram?_iff name q

/-! ### The declaring passes -/

/-- A run in which the file of some frames is declared. -/
structure DeclaredRun (run : Run) (chunk : ChunkId) (ps : List ProgramId)
    (frames : List ProgramFrame) : Prop where
  chunk?_eq : run.chunk? = some chunk
  module : DeclaredModule run.options.policy run.globals run.bindings chunk ps frames

/-- What a run was asked to do, which no pass changes. -/
def settings (run : Run) : String × Option String × Options :=
  (run.file, run.output?, run.options)

/-- Declaring a grammatical file succeeds or fails, and if it succeeds the file is declared. -/
theorem ensures_define (hids : m.node.UniqueIds) (run : Run) :
    Ensures (define m.node) run
      (fun root run' => root = m.node ∧ run'.nextId = run.nextId ∧ settings run' = settings run ∧
        ∃ chunk ps, DeclaredRun run' chunk ps (m.programs.map (·.frame)))
      (fun e _ => e.IsFailure ∨ Oversized m.node) := by
  unfold define Pass.ofWalk
  simp only [ensures_bind, ensures_get, ensures_onPart, ensures_pure]
  refine ((ensures_visit_definer run.file run.options.policy (nodup_frame_ids hids) _).and
    (oversized_of_visit run.file run.options.policy m.node _)).mono ?_ fun _ _ he =>
    he.1.imp (fun h => h) he.2
  rintro _ s ⟨⟨chunk, ps, hchunk, hmodule⟩, -⟩
  exact ⟨trivial, trivial, rfl, chunk, ps, hchunk, hmodule⟩

/-- What the three declaring passes leave: the tree without end markers, a declared file, and fresh
identities. -/
structure AfterDeclaring (m : ModuleShape) (start : Run) (root : Node) (run : Run) : Prop where
  root_eq : root = m.dropEnds.node
  settings_eq : settings run = settings start
  sound : run.Sound
  declared : ∃ chunk ps, DeclaredRun run chunk ps (m.dropEnds.programs.map (·.frame))
  unique : root.UniqueIds
  free : ∀ x ∈ root.ids, x < run.nextId

/-- A run begins with a sound scope, and every node of the tree has an identity of its own. -/
structure Numbered (m : ModuleShape) (run : Run) : Prop where
  unique : m.node.UniqueIds
  sound : run.Sound
  free : ∀ x ∈ m.node.ids, x < run.nextId

/-- So it is with the tree of a grammatical module, once its nodes were numbered. -/
theorem exists_numbered {s : Session} (hs : s.Sound) {root : Node}
    (hgrammar : root.grammatical = true)
    (hmodule : root.tag = .module) (name : String) (output? : Option String) :
    ∃ m : ModuleShape, (root.renumber 0).1 = m.node ∧
      Numbered m (s.beginRun name output? (root.renumber 0).2) := by
  obtain ⟨m, hm⟩ := exists_moduleShape ((root.grammatical_renumber 0).trans hgrammar)
    ((root.tag_renumber 0).trans hmodule)
  have hids := root.uniqueIds_renumber 0
  have hfree := root.lt_of_mem_ids_renumber 0
  rw [hm] at hids hfree
  exact ⟨m, hm, hids, ⟨hs.consistent, fun c hc => by cases hc⟩, hfree⟩

/-- The passes that declare. -/
theorem runAll_declaring (root : Node) : runAll (Pass.core.take 3) root = (do
    let root ← define root
    let root ← endMarkers root
    usageTypes root) := by
  change (define root >>= fun root => endMarkers root >>= fun root => usageTypes root >>= pure) = _
  simp only [bind_pure]

/-- What the walk over a file comes to, the passes that declare come to, if the types of fields do
not matter to it. -/
theorem comesTo_declaring {J : State → Prop} (hJ : KeptByTypes J) {run : Run} {root : Node}
    (hvisit : Ensures ((definer run.file run.options.policy).visit root) (.ofRun run) (fun _ => J)
      (fun _ => J)) :
    Ensures (runAll (Pass.core.take 3) root) run (fun _ => ComesTo J run)
      (fun _ => ComesTo J run) := by
  rw [runAll_declaring]
  refine (comesTo_define hvisit).bind ?_
  rintro declared _ ⟨s, hs, rfl⟩
  rw [ensures_bind]
  -- the end markers change nothing in a run
  have hmarkers : Ensures (endMarkers declared) (s.toRun run) (fun _ t => t = s.toRun run)
      (fun _ t => t = s.toRun run) := by
    unfold endMarkers
    rw [ensures_bind, ensures_get, ensures_onPart, ensures_iff]
    exact ⟨fun _ _ _ => rfl, fun _ _ _ => rfl⟩
  refine hmarkers.mono ?_ fun _ _ ht => ⟨s, hs, ht⟩
  rintro marked _ rfl
  exact comesTo_usageTypes hJ marked hs

theorem ensures_declaring {run : Run} (h : Numbered m run) :
    Ensures (runAll (Pass.core.take 3) m.node) run (AfterDeclaring m run)
      (fun e _ => e.IsFailure ∨ Oversized m.node) := by
  rw [runAll_declaring, ensures_bind]
  refine ((ensures_define h.unique run).and (sound_define m.node h.sound)).mono ?_ fun _ _ he =>
    he.1
  rintro _ run₁ ⟨⟨rfl, hnext, hsettings, chunk, ps, hdeclared⟩, hsound⟩
  rw [ensures_bind]
  refine (ensures_endMarkers m run₁).mono ?_ fun _ _ he => Or.inl he.1
  rintro _ run₂ ⟨rfl, hsame⟩
  -- dropping the end markers changes the tree and nothing else
  subst hsame
  refine ((ensures_usageTypes m.dropEnds.node hsound).and
    (sound_usageTypes m.dropEnds.node hsound)).mono ?_ fun _ _ he => Or.inl he.1
  rintro _ run' ⟨⟨rfl, hrun', hretyped⟩, hsound'⟩
  have hoptions : run'.options = run₂.options := by rw [hrun']
  have hbindings : run'.bindings = run₂.bindings := by rw [hrun']
  refine ⟨rfl, ?_, hsound', ⟨chunk, ps, ?_, ?_⟩, h.unique.sublist m.ids_dropEnds, ?_⟩
  · rw [hrun', ← hsettings]
    rfl
  · rw [hrun']
    exact hdeclared.chunk?_eq
  · rw [m.frames_dropEnds, hoptions, hbindings]
    exact hdeclared.module.retype hretyped
  · intro x hx
    rw [hrun', hnext]
    exact h.free x (m.ids_dropEnds.subset hx)

/-! ### What is known about a declared field -/

theorem initialValue?_isSome {field : Field} (htype : field.type = field.usage)
    (hcomp4 : field.usage = .comp4 → field.comp4?.isSome) :
    (Generation.initialValue? field).isSome := by
  unfold Generation.initialValue?
  rw [htype]
  split
  · split <;> rfl
  · next husage => simpa using hcomp4 husage
  · split <;> rfl
  · rfl

/-- What the scope knows of a field, as syntax. -/
def fieldSyntax (g : Globals) (f : FieldId) : Syntax.Field :=
  ⟨(g.field f).name, (g.field f).usage, (Generation.initialValue? (g.field f)).getD default⟩

/-- A declared field has the section, the name, the usage and the initial value that its declaration
gives it. -/
theorem IsFieldOf.eq_ofNode (h : IsFieldOf policy g f d) :
    (g.field f).home = d.1 ∧ Generation.initialValue? (g.field f) = some (fieldSyntax g f).initial ∧
      fieldSyntax g f = Syntax.Field.ofNode policy d.1 d.2 := by
  obtain ⟨field, hread, hfield⟩ := h.read
  obtain ⟨hname, hhome, htype?, husage, hcomp4⟩ := readField_ok hread
  have htype : field.type = field.usage := by simp [Field.type, htype?]
  obtain ⟨value, hvalue⟩ := Option.isSome_iff_exists.mp (initialValue?_isSome htype hcomp4)
  -- noting the type of a field does not change what it starts with
  have hknown : (g.field f).name = field.name ∧ (g.field f).usage = field.usage ∧
      (g.field f).home = field.home ∧ Generation.initialValue? (g.field f) = some value := by
    rcases hfield with hfield | hfield
    · rw [hfield]
      exact ⟨rfl, rfl, rfl, hvalue⟩
    · have hsame : Generation.initialValue? { field with type? := some field.usage } =
          Generation.initialValue? field := by
        unfold Generation.initialValue?
        rw [htype]
        rfl
      rw [hfield, hsame]
      exact ⟨rfl, rfl, rfl, hvalue⟩
  obtain ⟨hname', husage', hhome', hinitial⟩ := hknown
  refine ⟨hhome'.trans hhome, ?_, ?_⟩
  · simp [fieldSyntax, hinitial]
  · simp [fieldSyntax, Syntax.Field.ofNode, hinitial, hname', husage', hname, husage, hread,
      Except.toOption, hvalue]

end Declaration

end CobolCompiler
