import CobolCompiler.Proofs.Arena
import CobolCompiler.Proofs.ConstantPool
import CobolCompiler.Proofs.FieldClauses
import CobolCompiler.Proofs.ImportTable
import CobolCompiler.Proofs.PendingModule

/-!
# Frames

When a program is opened, each of its fields gets a slot. Working-storage fields go to the
prototype, parameters lie below the frame, and the other linkage fields are pushed on entry, results
first. The slots are given out in three loops over different lists: the fields in the order of
declaration, the parameters, and what is left of the linkage fields.

* The layout of a program lists each of its fields once (`listed_perm`), so slots and fields
  determine each other.
* `Exceeds` says which numbers are too large for a program to be opened. Opening it fails just
  because of these (`ensures_openProgram_limits`).
* `InModule` is what the generator is while it walks a module. Its steps keep the pool and the
  constants in step.
-/

namespace CobolCompiler

open Machine Translation

/-! ### Layouts -/

namespace Translation.FrameLayout

variable {α : Type} {l : FrameLayout α} {slot : Slot} {field field' : α}

/-- All fields of a layout. -/
def listed (l : FrameLayout α) : List α :=
  l.working ++ (l.usings ++ l.locals)

/-- Slots are there for the fields of the layout. -/
theorem At.mem_listed (h : l.At slot field) : field ∈ l.listed := by
  cases h with
  | working i h => exact List.mem_append_left _ (List.mem_of_getElem? h)
  | parameter s k _ h =>
    exact List.mem_append_right _ (List.mem_append_left _ (List.mem_of_getElem? h))
  | pushed s k _ h =>
    exact List.mem_append_right _ (List.mem_append_right _ (List.mem_of_getElem? h))

/-- A slot is that of one field: parameters lie below the frame, and what is pushed does not. -/
theorem At.field_unique (h : l.At slot field) (h' : l.At slot field') : field = field' := by
  cases h with
  | working i h =>
    cases h' with
    | working _ h' => exact Option.some.inj (h.symm.trans h')
  | parameter s k hs h =>
    cases h' with
    | parameter _ k' hs' h' =>
      obtain rfl : k = k' := by omega
      exact Option.some.inj (h.symm.trans h')
    | pushed _ k' hs' _ => omega
  | pushed s k hs h =>
    cases h' with
    | parameter _ k' hs' _ => omega
    | pushed _ k' hs' h' =>
      obtain rfl : k = k' := by omega
      exact Option.some.inj (h.symm.trans h')

/-- In a list without repetitions, an item has one position. -/
theorem position_unique {items : List α} (hnodup : items.Nodup) {i j : Nat}
    (hi : items[i]? = some field) (hj : items[j]? = some field) : i = j := by
  have hlt : i < items.length := (List.getElem?_eq_some_iff.mp hi).1
  exact (List.getElem?_inj hlt hnodup).mp (hi.trans hj.symm)

section nodup

variable (hnodup : l.listed.Nodup) (h : l.At slot field)

include hnodup h

theorem At.of_working {i : Nat} (hi : l.working[i]? = some field) :
    ∃ index : UInt16, index.toNat = i ∧ slot = .field index := by
  obtain ⟨hworking, -, hapart⟩ := List.nodup_append'.mp hnodup
  have hother : field ∉ l.usings ++ l.locals := hapart (List.mem_of_getElem? hi)
  cases h with
  | working j h => exact ⟨j, position_unique hworking h hi, rfl⟩
  | parameter _ _ _ h => exact absurd (List.mem_append_left _ (List.mem_of_getElem? h)) hother
  | pushed _ _ _ h => exact absurd (List.mem_append_right _ (List.mem_of_getElem? h)) hother

theorem At.of_usings {k : Nat} (hk : l.usings[k]? = some field) :
    ∃ offset : Int16, offset.toInt = -((k : Int) + 1) ∧ slot = .frame offset := by
  obtain ⟨-, hframe, hapart⟩ := List.nodup_append'.mp hnodup
  obtain ⟨husings, -, hapart'⟩ := List.nodup_append'.mp hframe
  have hmem : field ∈ l.usings := List.mem_of_getElem? hk
  cases h with
  | working _ h => exact absurd (List.mem_append_left _ hmem) (hapart (List.mem_of_getElem? h))
  | parameter s j hs h =>
    obtain rfl := position_unique husings h hk
    exact ⟨s, hs, rfl⟩
  | pushed _ _ _ h => exact absurd (List.mem_of_getElem? h) (hapart' hmem)

theorem At.of_locals {k : Nat} (hk : l.locals[k]? = some field) :
    ∃ offset : Int16, offset.toInt = k ∧ slot = .frame offset := by
  obtain ⟨-, hframe, hapart⟩ := List.nodup_append'.mp hnodup
  obtain ⟨-, hlocals, hapart'⟩ := List.nodup_append'.mp hframe
  have hmem : field ∈ l.locals := List.mem_of_getElem? hk
  cases h with
  | working _ h => exact absurd (List.mem_append_right _ hmem) (hapart (List.mem_of_getElem? h))
  | parameter _ _ _ h => exact absurd hmem (hapart' (List.mem_of_getElem? h))
  | pushed s j hs h =>
    obtain rfl := position_unique hlocals h hk
    exact ⟨s, hs, rfl⟩

end nodup

end Translation.FrameLayout

namespace Generation

/-! ### The layout of a program -/

section layout

variable {globals : Globals} {p : ProgramId} {count : Nat}
  (h : (globals.program p).Tidy globals.field count)

include h

theorem signature_linkage {f : FieldId}
    (hf : f ∈ (globals.program p).usings.toList ++ (globals.program p).returnings.toList) :
    f ∈ (globals.program p).fields.toList ∧ isWorking globals f = false := by
  obtain ⟨hmem, hhome, -⟩ := h.signature f hf
  exact ⟨hmem, by simp [isWorking, hhome]⟩

/-- The parameters and the fields that are pushed are the linkage fields. -/
theorem frame_perm : ((idLayout globals p).usings ++ (idLayout globals p).locals).Perm
    ((globals.program p).fields.toList.filter fun f => !isWorking globals f) := by
  show ((globals.program p).usings.toList ++ ((globals.program p).returnings.toList ++ _)).Perm _
  rw [← List.append_assoc]
  have hfields := h.nodup
  -- neither list has repetitions, so it is enough that they have the same members
  rw [List.perm_ext_iff_of_nodup _ (hfields.filter _)]
  · intro f
    rw [List.mem_append, List.mem_filter, List.mem_filter]
    by_cases hsignature : f ∈ (globals.program p).usings.toList ++
      (globals.program p).returnings.toList
    · simp [hsignature, signature_linkage h hsignature]
    · have hother : f ∉ (globals.program p).usings ∧ f ∉ (globals.program p).returnings := by
        simpa using hsignature
      simp [hsignature, hother]
  · rw [List.nodup_append']
    refine ⟨h.signature_nodup, hfields.filter _, ?_⟩
    intro f hf hrest
    simp only [List.mem_append, Array.mem_toList_iff] at hf
    simp only [List.mem_filter, Bool.and_eq_true, Bool.not_eq_true', Array.contains_eq_mem,
      decide_eq_false_iff_not] at hrest
    tauto

/-- The layout lists each field of the program once. -/
theorem listed_perm : (idLayout globals p).listed.Perm (globals.program p).fields.toList := by
  show ((globals.program p).fields.toList.filter (isWorking globals) ++ _).Perm _
  exact ((frame_perm h).append_left _).trans (List.filter_append_perm _ _)

/-- What is pushed is every linkage field that is no parameter. -/
theorem length_locals : (idLayout globals p).locals.length =
    ((globals.program p).fields.toList.filter fun f =>
      !isWorking globals f && !(globals.program p).usings.contains f).length := by
  have hnodup : ((idLayout globals p).usings ++ (idLayout globals p).locals).Nodup :=
    (frame_perm h).nodup_iff.mpr (h.nodup.filter _)
  obtain ⟨-, -, hapart⟩ := List.nodup_append'.mp hnodup
  have hlength := ((frame_perm h).filter fun f => !(globals.program p).usings.contains f).length_eq
  have husings : (idLayout globals p).usings.filter
      (fun f => !(globals.program p).usings.contains f) = [] := by
    rw [List.filter_eq_nil_iff]
    intro f hf
    simpa [idLayout] using hf
  have hlocals : (idLayout globals p).locals.filter
      (fun f => !(globals.program p).usings.contains f) = (idLayout globals p).locals := by
    rw [List.filter_eq_self]
    intro f hf
    have hnot : f ∉ (globals.program p).usings.toList := fun husing => hapart husing hf
    simpa using hnot
  rw [List.filter_append, husings, hlocals, List.nil_append, List.filter_filter] at hlength
  rw [hlength]
  congr 1
  apply List.filter_congr
  intro f _
  exact Bool.and_comm _ _

end layout

/-! ### Limits -/

/-- The initial values of the linkage fields among some fields. -/
def linkageValues (globals : Globals) (fs : List FieldId) : List Value :=
  (fs.filter fun f => !isWorking globals f).filterMap fun f => initialValue? (globals.field f)

/-- The values that are not among the constants yet, each once. -/
def unpooled (constants : Array Value) (values : List Value) : List Value :=
  (values.filter fun v => !constants.contains v).eraseDups

/-- There is too much of something for a program to be opened. -/
inductive Exceeds (globals : Globals) (p : ProgramId) (g : Generator) : AssembleError → Prop
  | usings (h : 255 < (globals.program p).usings.size) : Exceeds globals p g .tooManyArguments
  | returnings (h : 255 < (globals.program p).returnings.size) :
      Exceeds globals p g .tooManyArguments
  | prototypes (h : 65536 ≤ g.assembler.built.prototypes.size) :
      Exceeds globals p g .tooManyPrototypes
  | working (h : 65536 < ((globals.program p).fields.toList.filter (isWorking globals)).length) :
      Exceeds globals p g .tooManyFields
  | constants (h : 65536 < g.assembler.built.constants.size + (unpooled g.assembler.built.constants
      (linkageValues globals (globals.program p).fields.toList)).length) :
      Exceeds globals p g .tooManyConstants
  | pushed (h : 32768 < ((globals.program p).fields.toList.filter fun f =>
      !isWorking globals f && !(globals.program p).usings.contains f).length) :
        Exceeds globals p g .tooManySlots

theorem unpooled_concat (constants : Array Value) (values : List Value) (v : Value) :
    unpooled constants (values ++ [v]) =
      if v ∈ constants.toList ++ unpooled constants values then unpooled constants values
      else unpooled constants values ++ [v] := by
  unfold unpooled
  rw [List.filter_append, List.filter_singleton]
  by_cases hv : v ∈ constants
  · simp [hv]
  · simp only [Array.contains_eq_mem, hv, decide_false, Bool.not_false, cond_true]
    rw [Assembler.eraseDups_concat]
    simp [hv]

theorem length_unpooled_le (constants : Array Value) (values more : List Value) :
    (unpooled constants values).length ≤ (unpooled constants (values ++ more)).length := by
  unfold unpooled
  rw [List.filter_append, List.eraseDups_append, List.length_append]
  exact Nat.le_add_right _ _

theorem linkageValues_concat (globals : Globals) (fs : List FieldId) {f : FieldId} {v : Value}
    (hv : initialValue? (globals.field f) = some v) :
    linkageValues globals (fs ++ [f]) =
      if isWorking globals f then linkageValues globals fs
        else linkageValues globals fs ++ [v] := by
  unfold linkageValues
  cases hf : isWorking globals f <;> simp [hf, hv]

variable {g : Generator} {env : Env}

/-- A frame is being laid out: so many fields are in the open prototype, and the values of some
linkage fields were added to the constants that were there before. -/
structure Laying (index fields : Nat) (before : Array Value) (values : List Value)
    (g : Generator) : Prop where
  open_eq : g.assembler.open? = some index
  lt : index < g.assembler.built.prototypes.size
  fields_eq : (g.assembler.built.prototypes.getD index default).fields.size = fields
  fields_le : fields ≤ Assembler.room
  inStep : InStep g
  constants_eq : g.assembler.built.constants.toList = before.toList ++ unpooled before values

namespace Laying

variable {index fields : Nat} {before : Array Value} {values : List Value}
  (h : Laying index fields before values g)

include h

theorem size_constants :
    g.assembler.built.constants.size = before.size + (unpooled before values).length := by
  rw [← Array.length_toList, h.constants_eq, List.length_append, Array.length_toList]

theorem constants_le : before.size + (unpooled before values).length ≤ Assembler.room := by
  rw [← h.size_constants]
  exact h.inStep.size_le

/-- The open prototype takes another field if it has room for it. -/
theorem addField (v : Value) : Ensures (assemble (Assembler.addField v)) g
    (fun _ => Laying index (fields + 1) before values)
    (fun e _ => e = limit .tooManyFields ∧ Assembler.room ≤ fields) := by
  rw [ensures_assemble, Assembler.addField, ensures_bind, Assembler.ensures_opened, h.open_eq]
  refine ⟨?_, fun hnone => by cases hnone⟩
  intro k hk
  obtain rfl := Option.some.inj hk
  rw [Assembler.ensures_append, h.fields_eq]
  refine ⟨fun hroom => ?_, fun hfull => ⟨rfl, hfull⟩⟩
  have hlt := h.lt
  have hfields := h.fields_eq
  rw [Array.getD_eq_getD_getElem?, Array.getElem?_eq_getElem hlt, Option.getD_some] at hfields
  constructor
  case open_eq => exact h.open_eq
  case lt => simpa [Assembler.modifyPrototype] using hlt
  case fields_eq =>
    simp only [Assembler.modifyPrototype, Array.getD_eq_getD_getElem?,
      Array.getElem?_modify, if_true,
      Array.getElem?_eq_getElem hlt, Option.map_some, Option.getD_some, Array.size_push, hfields]
  case fields_le => exact hroom
  case inStep => exact h.inStep.of_pool_eq rfl
  case constants_eq => exact h.constants_eq

/-- A value that is no constant yet takes up room among the constants. -/
theorem intern (v : Value) : Ensures (intern v) g
    (fun _ => Laying index fields before (values ++ [v]))
    (fun e _ => e = limit .tooManyConstants ∧
      Assembler.room < before.size + (unpooled before (values ++ [v])).length) := by
  have hsize := h.size_constants
  have hconcat := unpooled_concat before values v
  rw [← h.constants_eq] at hconcat
  rw [h.inStep.ensures_intern_iff]
  -- a value that is pooled already changes nothing, and a new one is added or finds no room
  constructor
  · intro i hi
    have hmem : v ∈ g.assembler.built.constants.toList :=
      Array.mem_toList_iff.mpr (Array.mem_of_getElem? hi)
    rw [if_pos hmem] at hconcat
    exact { h with constants_eq := by rw [hconcat]; exact h.constants_eq }
  · intro hnew
    rw [if_neg hnew] at hconcat
    refine ⟨fun hroom => ?_, fun hfull => ⟨rfl, ?_⟩⟩
    · have hconstants : (withConstant g v).assembler.built.constants.toList =
          before.toList ++ unpooled before (values ++ [v]) := by
        rw [constants_withConstant, Array.toList_push, h.constants_eq, hconcat, List.append_assoc]
      exact ⟨h.open_eq, h.lt, h.fields_eq, h.fields_le, h.inStep.withConstant hnew hroom,
        hconstants⟩
    · rw [hconcat, List.length_append, List.length_singleton]
      omega

end Laying

/-- An open prototype without fields is the start of a frame. -/
theorem Inside.laying {site : Site} {slots : Std.TreeMap FieldId Slot}
    {code : List Instruction} {depth : Nat}
    {calls : List Nat} (h : Inside (site.framed #[] slots) code depth calls g) (hstep : InStep g) :
    Laying site.done.size 0 g.assembler.built.constants [] g where
  open_eq := h.open_eq
  lt := by
    rw [h.prototypes_eq, Array.size_push]
    exact Nat.lt_succ_self _
  fields_eq := by
    rw [h.prototypes_eq]
    simp [Site.framed]
  fields_le := Nat.zero_le _
  inStep := hstep
  constants_eq := by simp [unpooled]

/-- Placing fields counts the fields of the prototype and the constants. It fails if there are too
many of them. -/
theorem limits_placeFields {fs : List FieldId} {index : Nat} {before : Array Value}
    (hinitial : ∀ f ∈ fs, ∃ v, initialValue? (env.globals.field f) = some v)
    (h : Laying index 0 before [] g) :
    Ensures (fs.foldlM (placeField env) ∅) g
      (fun _ => Laying index (fs.filter (isWorking env.globals)).length before
        (linkageValues env.globals fs))
      (fun e _ =>
        (e = limit .tooManyFields ∧ Assembler.room < (fs.filter (isWorking env.globals)).length) ∨
        (e = limit .tooManyConstants ∧
          Assembler.room < before.size +
            (unpooled before (linkageValues env.globals fs)).length)) := by
  apply ensures_foldlM fun done _ =>
    Laying index (done.filter (isWorking env.globals)).length before
      (linkageValues env.globals done)
  · exact h
  · intro done id rest linkage g' hsplit hg'
    obtain ⟨v, hv⟩ := hinitial id (by rw [hsplit]; simp)
    have hvalues := linkageValues_concat env.globals done hv
    have hall : fs = (done ++ [id]) ++ rest := by rw [hsplit]; simp
    unfold placeField
    simp only [ensures_bind, ensures_require_some, hv]
    cases hhome : (env.globals.field id).home with
    | workingStorage =>
      have hid : isWorking env.globals id = true := by simp [isWorking, hhome]
      have hcount : ((done ++ [id]).filter (isWorking env.globals)).length =
          (done.filter (isWorking env.globals)).length + 1 := by
        simp [List.filter_append, hid]
      rw [if_pos hid] at hvalues
      simp only [ensures_bind, ensures_modify, ensures_pure, hvalues, hcount]
      apply (hg'.addField v).mono
      · intro i g'' hg''
        exact ⟨hg''.open_eq, hg''.lt, hg''.fields_eq, hg''.fields_le, hg''.inStep.of_pool_eq rfl,
          hg''.constants_eq⟩
      · -- the prototype was full, and this field comes on top
        intro e _ he
        have hmore : (fs.filter (isWorking env.globals)).length =
            (done.filter (isWorking env.globals)).length + 1 +
            (rest.filter (isWorking env.globals)).length := by
          rw [hall, List.filter_append, List.length_append, hcount]
        exact Or.inl ⟨he.1, by omega⟩
    | linkage =>
      have hid : isWorking env.globals id = false := by simp [isWorking, hhome]
      have hcount : (done ++ [id]).filter (isWorking env.globals) =
          done.filter (isWorking env.globals) := by
        simp [List.filter_append, hid]
      rw [hid, if_neg Bool.false_ne_true] at hvalues
      simp only [ensures_bind, ensures_pure, hvalues, hcount]
      apply (hg'.intern v).mono fun _ _ hg'' => hg''
      -- there are too many constants already, and the rest of the fields cannot make them fewer
      intro e _ he
      have hmore : linkageValues env.globals fs =
          linkageValues env.globals (done ++ [id]) ++ linkageValues env.globals rest := by
        rw [hall, linkageValues, List.filter_append, List.filterMap_append]
        rfl
      have hle := length_unpooled_le before (linkageValues env.globals (done ++ [id]))
        (linkageValues env.globals rest)
      rw [← hmore, hvalues] at hle
      exact Or.inr ⟨he.1, by omega⟩

/-- There is a place for each of a few parameters. -/
theorem limits_placeUsings {usings : List FieldId} (h : usings.length ≤ 255) :
    Ensures (placeUsings usings) g (fun _ _ => True) (fun _ _ => False) := by
  unfold placeUsings
  apply ensures_forM fun _ _ => True
  · trivial
  · intro done item rest g' hsplit _
    have hlt : item.2 < usings.length := by
      have hmem : item ∈ usings.zipIdx := by rw [hsplit]; simp
      exact (List.getElem?_eq_some_iff.mp (List.mk_mem_zipIdx_iff_getElem?.mp hmem)).1
    have hroom : item.2 + 1 < 0x8000 := by omega
    simp only [frameIndex, hroom, if_true, ensures_bind, ensures_pure, ensures_modify]

/-- Pushing fields fails if there are too many of them. -/
theorem limits_placeLocals {site : Site} {fields : Array Value} {slots : Std.TreeMap FieldId Slot}
    {locals : List FieldId}
    {linkage : Std.TreeMap FieldId UInt16} (hlinkage : ∀ f ∈ locals, ∃ i, linkage[f]? = some i)
    (h : Inside (site.framed fields slots) [] 0 [] g) :
    Ensures (locals.forM (placeLocal linkage)) g
      (fun _ g' => locals.length ≤ 32768 ∧ ∃ slots code,
        Inside (site.framed fields slots) code locals.length [] g')
      (fun e _ => e = limit .tooManySlots ∧ 32768 < locals.length) := by
  apply ensures_forM fun done g' =>
    done.length ≤ 32768 ∧ ∃ slots code, Inside (site.framed fields slots) code done.length [] g'
  · exact ⟨Nat.zero_le _, slots, [], h⟩
  · intro done id rest g' hsplit hg'
    obtain ⟨-, slots', code, hinside⟩ := hg'
    obtain ⟨i, hi⟩ := hlinkage id (by rw [hsplit]; simp)
    apply (ensures_placeLocal hi hinside).mono
    · rintro _ g'' ⟨s, hs, -, hinside'⟩
      have hlt := s.toInt_lt
      rw [List.length_append, List.length_singleton]
      exact ⟨by omega, _, _, hinside'⟩
    · rintro _ _ ⟨rfl, hfull⟩
      have hlength : locals.length = done.length + (rest.length + 1) := by rw [hsplit]; simp
      exact ⟨rfl, by omega⟩

theorem limits_argumentCount {n : Nat} {ok : UInt8 → Generator → Prop}
    {err : Stop → Generator → Prop}
    (hok : ∀ count, n ≤ 255 → ok count g) (herr : 255 < n → err (limit .tooManyArguments) g) :
    Ensures (argumentCount n) g ok err := by
  unfold argumentCount
  by_cases hroom : n < 0x100
  · rw [if_pos hroom, ensures_pure]
    exact hok _ (by omega)
  · rw [if_neg hroom, ensures_throw]
    exact herr (by omega)

/-- A program is opened unless there is too much of something. -/
theorem ensures_openProgram_limits {p : ProgramId}
    {n : Node} {initial : FieldId → Value} {count : Nat} (hbound : env.bindings.program? n = some p)
    (htidy : (env.globals.program p).Tidy env.globals.field count)
    (hinitial : ∀ f ∈ (env.globals.program p).fields.toList,
      initialValue? (env.globals.field f) = some (initial f))
    (h : Between g.assembler.built.name g.assembler.built.prototypes g.prototypes g)
    (hstep : InStep g) :
    Ensures (openProgram env n) g (fun _ _ => ∀ error, ¬Exceeds env.globals p g error)
      (fun e _ => ∃ error, Exceeds env.globals p g error ∧ e = limit error) := by
  unfold openProgram
  simp only [ensures_bind, ensures_require_some, hbound]
  apply limits_argumentCount _ fun hmany => ⟨_, .usings hmany, rfl⟩
  intro usings husings
  apply limits_argumentCount _ fun hmany => ⟨_, .returnings hmany, rfl⟩
  intro returnings hreturnings
  rw [ensures_assemble, Assembler.openPrototype, ensures_bind, Assembler.ensures_append]
  refine ⟨fun hprototypes => ?_, fun hfull => ⟨_, .prototypes hfull, rfl⟩⟩
  simp only [ensures_bind, ensures_modify, ensures_pure]
  generalize
    (if (env.globals.program p).exported then some (env.globals.program p).name else none) = name?
  have hlast := UInt16.toNat_ofNat_of_lt' hprototypes
  have hopened := h.openPrototype ⟨name?, usings, returnings, #[], #[]⟩ rfl rfl hlast
  have hlaying := hopened.laying (hstep.of_pool_eq rfl)
  have hworking : (idLayout env.globals p).working =
      (env.globals.program p).fields.toList.filter (isWorking env.globals) := rfl
  have hvalues : ∀ f ∈ (env.globals.program p).fields.toList, ∃ v,
      initialValue? (env.globals.field f) = some v :=
    fun f hf => ⟨initial f, hinitial f hf⟩
  apply ((ensures_placeFields hinitial hworking hopened).and
    (limits_placeFields hvalues hlaying)).mono
  case hok =>
    intro linkage g₁ hg₁
    obtain ⟨⟨slots₁, hinside₁, -, hplaces₁, hpooled⟩, hlaid⟩ := hg₁
    rw [localFields_eq hpooled]
    -- the parameters were counted before, so there are few enough for the frame
    have hfew : (idLayout env.globals p).usings.length ≤ 255 := by simpa [idLayout] using husings
    apply ((ensures_placeUsings hplaces₁ hinside₁).and (limits_placeUsings hfew)).mono _
      fun _ _ hfalse => hfalse.2.elim
    intro _ g₂ hg₂
    obtain ⟨⟨slots₂, hinside₂, -, -⟩, -⟩ := hg₂
    have hlinkage : ∀ f ∈ (idLayout env.globals p).locals, ∃ i, linkage[f]? = some i := by
      intro f hf
      have hmem := List.mem_filter.mp ((frame_perm htidy).subset (List.mem_append_right _ hf))
      obtain ⟨i, hi, -⟩ := hpooled.constant f hmem.1 (by simpa using hmem.2)
      exact ⟨i, hi⟩
    apply (limits_placeLocals hlinkage hinside₂).mono
    · intro _ _ hpushed error hexceeds
      cases hexceeds with
      | usings hmany => omega
      | returnings hmany => omega
      | prototypes hfull => exact absurd hprototypes (Nat.not_lt.mpr hfull)
      | working hmany => exact absurd hlaid.fields_le (Nat.not_le.mpr hmany)
      | constants hmany => exact absurd hlaid.constants_le (Nat.not_le.mpr hmany)
      | pushed hmany =>
        rw [← length_locals htidy] at hmany
        omega
    · intro e _ he
      rw [length_locals htidy] at he
      exact ⟨_, .pushed he.2, he.1⟩
  case herr =>
    intro e _ he
    rcases he.2 with ⟨rfl, hmany⟩ | ⟨rfl, hmany⟩
    · exact ⟨_, .working hmany, rfl⟩
    · exact ⟨_, .constants hmany, rfl⟩

/-! ### The frame of a program -/

/-- A field that is pushed on entry is loaded from the constant that is its initial value. -/
def LoadsInitial (globals : Globals) (constants : Array Value) (f : FieldId)
    (i : Instruction) : Prop :=
  ∃ (index : UInt16) (v : Value), i = .load index ∧ initialValue? (globals.field f) = some v ∧
    constants[index.toNat]? = some v

/-- The frame of a program after it was opened. Just its fields have slots, and no two have the
same. Working-storage fields are numbered in the order of declaration, parameters lie below the
frame, and results and the remaining linkage fields follow from its start. There is a new prototype,
which begins by loading the initial values of the latter in this order. -/
structure LaidOut (globals : Globals) (p : ProgramId) (before after : Generator) : Prop where
  slot_iff : ∀ f, (∃ slot, after.slots[f]? = some slot) ↔ f ∈ (globals.program p).fields.toList
  slot_injective : ∀ (f f' : FieldId) (slot : Slot), after.slots[f]? = some slot →
    after.slots[f']? = some slot → f = f'
  working : ∀ (i : Nat) (f : FieldId), (idLayout globals p).working[i]? = some f →
    ∃ index : UInt16, index.toNat = i ∧ after.slots[f]? = some (.field index)
  usings : ∀ (k : Nat) (f : FieldId), (idLayout globals p).usings[k]? = some f →
    ∃ offset : Int16, offset.toInt = -((k : Int) + 1) ∧ after.slots[f]? = some (.frame offset)
  pushed : ∀ (k : Nat) (f : FieldId), (idLayout globals p).locals[k]? = some f →
    ∃ offset : Int16, offset.toInt = k ∧ after.slots[f]? = some (.frame offset)
  prototype : ∃ prototype : Prototype,
    after.assembler.built.prototypes = before.assembler.built.prototypes.push prototype ∧
    after.assembler.open? = some before.assembler.built.prototypes.size ∧
    prototype.usings.toNat = (globals.program p).usings.size ∧
    prototype.returnings.toNat = (globals.program p).returnings.size ∧
    List.Forall₂ (fun f v => initialValue? (globals.field f) = some v)
      (idLayout globals p).working prototype.fields.toList ∧
    List.Forall₂ (LoadsInitial globals after.assembler.built.constants)
      (idLayout globals p).locals prototype.code.toList

/-- What `Opened` says of slots and code, for the fields themselves. -/
theorem Opened.laidOut {globals : Globals} {p : ProgramId} {initial : FieldId → Value} {count : Nat}
    {g g' : Generator} (htidy : (globals.program p).Tidy globals.field count)
    (hinitial : ∀ f ∈ (globals.program p).fields.toList,
      initialValue? (globals.field f) = some (initial f))
    (h : Opened globals p initial g.assembler.built.name g.assembler.built.prototypes g.prototypes
      g.tables g') :
    LaidOut globals p g g' := by
  obtain ⟨header, slots, code, husings, hreturnings, hfields, hinside, -, hcode, hplaces⟩ := h
  obtain rfl : g'.slots = slots := hinside.slots_eq
  have hperm := listed_perm htidy
  have hnodup : (idLayout globals p).listed.Nodup := hperm.nodup_iff.mpr htidy.nodup
  have hlisted : ∀ f ∈ (idLayout globals p).listed, initialValue? (globals.field f) =
      some (initial f) :=
    fun f hf => hinitial f (hperm.subset hf)
  have hat : ∀ f ∈ (idLayout globals p).listed,
      ∃ slot, g'.slots[f]? = some slot ∧ (idLayout globals p).At slot f := by
    intro f hf
    obtain ⟨slot, hslot⟩ := hplaces.has f (hperm.subset hf)
    exact ⟨slot, hslot, hplaces.right f slot hslot⟩
  have hworking : ∀ f ∈ (idLayout globals p).working, f ∈ (idLayout globals p).listed :=
    fun f hf => List.mem_append_left _ hf
  have hparameters : ∀ f ∈ (idLayout globals p).usings, f ∈ (idLayout globals p).listed :=
    fun f hf => List.mem_append_right _ (List.mem_append_left _ hf)
  have hlocals : ∀ f ∈ (idLayout globals p).locals, f ∈ (idLayout globals p).listed :=
    fun f hf => List.mem_append_right _ (List.mem_append_right _ hf)
  constructor
  case slot_iff =>
    intro f
    constructor
    · rintro ⟨slot, hslot⟩
      exact hperm.subset (hplaces.right f slot hslot).mem_listed
    · exact hplaces.has f
  case slot_injective =>
    intro f f' slot hf hf'
    exact (hplaces.right f slot hf).field_unique (hplaces.right f' slot hf')
  case working =>
    intro i f hi
    obtain ⟨slot, hslot, hplace⟩ := hat f (hworking f (List.mem_of_getElem? hi))
    obtain ⟨index, hindex, rfl⟩ := hplace.of_working hnodup hi
    exact ⟨index, hindex, hslot⟩
  case usings =>
    intro k f hk
    obtain ⟨slot, hslot, hplace⟩ := hat f (hparameters f (List.mem_of_getElem? hk))
    obtain ⟨offset, hoffset, rfl⟩ := hplace.of_usings hnodup hk
    exact ⟨offset, hoffset, hslot⟩
  case pushed =>
    intro k f hk
    obtain ⟨slot, hslot, hplace⟩ := hat f (hlocals f (List.mem_of_getElem? hk))
    obtain ⟨offset, hoffset, rfl⟩ := hplace.of_locals hnodup hk
    exact ⟨offset, hoffset, hslot⟩
  case prototype =>
    refine ⟨_, hinside.prototypes_eq, hinside.open_eq, husings, hreturnings, ?_, ?_⟩
    · rw [show (openSite _ _ _ header _).header.fields = header.fields from rfl, hfields,
        List.forall₂_map_right_iff, List.forall₂_same]
      exact fun f hf => hlisted f (hworking f hf)
    · rw [List.forall₂_map_left_iff] at hcode
      have hloads := (List.forall₂_and_left _ _).mpr ⟨fun f hf => hlisted f (hlocals f hf), hcode⟩
      apply hloads.imp
      intro f i hload
      obtain ⟨hvalue, index, hconstant⟩ := hload
      exact ⟨index, initial f, rfl, hvalue, hconstant⟩

/-! ### Modules under construction -/

/-- The generator while it walks a module: it has begun, and nodes were entered and left. -/
inductive InModule (env : Env) : Generator → Prop
  | begun {n : Node} {g g' : Generator} (h : beginModule env n g = .ok () g') : InModule env g'
  | entered {n : Node} {g g' : Generator} (hg : InModule env g) (hn : n.tag ≠ .module)
      (h : (visitor env).enter n g = .ok () g') : InModule env g'
  | left {n : Node} {g g' : Generator} (hg : InModule env g)
      (h : (visitor env).leave n g = .ok () g') : InModule env g'

theorem Grounded.keeps_inStep {names : List (Option String)} {step : GenM α}
    (h : Grounded names step) :
    Preserves (fun g => InStep g ∧ g.started = true) (fun g => InStep g ∧ g.started = true)
      step := by
  apply h.preserves
  · intro g g' heq hg
    have hstarted : g'.started = g.started := congrArg (fun ground => ground.2.2) heq
    exact ⟨hg.1.of_pool_eq (pool_of_ground heq), hstarted.trans hg.2⟩
  · intro value g hg
    rw [hg.1.ensures_intern_iff]
    exact ⟨fun _ _ => hg, fun hnew =>
      ⟨fun hroom => ⟨hg.1.withConstant hnew hroom, hg.2⟩, fun _ => hg⟩⟩

namespace InModule

variable (h : InModule env g)

include h

theorem inStep : InStep g ∧ g.started = true := by
  induction h with
  | begun hok =>
    obtain ⟨hlogged, hstarted⟩ := (logged_beginModule _).of_ok hok
    exact ⟨hlogged.inStep, hstarted⟩
  | entered _ hn hok ih =>
    obtain ⟨names, henter⟩ := exists_grounded_enter hn
    exact (henter.keeps_inStep _ ih).of_ok hok
  | left _ hok ih => exact ((grounded_leave _).keeps_inStep _ ih).of_ok hok

theorem exists_linked : ∃ names, g.assembler.Linked names [] := by
  induction h with
  | begun hok => exact ⟨[], (links_beginModule _ _).of_ok hok⟩
  | entered _ hn hok ih =>
    obtain ⟨names, hlinked⟩ := ih
    obtain ⟨more, henter⟩ := exists_grounded_enter hn
    exact ⟨_, (henter.links hlinked).of_ok hok⟩
  | left _ hok ih =>
    obtain ⟨names, hlinked⟩ := ih
    exact ⟨_, ((grounded_leave _).links hlinked).of_ok hok⟩

/-- All that opening a program asks for. -/
theorem between : Between g.assembler.built.name g.assembler.built.prototypes g.prototypes g where
  name_eq := rfl
  prototypes_eq := rfl
  pool := fun v i hi => (h.inStep.1.pool_iff v i).mp hi
  imports_le := by
    -- every import has an instruction with its index, and an index has 16 bits
    obtain ⟨names, hlinked⟩ := h.exists_linked
    by_contra hmany
    obtain ⟨i, hi, -⟩ := hlinked.used Assembler.room (Nat.not_le.mp hmany)
    exact absurd i.toNat_lt (by rw [hi]; decide)
  programs_eq := rfl
  started := h.inStep.2

end InModule

end Generation

/-- Every valid field has an initial value. -/
theorem Field.Valid.exists_initialValue {f : Field} (h : f.Valid) :
    ∃ v, Generation.initialValue? f = some v := by
  have htype : f.type = f.usage := by
    rcases h.type with hnone | hsome
    · rw [Field.type, hnone, Option.getD_none]
    · rw [Field.type, hsome, Option.getD_some]
  exact Option.isSome_iff_exists.mp (Declaration.initialValue?_isSome htype h.comp4_iff.mpr)

namespace Session

open Generation

theorem Reachable.field_valid {s : Session} (h : s.Reachable) (f : FieldId) :
    (s.globals.field f).Valid := by
  have hstart : ∀ f, (Globals.initial.field f).Valid := fun f => Field.valid_default
  obtain ⟨-, -, hvalid⟩ :=
    kept_fieldsValid.reachable ⟨⟨Globals.Consistent.initial, fun _ hc => by cases hc⟩, hstart⟩ h
  exact hvalid f

/-- Whatever was declared before, and however far the walk over a module has come: when a program is
opened, its frame is laid out by the calling convention, or there is too much of something. -/
theorem openProgram_lays_out_frame {s : Session} (hs : s.Reachable)
    {env : Env} (henv : env.globals = s.globals) {g : Generator} (hg : InModule env g) {n : Node}
    {p : ProgramId} (hbound : env.bindings.program? n = some p) :
    (∀ g', openProgram env n g = .ok () g' → LaidOut s.globals p g g') ∧
      ((∃ e g', openProgram env n g = .error e g') ↔ ∃ error, Exceeds s.globals p g error) ∧
      ∀ e g', openProgram env n g = .error e g' → ∃ error, Exceeds s.globals p g error ∧
        e = limit error := by
  have htidy := hs.orderly.fielded.tidy p
  choose initial hinitial using fun f => (hs.field_valid f).exists_initialValue
  rw [show s.standing.globals = s.globals from rfl, ← henv] at htidy
  rw [← henv] at hinitial ⊢
  have hreturnings : ∀ f ∈ (env.globals.program p).returnings.toList,
      f ∈ (env.globals.program p).fields.toList ∧ isWorking env.globals f = false :=
    fun f hf => signature_linkage htidy (List.mem_append_right _ hf)
  have hframe := ensures_openProgram hbound (fun f _ => hinitial f) hreturnings hg.between
  have hlimits :=
    ensures_openProgram_limits hbound htidy (fun f _ => hinitial f) hg.between hg.inStep.1
  refine ⟨?_, ⟨?_, ?_⟩, fun e g' herror => hlimits.of_error herror⟩
  · intro g' hok
    exact Opened.laidOut htidy (fun f _ => hinitial f) (hframe.of_ok hok)
  · rintro ⟨e, g', herror⟩
    obtain ⟨error, hexceeds, -⟩ := hlimits.of_error herror
    exact ⟨error, hexceeds⟩
  · rintro ⟨error, hexceeds⟩
    cases hresult : openProgram env n g with
    | ok _ g' => exact absurd hexceeds (hlimits.of_ok hresult error)
    | error e g' => exact ⟨e, g', rfl⟩

open Build

/-- A program with fields of every kind, of which the linkage fields are declared in another order
than they are taken. -/
def postingModule : Node :=
  Build.module "LEDGER" [
    program "POST" [
      node .dataDivision [
        node .workingStorageSection [
          field 1 "COUNT" [leaf (.usage .comp2)], field 1 "NOTE" [leaf (.stringLiteral "X")]],
        node .linkageSection [
          field 1 "BALANCE" [leaf (.usage .comp2)], field 1 "AMOUNT" [leaf (.usage .comp2)],
          field 1 "RECEIPT" [], field 1 "ENTRY" [leaf (.usage .any)]]],
      procedure ["ENTRY", "AMOUNT"] ["RECEIPT"] []]]

/-- The session in which this module was compiled. -/
def postingSession : Session :=
  after (compileSource (fun _ _ _ => .ok postingModule) [] "LEDGER.cbl" none) (start {} .empty)

/-- What code generation knows when it comes to the program. -/
def postingEnv : Env where
  file := "LEDGER.cbl"
  globals := postingSession.globals
  chunk? := some ⟨0⟩
  bindings := { Bindings.empty with programs := Std.TreeMap.empty.insert 0 ⟨0⟩ }

/-- The two fields of the working storage come first, `ENTRY` and `AMOUNT` lie below the frame, and
`RECEIPT` and `BALANCE` are pushed. -/
theorem postingModule_frame :
    ∃ g g', InModule postingEnv g ∧ openProgram postingEnv (Build.program "POST" []) g = .ok () g' ∧
      g'.slots.toList = [(⟨0⟩, .field 0), (⟨1⟩, .field 1), (⟨2⟩, .frame 1), (⟨3⟩, .frame (-2)),
        (⟨4⟩, .frame 0), (⟨5⟩, .frame (-1))] ∧ LaidOut postingSession.globals ⟨0⟩ g g' := by
  have hreachable : postingSession.Reachable := .compiled (.start {} .empty) _ _ _ _
  have hbound : postingEnv.bindings.program? (Build.program "POST" []) = some ⟨0⟩ := by
    decide +kernel
  have hslots : answerOf? (do
      beginModule postingEnv postingModule
      openProgram postingEnv (Build.program "POST" [])
      return (← get).slots.toList) default = some [(⟨0⟩, .field 0), (⟨1⟩, .field 1),
        (⟨2⟩, .frame 1), (⟨3⟩, .frame (-2)), (⟨4⟩, .frame 0), (⟨5⟩, .frame (-1))] := by
    decide +kernel
  obtain ⟨_, hrun⟩ := exists_of_answerOf? hslots
  obtain ⟨_, g, hbegun, hrun⟩ := exists_of_bind_eq_ok hrun
  obtain ⟨_, g', hopened, hrun⟩ := exists_of_bind_eq_ok hrun
  have hmodule : InModule postingEnv g := .begun hbegun
  have hglobals : postingEnv.globals = postingSession.globals := by rw [postingEnv]
  have hframe := (openProgram_lays_out_frame hreachable hglobals hmodule hbound).1 g' hopened
  exact ⟨g, g', hmodule, hopened, (EStateM.Result.ok.inj hrun).1, hframe⟩

end Session

end CobolCompiler
