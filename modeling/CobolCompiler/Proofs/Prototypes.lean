import CobolCompiler.Proofs.Emission

/-!
# The prototypes of programs

Opening a program lays out its frame, walking its statements emits their code, and closing it makes
sure that the code returns. Together this gives a prototype with the code that `Translation` asks
for (`ensures_walk_program`), and one prototype for each program of a file.

* `Places`: the slots that were given out are those of a layout.
* `Between`: what the generator looks like when no program is open.
* `CompiledProgram`: a prototype is that of a program.
-/

namespace CobolCompiler.Generation

open Machine Translation Syntax

variable {site : Site} {code : List Instruction} {depth : Nat} {calls : List Nat} {g : Generator}
  {env : Env}
variable {fs : List FieldId} {globals : Globals} {id : FieldId} {initial : FieldId → Value}
  {layout : FrameLayout FieldId} {linkage : Std.TreeMap FieldId UInt16} {p : ProgramId} {t : Tables}

/-! ### Places -/

/-- Some fields have slots, and each slot is one that a layout gives. -/
structure Places (layout : FrameLayout FieldId) (placed : FieldId → Prop)
    (slots : Std.TreeMap FieldId Slot) : Prop where
  has : ∀ f, placed f → ∃ slot, slots[f]? = some slot
  right : ∀ f slot, slots[f]? = some slot → layout.At slot f

variable {placed : FieldId → Prop}

/-- A field gets its slot. One that had a slot before only gets another that is also right. -/
theorem Places.insert {placed' : FieldId → Prop} {slots : Std.TreeMap FieldId Slot}
    (h : Places layout placed slots) {slot : Slot} (hat : layout.At slot id)
    (hplaced : ∀ f, placed' f → placed f ∨ f = id) :
    Places layout placed' (slots.insert id slot) := by
  constructor <;> intro f <;> rw [Std.TreeMap.getElem?_insert] <;> by_cases heq : id = f
  · exact fun _ => ⟨slot, by simp [heq]⟩
  · rw [if_neg (by simpa using heq)]
    intro hf
    exact h.has f ((hplaced f hf).resolve_right fun h => heq h.symm)
  · subst heq
    intro other hother
    obtain rfl : slot = other := by simpa using hother
    exact hat
  · rw [if_neg (by simpa using heq)]
    exact h.right f

theorem Places.mono {placed' : FieldId → Prop} {slots : Std.TreeMap FieldId Slot}
    (h : Places layout placed slots) (hplaced : ∀ f, placed' f → placed f) :
    Places layout placed' slots :=
  ⟨fun f hf => h.has f (hplaced f hf), h.right⟩

/-- A site of which the frame is being laid out: it has some working-storage fields and some
slots. -/
def Site.framed (site : Site) (fields : Array Value) (slots : Std.TreeMap FieldId Slot) : Site :=
  { site with header := { site.header with fields }, slots }

variable {fields : Array Value} {slots : Std.TreeMap FieldId Slot}

/-- A working-storage field is added to the open prototype. -/
theorem ensures_addField (h : Inside (site.framed fields slots) code depth calls g) (v : Value) :
    Ensures (assemble (Assembler.addField v)) g
      (fun i g' => i.toNat = fields.size ∧
        Inside (site.framed (fields.push v) slots) code depth calls g' ∧ g'.tables = g.tables)
      (fun e _ => e.IsLimit) := by
  have hsize : (g.assembler.built.prototypes.getD site.done.size default).fields.size =
      fields.size := by
    rw [h.prototypes_eq]
    simp [Site.framed]
  rw [ensures_assemble, Assembler.addField, ensures_bind]
  apply ensures_opened h
  apply ensures_append _ ⟨.tooManyFields, by decide, rfl⟩
  intro i _ hi
  have hprototypes : (Assembler.modifyPrototype site.done.size
      (fun p => { p with fields := p.fields.push v }) g.assembler.built).prototypes =
      site.done.push { (site.framed (fields.push v) slots).header with code := code.toArray } := by
    have hbuilt := h.prototypes_eq
    simp only [Site.framed] at hbuilt
    simp only [Assembler.modifyPrototype, hbuilt, modify_push_size, Site.framed]
  exact ⟨hi.trans hsize, { h with prototypes_eq := hprototypes }, rfl⟩

/-- Giving a field a slot changes nothing but the slots. -/
theorem Inside.place (h : Inside (site.framed fields slots) code depth calls g) (id : FieldId)
    (slot : Slot) :
    Inside (site.framed fields (slots.insert id slot)) code depth calls
      { g with slots := g.slots.insert id slot } := by
  have hslots : g.slots.insert id slot = slots.insert id slot := by
    rw [h.slots_eq]
    rfl
  exact { h with slots_eq := hslots }

/-! ### Laying out a frame -/

/-- Whether a field is in working storage. -/
def isWorking (globals : Globals) (f : FieldId) : Bool :=
  (globals.field f).home = .workingStorage

/-- The linkage fields among some fields have their initial values in the pool. -/
structure Pooled (globals : Globals) (initial : FieldId → Value) (fs : List FieldId) (t : Tables)
    (linkage : Std.TreeMap FieldId UInt16) : Prop where
  contains_iff : ∀ f, linkage.contains f = true ↔ f ∈ fs ∧ isWorking globals f = false
  constant : ∀ f ∈ fs, isWorking globals f = false →
    ∃ i, linkage[f]? = some i ∧ t.constants[i.toNat]? = some (initial f)

theorem Pooled.mono {t t' : Tables} (h : Pooled globals initial fs t linkage) (hle : t.Le t') :
    Pooled globals initial fs t' linkage where
  contains_iff := h.contains_iff
  constant := by
    intro f hf hlinkage
    obtain ⟨i, hi, hconstant⟩ := h.constant f hf hlinkage
    exact ⟨i, hi, hle.constants _ _ hconstant⟩

theorem Pooled.skip (h : Pooled globals initial fs t linkage)
    (hworking : isWorking globals id = true) :
    Pooled globals initial (fs ++ [id]) t linkage where
  contains_iff := by
    intro f
    rw [h.contains_iff, List.mem_append, List.mem_singleton]
    constructor
    · exact fun hf => ⟨Or.inl hf.1, hf.2⟩
    · rintro ⟨hf | rfl, hlinkage⟩
      · exact ⟨hf, hlinkage⟩
      · rw [hworking] at hlinkage
        cases hlinkage
  constant := by
    intro f hf hlinkage
    rcases List.mem_append.mp hf with hf | hf
    · exact h.constant f hf hlinkage
    · rw [List.mem_singleton.mp hf, hworking] at hlinkage
      cases hlinkage

theorem Pooled.insert (h : Pooled globals initial fs t linkage) {i : UInt16}
    (hlinkage : isWorking globals id = false) (hi : t.constants[i.toNat]? = some (initial id)) :
    Pooled globals initial (fs ++ [id]) t (linkage.insert id i) where
  contains_iff := by
    intro f
    have hmem := h.contains_iff f
    rw [Std.TreeMap.contains_insert, Bool.or_eq_true, hmem, List.mem_append, List.mem_singleton]
    by_cases heq : id = f
    · subst heq
      simp [hlinkage]
    · have hne : f ≠ id := fun hf => heq hf.symm
      simp [heq, hne]
  constant := by
    intro f hf hhome
    rw [Std.TreeMap.getElem?_insert]
    by_cases heq : id = f
    · subst heq
      exact ⟨i, by simp, hi⟩
    · rw [if_neg (by simpa using heq)]
      rcases List.mem_append.mp hf with hf | hf
      · exact h.constant f hf hhome
      · exact absurd (List.mem_singleton.mp hf).symm heq

/-- What becomes of a field: it is the next one of the prototype, or its initial value is a
constant. -/
inductive Placed (site : Site) (fields : Array Value) (slots : Std.TreeMap FieldId Slot)
    (g : Generator) (home : Section) (id : FieldId) (v : Value)
    (linkage : Std.TreeMap FieldId UInt16) : Std.TreeMap FieldId UInt16 → Generator → Prop
  | working (hhome : home = .workingStorage) {i : UInt16} {g' : Generator}
      (hi : i.toNat = fields.size)
      (hinside : Inside (site.framed (fields.push v) (slots.insert id (.field i))) [] 0 [] g')
      (htables : g'.tables = g.tables) : Placed site fields slots g home id v linkage linkage g'
  | linkage (hhome : home = .linkage) {i : UInt16} {g' : Generator}
      (hinside : Inside (site.framed fields slots) [] 0 [] g')
      (hle : g.tables.Le g'.tables) (hi : g'.tables.constants[i.toNat]? = some v) :
      Placed site fields slots g home id v linkage (linkage.insert id i) g'

/-- A field is placed with its initial value. -/
theorem ensures_placeField {v : Value} (hinitial : initialValue? (env.globals.field id) = some v)
    (h : Inside (site.framed fields slots) [] 0 [] g) (linkage : Std.TreeMap FieldId UInt16) :
    Ensures (placeField env linkage id) g
      (Placed site fields slots g (env.globals.field id).home id v linkage)
      (fun e _ => e.IsLimit) := by
  unfold placeField
  simp only [ensures_bind, ensures_require_some, hinitial]
  cases hhome : (env.globals.field id).home with
  | workingStorage =>
    simp only [ensures_bind, ensures_modify, ensures_pure]
    apply (ensures_addField h v).imp
    intro i g' hg'
    obtain ⟨hi, hinside, htables⟩ := hg'
    exact .working rfl hi (hinside.place id (.field i)) htables
  | linkage =>
    simp only [ensures_bind, ensures_pure]
    apply (ensures_intern h v).imp
    intro i g' hg'
    obtain ⟨hinside, hle, hi⟩ := hg'
    exact .linkage rfl hinside hle hi

/-- Working-storage fields go to the prototype in order, and linkage fields have their initial
values put into the pool. -/
theorem ensures_placeFields
    (hinitial : ∀ f ∈ fs, initialValue? (env.globals.field f) = some (initial f))
    (hworking : layout.working = fs.filter (isWorking env.globals))
    (h : Inside (site.framed #[] ∅) [] 0 [] g) :
    Ensures (fs.foldlM (placeField env) ∅) g
      (fun linkage g' => ∃ slots,
        Inside (site.framed (layout.working.map initial).toArray slots) [] 0 [] g' ∧
        g.tables.Le g'.tables ∧ Places layout (· ∈ layout.working) slots ∧
        Pooled env.globals initial fs g'.tables linkage)
      (fun e _ => e.IsLimit) := by
  rw [hworking]
  apply ensures_foldlM fun done linkage g' => ∃ slots,
    Inside (site.framed ((done.filter (isWorking env.globals)).map initial).toArray slots)
      [] 0 [] g' ∧ g.tables.Le g'.tables ∧
    Places layout (· ∈ done.filter (isWorking env.globals)) slots ∧
    Pooled env.globals initial done g'.tables linkage
  · have hempty : Places layout (· ∈ []) ∅ := ⟨by simp, by simp⟩
    exact ⟨∅, h, .refl _, hempty, ⟨by simp, by simp⟩⟩
  · intro done id rest linkage g' hsplit hg'
    obtain ⟨slots, hinside, hle, hplaces, hpooled⟩ := hg'
    have hvalue := hinitial id (by rw [hsplit]; simp)
    apply (ensures_placeField hvalue hinside linkage).imp
    intro linkage' g'' hplaced
    cases hplaced with
    | @working hhome i _ hi hinside' htables =>
      have hid : isWorking env.globals id = true := by simp [isWorking, hhome]
      have hfilter : (done ++ [id]).filter (isWorking env.globals) =
          done.filter (isWorking env.globals) ++ [id] := by
        simp [List.filter_append, hid]
      -- the field gets the place after the working-storage fields before it
      have hat : layout.At (.field i) id := by
        apply FrameLayout.At.working
        rw [hi, hworking, hsplit, List.filter_append, List.filter_cons_of_pos hid]
        simp
      rw [hfilter, htables]
      refine ⟨slots.insert id (.field i), by simpa using hinside', hle, ?_, hpooled.skip hid⟩
      apply hplaces.insert hat
      intro f hf
      simpa using hf
    | @linkage hhome i _ hinside' hle' hi =>
      have hid : isWorking env.globals id = false := by simp [isWorking, hhome]
      have hfilter : (done ++ [id]).filter (isWorking env.globals) =
          done.filter (isWorking env.globals) := by
        simp [List.filter_append, hid]
      rw [hfilter]
      exact ⟨slots, hinside', hle.trans hle', hplaces, (hpooled.mono hle').insert hid hi⟩

theorem toInt_neg_of_nat {s : Int16} {k : Nat} (hs : s.toInt = (k : Int)) :
    (-s).toInt = -(k : Int) := by
  have hlt := s.toInt_lt
  rw [Int16.toInt_neg, hs, Int.bmod_eq_of_le] <;> omega

/-- Parameters get the places below the frame. -/
theorem ensures_placeUsings (hplaces : Places layout placed slots)
    (h : Inside (site.framed fields slots) code depth calls g) :
    Ensures (placeUsings layout.usings) g
      (fun _ g' => ∃ slots', Inside (site.framed fields slots') code depth calls g' ∧
        g'.tables = g.tables ∧ Places layout (fun f => placed f ∨ f ∈ layout.usings) slots')
      (fun e _ => e.IsLimit) := by
  have hall : layout.usings = layout.usings.zipIdx.map Prod.fst := (List.zipIdx_map_fst 0 _).symm
  -- the loop goes over pairs with positions, so the invariant speaks of their first parts
  conv => enter [3, _, g', 1, slots', 2, 2, 2, f]; rw [hall]
  unfold placeUsings
  apply ensures_forM fun done g' => ∃ slots',
    Inside (site.framed fields slots') code depth calls g' ∧ g'.tables = g.tables ∧
    Places layout (fun f => placed f ∨ f ∈ done.map Prod.fst) slots'
  · exact ⟨slots, h, rfl, hplaces.mono fun f hf => by simpa using hf⟩
  · intro done item rest g' hsplit hg'
    obtain ⟨slots', hinside, htables, hplaces'⟩ := hg'
    obtain ⟨id, position⟩ := item
    have hget : layout.usings[position]? = some id := by
      have hmem : (id, position) ∈ layout.usings.zipIdx := by rw [hsplit]; simp
      exact List.mk_mem_zipIdx_iff_getElem?.mp hmem
    rw [ensures_bind]
    apply ensures_frameIndex
    intro s hs
    -- parameters are counted downwards from the frame
    have hat : layout.At (.frame (-s)) id := by
      apply FrameLayout.At.parameter _ position _ hget
      rw [toInt_neg_of_nat hs]
      push_cast
      rfl
    rw [ensures_modify]
    refine ⟨slots'.insert id (.frame (-s)), hinside.place id (.frame (-s)), htables, ?_⟩
    apply hplaces'.insert hat
    intro f hf
    rw [List.map_append, List.mem_append, List.map_singleton, List.mem_singleton] at hf
    tauto

/-- A field is pushed from the pool, unless the frame is full. -/
theorem ensures_placeLocal {i : UInt16} (hi : linkage[id]? = some i)
    (h : Inside (site.framed fields slots) code depth calls g) :
    Ensures (placeLocal linkage id) g
      (fun _ g' => ∃ s : Int16, s.toInt = depth ∧ g'.tables = g.tables ∧
        Inside (site.framed fields (slots.insert id (.frame s))) (code ++ [.load i])
          (depth + 1) calls g')
      (fun e _ => e = limit .tooManySlots ∧ 0x8000 ≤ depth) := by
  unfold placeLocal
  simp only [ensures_bind, ensures_require_some, ensures_get, ensures_modify, hi]
  apply (ensures_emit h (.load i)).imp
  intro _ g' hg'
  obtain ⟨hinside, htables⟩ := hg'
  rw [hinside.depth_eq]
  unfold frameIndex
  split
  · next hlt =>
    have hplaced := hinside.place id (.frame (Int16.ofNat depth))
    have hdepth : g'.depth + 1 = depth + 1 := by rw [hinside.depth_eq]
    exact ⟨_, Int16.toInt_ofNat_of_lt hlt, htables, { hplaced with depth_eq := hdepth }⟩
  · next hfull => exact ⟨rfl, Nat.le_of_not_lt hfull⟩

/-- The other linkage fields are pushed one after the other. -/
theorem ensures_placeLocals (hplaces : Places layout placed slots)
    (hpooled : Pooled env.globals initial fs g.tables linkage)
    (hlocals : ∀ f ∈ layout.locals, f ∈ fs ∧ isWorking env.globals f = false)
    (h : Inside (site.framed fields slots) [] 0 [] g) :
    Ensures (layout.locals.forM (placeLocal linkage)) g
      (fun _ g' => ∃ slots' code,
        Inside (site.framed fields slots') code layout.locals.length [] g' ∧
        g'.tables = g.tables ∧ List.Forall₂ (LocalCode g'.tables) (layout.locals.map initial) code ∧
        Places layout (fun f => placed f ∨ f ∈ layout.locals) slots')
      (fun e _ => e.IsLimit) := by
  apply ensures_forM fun done g' => ∃ slots' code,
    Inside (site.framed fields slots') code done.length [] g' ∧
    g'.tables = g.tables ∧ List.Forall₂ (LocalCode g'.tables) (done.map initial) code ∧
    Places layout (fun f => placed f ∨ f ∈ done) slots'
  · exact ⟨slots, [], h, rfl, .nil, hplaces.mono fun f hf => by simpa using hf⟩
  · intro done id rest g' hsplit hg'
    obtain ⟨slots', code, hinside, htables, hcode, hplaces'⟩ := hg'
    obtain ⟨hmem, hhome⟩ := hlocals id (by rw [hsplit]; simp)
    obtain ⟨i, hi, hconstant⟩ := hpooled.constant id hmem hhome
    apply (ensures_placeLocal hi hinside).mono
    · rintro _ g'' ⟨s, hs, htables', hinside'⟩
      have hat : layout.At (.frame s) id := by
        apply FrameLayout.At.pushed _ done.length hs
        rw [hsplit]
        simp
      have hlength : (done ++ [id]).length = done.length + 1 := by simp
      refine ⟨slots'.insert id (.frame s), code ++ [.load i], hlength ▸ hinside',
        htables'.trans htables, ?_, ?_⟩
      · rw [htables', List.map_append, List.map_singleton]
        exact List.rel_append hcode (.cons (.intro i (htables ▸ hconstant)) .nil)
      · apply hplaces'.insert hat
        intro f hf
        rw [List.mem_append, List.mem_singleton] at hf
        tauto
    · rintro _ _ ⟨rfl, -⟩
      exact ⟨.tooManySlots, by decide, rfl⟩

/-! ### Opening a program -/

/-- What the generator looks like when no program is open: some prototypes are done. -/
structure Between (name : String) (done : Array Prototype)
    (prototypes : Std.TreeMap ProgramId UInt16) (g : Generator) : Prop where
  name_eq : g.assembler.built.name = name
  prototypes_eq : g.assembler.built.prototypes = done
  pool : ∀ (v : Value) (i : UInt16), g.pool[v]? = some i → g.tables.constants[i.toNat]? = some v
  imports_le : g.tables.imports.size ≤ Assembler.room
  programs_eq : g.prototypes = prototypes
  started : g.started = true

/-- Where the fields of a program lie, by their numbers. -/
def idLayout (globals : Globals) (p : ProgramId) : FrameLayout FieldId where
  working := (globals.program p).fields.toList.filter (isWorking globals)
  usings := (globals.program p).usings.toList
  locals :=
    (globals.program p).returnings.toList ++ (globals.program p).fields.toList.filter fun f =>
    !isWorking globals f && !(globals.program p).usings.contains f &&
      !(globals.program p).returnings.contains f

/-- The linkage fields that are pushed are those of the layout. -/
theorem localFields_eq (h : Pooled globals initial (globals.program p).fields.toList t linkage) :
    localFields (globals.program p) linkage = (idLayout globals p).locals := by
  unfold localFields idLayout
  congr 1
  apply List.filter_congr
  intro f hf
  have hcontains : linkage.contains f = !isWorking globals f := by
    have hiff := h.contains_iff f
    cases hworking : isWorking globals f <;> cases hcontained : linkage.contains f <;> simp_all
  rw [hcontains]

/-- The open prototype of a program, before it has code. -/
def openSite (name : String) (done : Array Prototype) (prototypes : Std.TreeMap ProgramId UInt16)
    (header : Prototype) (slots : Std.TreeMap FieldId Slot) : Site :=
  ⟨name, done, header, slots, prototypes, false⟩

/-- Opening a prototype adds one without fields and code. -/
theorem Between.openPrototype {name : String} {done : Array Prototype}
    {prototypes : Std.TreeMap ProgramId UInt16}
    (h : Between name done prototypes g) (header : Prototype) (hfields : header.fields = #[])
    (hcode : header.code = #[]) {index : Nat} (hindex : index = done.size) :
    Inside ((openSite name done prototypes header ∅).framed #[] ∅) [] 0 []
      { g with
        assembler :=
          { built := { g.assembler.built with
              prototypes := g.assembler.built.prototypes.push header }
            open? := some index }
        slots := ∅, calls := [], depth := 0, inProcedure := false } := by
  have hprototypes : g.assembler.built.prototypes.push header = done.push
      { ((openSite name done prototypes header ∅).framed #[] ∅).header with
        code := [].toArray } := by
    rw [h.prototypes_eq]
    obtain ⟨name?, usings, returnings, fields, code⟩ := header
    obtain rfl : fields = #[] := hfields
    obtain rfl : code = #[] := hcode
    rfl
  exact ⟨h.name_eq, hprototypes, congrArg some hindex, h.pool, h.imports_le, rfl, h.programs_eq,
    rfl, rfl, rfl, h.started⟩

/-- What opening a program leaves: its frame is laid out, and the fields that are pushed have their
code. -/
def Opened (globals : Globals) (p : ProgramId) (initial : FieldId → Value) (name : String)
    (done : Array Prototype)
    (prototypes : Std.TreeMap ProgramId UInt16) (t : Tables) (g : Generator) : Prop :=
  ∃ header slots code, header.usings.toNat = (globals.program p).usings.size ∧
    header.returnings.toNat = (globals.program p).returnings.size ∧
    header.fields = ((idLayout globals p).working.map initial).toArray ∧
    Inside (openSite name done prototypes header slots) code
      (idLayout globals p).locals.length [] g ∧ t.Le g.tables ∧
    List.Forall₂ (LocalCode g.tables) ((idLayout globals p).locals.map initial) code ∧
    Places (idLayout globals p) (· ∈ (globals.program p).fields.toList) slots

/-- Opening a program lays out its frame. -/
theorem ensures_openProgram {n : Node} {name : String} {done : Array Prototype}
    {prototypes : Std.TreeMap ProgramId UInt16} (hbound : env.bindings.program? n = some p)
    (hinitial : ∀ f ∈ (env.globals.program p).fields.toList,
      initialValue? (env.globals.field f) = some (initial f))
    (hreturnings : ∀ f ∈ (env.globals.program p).returnings.toList,
      f ∈ (env.globals.program p).fields.toList ∧ isWorking env.globals f = false)
    (h : Between name done prototypes g) :
    Ensures (openProgram env n) g
      (fun _ g' => Opened env.globals p initial name done prototypes g.tables g')
      (fun e _ => e.IsLimit) := by
  unfold openProgram
  simp only [ensures_bind, ensures_require_some, hbound]
  apply ensures_argumentCount
  intro usings husings
  apply ensures_argumentCount
  intro returnings hreturnings'
  rw [ensures_assemble, Assembler.openPrototype, ensures_bind]
  apply ensures_append _ ⟨.tooManyPrototypes, by decide, rfl⟩
  intro i _ hi
  simp only [ensures_bind, ensures_modify, ensures_pure]
  generalize
    (if (env.globals.program p).exported then some (env.globals.program p).name else none) = name?
  have hlast : i.toNat = done.size := by rw [hi, h.prototypes_eq]
  have hworking : (idLayout env.globals p).working =
      (env.globals.program p).fields.toList.filter (isWorking env.globals) := rfl
  apply (ensures_placeFields hinitial hworking
    (h.openPrototype ⟨name?, usings, returnings, #[], #[]⟩ rfl rfl hlast)).imp
  intro linkage g₁ hg₁
  obtain ⟨slots₁, hinside₁, hle, hplaces₁, hpooled⟩ := hg₁
  rw [localFields_eq hpooled]
  apply (ensures_placeUsings hplaces₁ hinside₁).imp
  intro _ g₂ hg₂
  obtain ⟨slots₂, hinside₂, htables₂, hplaces₂⟩ := hg₂
  rw [← htables₂] at hle hpooled
  have hlocals : ∀ f ∈ (idLayout env.globals p).locals,
      f ∈ (env.globals.program p).fields.toList ∧ isWorking env.globals f = false := by
    intro f hf
    rcases List.mem_append.mp hf with hf | hf
    · exact hreturnings f hf
    · obtain ⟨hmem, hconditions⟩ := List.mem_filter.mp hf
      simp only [Bool.and_eq_true, Bool.not_eq_true'] at hconditions
      exact ⟨hmem, hconditions.1.1⟩
  apply (ensures_placeLocals hplaces₂ hpooled hlocals hinside₂).imp
  intro _ g₃ hg₃
  obtain ⟨slots₃, code, hinside₃, htables₃, hcode, hplaces₃⟩ := hg₃
  refine ⟨_, slots₃, code, husings, hreturnings', rfl, hinside₃, htables₃ ▸ hle, hcode, ?_⟩
  -- every field is in working storage, a parameter, or pushed
  apply hplaces₃.mono
  intro f hf
  by_cases hworking : isWorking env.globals f = true
  · exact Or.inl (Or.inl (List.mem_filter.mpr ⟨hf, hworking⟩))
  by_cases husing : f ∈ (env.globals.program p).usings.toList
  · exact Or.inl (Or.inr husing)
  right
  by_cases hreturning : f ∈ (env.globals.program p).returnings.toList
  · exact List.mem_append_left _ hreturning
  · apply List.mem_append_right
    rw [List.mem_filter]
    simp_all

/-! ### Fields by their names -/

/-- The scope knows the fields of a program as its syntax does. -/
structure Describes (globals : Globals) (p : ProgramId) (program : Program) : Prop where
  working_eq : ((globals.program p).fields.toList.filter (isWorking globals)).map
    (Declaration.fieldSyntax globals) = program.working
  linkage_eq : ((globals.program p).fields.toList.filter (!isWorking globals ·)).map
    (Declaration.fieldSyntax globals) = program.linkage
  usings_eq : (globals.program p).usings.toList.map (fun f => (globals.field f).name) =
    program.usings
  returnings_eq : (globals.program p).returnings.toList.map (fun f => (globals.field f).name) =
    program.returnings
  signature : ∀ f ∈ (globals.program p).usings.toList ++ (globals.program p).returnings.toList,
    f ∈ (globals.program p).fields.toList ∧ isWorking globals f = false
  initial : ∀ f ∈ (globals.program p).fields.toList,
    initialValue? (globals.field f) = some (Declaration.fieldSyntax globals f).initial
  injective : ∀ f ∈ (globals.program p).fields.toList, ∀ f' ∈ (globals.program p).fields.toList,
    (globals.field f).name = (globals.field f').name → f = f'
  nodup : (globals.program p).fields.toList.Nodup
  signature_nodup :
    ((globals.program p).usings.toList ++ (globals.program p).returnings.toList).Nodup

/-- Fields of one section, as the scope knows them and as they were declared. -/
theorem map_fieldSyntax {policy : FractionPolicy} {declarations : List (Section × Node)}
    (h : List.Forall₂ (Declaration.IsFieldOf policy globals) fs declarations) (home : Section) :
    (fs.filter fun f => (globals.field f).home = home).map (Declaration.fieldSyntax globals) =
      (declarations.filter fun d => d.1 = home).map fun d => Field.ofNode policy d.1 d.2 := by
  induction h with
  | nil => rfl
  | cons hfield _ ih =>
    obtain ⟨hhome, -, hsyntax⟩ := hfield.eq_ofNode
    rw [List.filter_cons, List.filter_cons, hhome]
    split
    · rw [List.map_cons, List.map_cons, ih, hsyntax]
    · exact ih

theorem filter_declarationsOf (frame : ProgramFrame) (home : Section) :
    (Declaration.declarationsOf frame).filter (fun d => d.1 = home) =
      (frame.fieldsOf home).map (home, ·) := by
  cases home <;> simp [Declaration.declarationsOf, ProgramFrame.fieldsOf, List.filter_append,
    List.filter_map, Function.comp_def]

/-- A declared program is described by its syntax. -/
theorem describes_of_declared {policy : FractionPolicy} {chunk : ChunkId} {frame : ProgramFrame}
    (h : Declaration.Declared policy globals chunk p frame) {program : Program}
    (hworking : program.working = frame.working.map (Field.ofNode policy .workingStorage))
    (hlinkage : program.linkage = frame.linkage.map (Field.ofNode policy .linkage))
    (husings : program.usings = frame.usings.filterMap identifier?)
    (hreturnings : program.returnings = frame.returnings.filterMap identifier?) :
    Describes globals p program := by
  have hsection (home : Section) : ((globals.program p).fields.toList.filter fun f =>
      (globals.field f).home = home).map (Declaration.fieldSyntax globals) =
      (frame.fieldsOf home).map (Field.ofNode policy home) := by
    rw [map_fieldSyntax h.fields.fields home, filter_declarationsOf, List.map_map]
    rfl
  have hlinkageHome : ∀ f, (!isWorking globals f) = decide ((globals.field f).home = .linkage) := by
    intro f
    cases hhome : (globals.field f).home <;> simp [isWorking, hhome]
  exact {
    working_eq := (hsection .workingStorage).trans hworking.symm
    linkage_eq := by
      simp only [hlinkageHome]
      exact (hsection .linkage).trans hlinkage.symm
    usings_eq := h.signature.usings_eq.trans husings.symm
    returnings_eq := h.signature.returnings_eq.trans hreturnings.symm
    signature := by
      intro f hf
      obtain ⟨hmem, hhome, -⟩ := h.signature.linkage f hf
      exact ⟨hmem, by simp [isWorking, hhome]⟩
    initial := by
      intro f hf
      obtain ⟨d, -, hd⟩ := exists_of_forall₂_left h.fields.fields hf
      exact hd.eq_ofNode.2.1
    injective := by
      -- a name finds one field of the program, so fields of one name are the same
      intro f hf f' hf' hname
      have hfound := (h.fields.field?_iff _ f).mpr ⟨hf, hname⟩
      exact Option.some.inj (hfound.symm.trans ((h.fields.field?_iff _ f').mpr ⟨hf', rfl⟩))
    nodup := h.fields.nodup
    signature_nodup := h.signature.nodup }

namespace Describes

variable {globals : Globals} {p : ProgramId} {program : Program} (h : Describes globals p program)
variable {f : FieldId}

include h

theorem wellNamed : program.WellNamed := by
  -- names of fields, names of the signature, and that the latter are in linkage
  refine ⟨?_, ?_, ?_⟩
  · rw [← h.working_eq, ← h.linkage_eq, List.map_map, List.map_map, ← List.map_append]
    have hsplit :=
      (List.filter_append_perm (isWorking globals) (globals.program p).fields.toList).map
      fun f => (globals.field f).name
    exact hsplit.nodup_iff.mpr (h.nodup.map_on h.injective)
  · rw [← h.usings_eq, ← h.returnings_eq, ← List.map_append]
    exact h.signature_nodup.map_on fun f hf f' hf' hname =>
      h.injective f (h.signature f hf).1 f' (h.signature f' hf').1 hname
  · rw [← h.usings_eq, ← h.returnings_eq, ← h.linkage_eq, ← List.map_append, List.map_map]
    intro name hname
    obtain ⟨f, hf, rfl⟩ := List.mem_map.mp hname
    obtain ⟨hmem, hhome⟩ := h.signature f hf
    exact List.mem_map.mpr ⟨f, List.mem_filter.mpr ⟨hmem, by simp [hhome]⟩, rfl⟩

/-- A linkage field is found in the syntax by its name. -/
theorem linkageField_eq (hf : f ∈ (globals.program p).fields.toList)
    (hhome : isWorking globals f = false) :
    program.linkageField (globals.field f).name = Declaration.fieldSyntax globals f := by
  have hfound : program.linkage.find? (fun field => field.name = (globals.field f).name) =
      some (Declaration.fieldSyntax globals f) := by
    rw [← h.linkage_eq, List.find?_map]
    have hself : ((globals.program p).fields.toList.filter (!isWorking globals ·)).find?
        ((fun field : Syntax.Field => decide (field.name = (globals.field f).name)) ∘
          Declaration.fieldSyntax globals) = some f := by
      have hmem : f ∈ (globals.program p).fields.toList.filter (!isWorking globals ·) :=
        List.mem_filter.mpr ⟨hf, by simp [hhome]⟩
      cases hresult : ((globals.program p).fields.toList.filter (!isWorking globals ·)).find? _ with
      | none => simpa [Declaration.fieldSyntax] using List.find?_eq_none.mp hresult f hmem
      | some other =>
        have hsome := List.find?_some hresult
        have hname : (globals.field other).name = (globals.field f).name := of_decide_eq_true hsome
        have hother := (List.mem_filter.mp (List.mem_of_find?_eq_some hresult)).1
        rw [h.injective other hother f hf hname]
    rw [hself]
    rfl
  rw [Program.linkageField, hfound, Option.getD_some]

/-- A field is among others of its program if its name is among theirs. -/
theorem name_mem_map_iff (hfs : ∀ f ∈ fs, f ∈ (globals.program p).fields.toList)
    (hf : f ∈ (globals.program p).fields.toList) :
    (globals.field f).name ∈ fs.map (fun f => (globals.field f).name) ↔ f ∈ fs := by
  rw [List.mem_map]
  constructor
  · rintro ⟨f', hf', hname⟩
    rwa [← h.injective f' (hfs f' hf') f hf hname]
  · exact fun hmem => ⟨f, hmem, rfl⟩

theorem mem_usings_iff (hf : f ∈ (globals.program p).fields.toList) :
    (globals.field f).name ∈ program.usings ↔ f ∈ (globals.program p).usings.toList := by
  rw [← h.usings_eq]
  exact h.name_mem_map_iff (fun f hf => (h.signature f (List.mem_append_left _ hf)).1) hf

theorem mem_returnings_iff (hf : f ∈ (globals.program p).fields.toList) :
    (globals.field f).name ∈ program.returnings ↔ f ∈ (globals.program p).returnings.toList := by
  rw [← h.returnings_eq]
  exact h.name_mem_map_iff (fun f hf => (h.signature f (List.mem_append_right _ hf)).1) hf

/-- The layout by numbers is the layout by names. -/
theorem layout_eq :
    (idLayout globals p).map (fun f => (globals.field f).name) = program.layout := by
  have hworking : (idLayout globals p).working.map (fun f => (globals.field f).name) =
      program.working.map (·.name) := by
    rw [← h.working_eq, List.map_map]
    rfl
  have hothers : ((globals.program p).fields.toList.filter fun f => !isWorking globals f &&
      !(globals.program p).usings.contains f && !(globals.program p).returnings.contains f).map
        (fun f => (globals.field f).name) =
      (program.linkage.map (·.name)).filter fun name =>
        !program.usings.contains name && !program.returnings.contains name := by
    rw [← h.linkage_eq, List.map_map, List.filter_map, List.filter_filter]
    congr 1
    apply List.filter_congr
    intro f hf
    have husing := h.mem_usings_iff hf
    have hreturning := h.mem_returnings_iff hf
    by_cases hin : f ∈ (globals.program p).usings.toList <;> by_cases hout :
      f ∈ (globals.program p).returnings.toList <;>
      simp_all [Declaration.fieldSyntax]
  unfold FrameLayout.map Program.layout Program.locals
  rw [hworking, ← h.usings_eq, ← h.returnings_eq, idLayout, List.map_append, hothers, h.usings_eq,
    h.returnings_eq]

theorem initials_eq :
    (idLayout globals p).locals.map (fun f => (Declaration.fieldSyntax globals f).initial) =
      program.initials := by
  have hlocals : program.locals = (idLayout globals p).locals.map fun f => (globals.field f).name :=
    congrArg FrameLayout.locals h.layout_eq.symm
  rw [Program.initials, hlocals, List.map_map]
  apply List.map_congr_left
  intro f hf
  have hlinkage : f ∈ (globals.program p).fields.toList ∧ isWorking globals f = false := by
    rcases List.mem_append.mp hf with hf | hf
    · exact h.signature f (List.mem_append_right _ hf)
    · obtain ⟨hmem, hconditions⟩ := List.mem_filter.mp hf
      simp only [Bool.and_eq_true, Bool.not_eq_true'] at hconditions
      exact ⟨hmem, hconditions.1.1⟩
  rw [Function.comp_apply, h.linkageField_eq hlinkage.1 hlinkage.2]

theorem usages_eq :
    (globals.program p).usings.toList.map (fun f => (globals.field f).usage) = program.usages := by
  rw [Program.usages, ← h.usings_eq, List.map_map]
  apply List.map_congr_left
  intro f hf
  obtain ⟨hmem, hhome⟩ := h.signature f (List.mem_append_left _ hf)
  rw [Function.comp_apply, h.linkageField_eq hmem hhome]
  rfl

end Describes

/-! ### Walking a program -/

/-- Closing a program makes its code end with a return. -/
theorem ensures_closeProgram (h : Inside site code depth calls g) :
    Ensures closeProgram g
      (fun _ g' => ∃ ending, (ending = [] ∨ ending = [.ret]) ∧
        (code ++ ending).getLast? = some .ret ∧
        Between site.name (site.done.push { site.header with code := (code ++ ending).toArray })
          site.prototypes g' ∧
        g'.tables = g.tables)
      (fun _ _ => False) := by
  have hclose {emitted : List Instruction}
      {g' : Generator} (hg' : Inside site emitted depth calls g') : Between site.name
      (site.done.push { site.header with code := emitted.toArray }) site.prototypes
      { g' with assembler := { g'.assembler with open? := none }, inProcedure := false } :=
    ⟨hg'.name_eq, hg'.prototypes_eq, hg'.pool, hg'.imports_le, hg'.programs_eq, hg'.started⟩
  have hlast : g.assembler.last? = code.getLast? := by
    unfold Assembler.last? Assembler.current?
    rw [h.open_eq, h.prototypes_eq]
    simp
  unfold closeProgram
  simp only [ensures_bind, ensures_get, hlast]
  -- a return is added only where the code does not end with one
  by_cases hret : code.getLast? = some .ret
  · simp only [hret, ne_eq, not_true_eq_false, if_false]
    refine ⟨[], Or.inl rfl, ?_, ?_, rfl⟩
    · rwa [List.append_nil]
    · rw [List.append_nil]
      exact hclose h
  · simp only [hret, ne_eq, not_false_eq_true, if_true]
    apply (ensures_emit h .ret).bind
    intro _ g' hg'
    exact ⟨[.ret], Or.inr rfl, by simp, hclose hg'.1, hg'.2⟩

/-- What the walk passes by in the head of a procedure and at the end of a program. -/
def headingTags : List Tag :=
  [.identifier, .procedureUsings, .procedureReturnings, .endProgram]

theorem visitor_headings (env : Env) : (visitor env).InertOn headingTags := by
  intro n hn
  obtain ⟨id, payload, location, children⟩ := n
  cases payload <;> first | exact ⟨rfl, rfl⟩ | simp [Node.tag, Payload.tag, headingTags] at hn

theorem walkAll_parameters (env : Env) (shape : ProgramShape) :
    (visitor env).walkAll shape.parameters = pure () := by
  apply (visitor_headings env).walkAll
  intro n hn
  rcases List.mem_append.mp hn with hn | hn
  · exact shape.frame.isUsings.tags (by decide)
      (fun u hu => (shape.frame.areUsings u hu).tags (by decide)) n hn
  · exact shape.frame.isReturnings.tags (by decide)
      (fun r hr => (shape.frame.areReturnings r hr).tags (by decide)) n hn

theorem walkAll_ends (env : Env) (shape : ProgramShape) :
    (visitor env).walkAll shape.ends = pure () := by
  obtain ⟨marker, hends⟩ := shape.areEnds
  apply (visitor_headings env).walkAll
  exact hends.tags (by simp [Payload.tag, headingTags]) (by simp)

/-- Outside of procedures literals are clauses of fields, and the walk passes them by. -/
theorem walkAll_head (env : Env) (shape : ProgramShape) (hprocedure : g.inProcedure = false) :
    (visitor env).walkAll shape.head g = .ok () g := by
  have hliteral (step : GenM Unit) : ifInProcedure step g = .ok () g := by
    change EStateM.bind get (fun g' => if g'.inProcedure then step else pure ()) g = _
    change (if g.inProcedure then step else pure ()) g = _
    rw [hprocedure]
    rfl
  apply Visitor.walkAll_of_forall_at
  intro n hn
  apply Visitor.walk_inert_at
  intro m hm
  have htag := shape.tags_head n hn m hm
  obtain ⟨id, payload, location, children⟩ := m
  cases payload <;>
    first
    | exact ⟨rfl, rfl⟩
    | exact ⟨hliteral _, rfl⟩
    | simp [Node.tag, Payload.tag, Tag.frameTags] at htag

/-- The next prototype is the one by which calls know the program that is opened. -/
theorem assertOrder_eq {n : Node} (hbound : env.bindings.program? n = some p)
    (h : Inside site code depth calls g)
    (hnext : site.prototypes[p]?.map (·.toNat) = some site.done.size) :
    assertOrder env n g = .ok () g := by
  rw [← h.programs_eq, ← h.open_eq] at hnext
  unfold assertOrder
  rw [bind_apply, get_apply]
  dsimp only
  rw [if_neg (by rw [hbound, Option.bind_some, hnext]; exact not_not_intro rfl)]
  rfl

/-- The walk of a program: it is opened, its statements are walked, and it is closed. -/
theorem walk_program (env : Env) (shape : ProgramShape) :
    (visitor env).walk shape.node = (do
      openProgram env shape.node
      assertOrder env shape.node
      (visitor env).walkAll shape.head
      modify fun g => { g with inProcedure := true }
      (visitor env).walkAll shape.statements
      closeProgram) := by
  have hprocedure : (visitor env).walk (shape.frame.procedure shape.statements) = (do
      modify fun g => { g with inProcedure := true }
      (visitor env).walkAll shape.statements) := by
    rw [Visitor.walk_of_leave rfl, shape.children_procedure, Visitor.walkAll_append,
      walkAll_parameters, pure_bind]
    rfl
  have henter : (visitor env).enter shape.node = (do
      openProgram env shape.node
      assertOrder env shape.node) := rfl
  rw [Visitor.walk_eq, henter, shape.children_node, Visitor.walkAll_append, Visitor.walkAll_cons,
    hprocedure, walkAll_ends, bind_pure_unit]
  simp only [bind_assoc]
  rfl

/-- What the programs of a file are generated against. -/
structure FileContext (env : Env) (chunk : ChunkId) (programs : List String)
    (interface : Callee → Interface) (prototypes : Std.TreeMap ProgramId UInt16) :
    Prop extends KnowsCallees env chunk interface where
  prototypes : ∀ q ∈ (env.globals.chunk chunk).programs.toList,
    ∃ i, prototypes[q]? = some i ∧ programs[i.toNat]? = some (env.globals.program q).name

/-- A program of a file as its syntax has it, with its statements after lowering. -/
structure ProgramAt (env : Env) (chunk : ChunkId) (shape : ProgramShape) (p : ProgramId)
    (program : Program) : Prop where
  describes : Describes env.globals p program
  bound : env.bindings.programs[shape.frame.id]? = some p
  statements_eq : shape.statements.map Statement.ofNode =
    program.statements.flatMap Statement.lowered
  noDisplay : ∀ s ∈ shape.statements, s.tag ≠ .displayStatement
  ready : ∀ n ∈ shape.nodes, CallSite.Ready env.globals chunk p env.bindings n

variable {chunk : ChunkId} {programs : List String} {interface : Callee → Interface} {name : String}
  {prototypes : Std.TreeMap ProgramId UInt16} {done : Array Prototype}

/-- Walking a program adds its prototype, if that is the next one. -/
theorem ensures_walk_program (hfile : FileContext env chunk programs interface prototypes)
    {shape : ProgramShape} {program : Program} (hprogram : ProgramAt env chunk shape p program)
    (h : Between name done prototypes g) (hnext : prototypes[p]?.map (·.toNat) = some done.size) :
    Ensures ((visitor env).walk shape.reversed.node) g
      (fun _ g' => ∃ prototype, Between name (done.push prototype) prototypes g' ∧
        g.tables.Le g'.tables ∧ CompiledProgram g'.tables programs interface program prototype)
      (fun e _ => EmissionStop env.file shape.nodes e) := by
  have hdescribes := hprogram.describes
  have hreturnings : ∀ f ∈ (env.globals.program p).returnings.toList,
      f ∈ (env.globals.program p).fields.toList ∧ isWorking env.globals f = false :=
    fun f hf => hdescribes.signature f (List.mem_append_right _ hf)
  have hopen :=
    ensures_openProgram (n := shape.reversed.node) hprogram.bound hdescribes.initial hreturnings h
  rw [walk_program]
  apply (ensures_of_limit hopen env.file shape.nodes).bind
  intro _ g₁ hg₁
  obtain ⟨header, slots, locals, husings, hreturnings', hfields, hinside, hle, hlocals, hplaces⟩ :=
    hg₁
  have horder : assertOrder env shape.reversed.node g₁ = .ok () g₁ :=
    assertOrder_eq hprogram.bound hinside hnext
  rw [ensures_bind, ensures_of_eq horder, ensures_bind,
    ensures_of_eq (walkAll_head env shape.reversed hinside.inProcedure_eq), ensures_bind,
    ensures_modify]
  -- from here on literals are arguments
  let site : Site := { openSite name done prototypes header slots with inProcedure := true }
  have hstart :
      Inside site locals program.layout.locals.length [] { g₁ with inProcedure := true } := by
    have hlength : (idLayout env.globals p).locals.length = program.layout.locals.length := by
      rw [← hdescribes.layout_eq, FrameLayout.map, List.length_map]
    rw [hlength] at hinside
    exact { hinside with inProcedure_eq := rfl }
  have hemitting : Emitting env chunk p ⟨program.layout, programs, interface⟩ site := by
    refine ⟨hfile.toKnowsCallees, ?_, hfile.prototypes, rfl⟩
    rintro _ f ⟨hf, rfl⟩
    obtain ⟨slot, hslot⟩ := hplaces.has f hf
    have hnamed := (hplaces.right f slot hslot).map fun f => (env.globals.field f).name
    rw [hdescribes.layout_eq] at hnamed
    exact ⟨slot, hslot, hnamed⟩
  have hstatements : ∀ s ∈ shape.statements, IsStatement s ∧ s.tag ≠ .displayStatement :=
    fun s hs => ⟨shape.areStatements s hs, hprogram.noDisplay s hs⟩
  have hready : ∀ s ∈ shape.statements, ∀ n ∈ s.nodes,
      CallSite.Ready env.globals chunk p env.bindings n ∧ n ∈ shape.nodes := by
    intro s hs n hn
    have hmem : n ∈ shape.nodes := List.mem_flatMap.mpr ⟨s, hs, hn⟩
    exact ⟨hprogram.ready n hmem, hmem⟩
  apply (ensures_walk_statements hemitting hstatements hready hstart).bind
  intro _ g₂ hg₂
  obtain ⟨_, hinside₂, hle₂, codes, rfl, hcodes⟩ := hg₂
  apply (ensures_closeProgram hinside₂).mono _ fun _ _ hfalse => hfalse.elim
  intro _ g₃ hg₃
  obtain ⟨ending, hending, hlast, hbetween, htables⟩ := hg₃
  have hgrows : g₁.tables.Le g₃.tables := htables ▸ hle₂
  refine ⟨_, hbetween, hle.trans hgrows, hdescribes.wellNamed, ?_, ?_, ?_, ?_⟩
  · rw [← hdescribes.usings_eq, List.length_map]
    exact husings
  · rw [← hdescribes.returnings_eq, List.length_map]
    exact hreturnings'
  · change header.fields.toList = _
    rw [hfields, ← hdescribes.working_eq, List.map_map]
    rfl
  · refine ⟨locals, codes, ending, ?_, ?_, ?_, hending, ?_⟩
    · simp
    · rw [← hdescribes.initials_eq]
      exact hlocals.imp fun v i hi => by
        cases hi with | intro i h => exact .intro i (hgrows.constants _ _ h)
    · rw [← hprogram.statements_eq, htables]
      exact hcodes
    · simpa using hlast

end CobolCompiler.Generation
