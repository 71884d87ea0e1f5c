import CobolCompiler.Proofs.Compilation
import CobolCompiler.Proofs.Growth
import CobolCompiler.Proofs.LeftAlone

/-!
# Prototype names and imports

What holds of a module under construction apart from its code: which names its prototypes have, and
which imports it has. A prototype gets its name when it is opened and keeps it. An import is added
right before the instruction that pushes it is emitted, and instructions are never removed, so there
is an instruction for every import (`Assembler.Linked`).

The steps of code generation keep this, and those that open a program add its name
(`Grounded.links`).
-/

namespace CobolCompiler

open Machine Translation Syntax

/-! ### What the assembler keeps -/

namespace Machine.Assembler

/-- The prototypes of the module under construction go by `names`, and there is an instruction for
each import that pushes it: one that was emitted, or one that is about to be. -/
structure Linked (names : List (Option String)) (pending : List Instruction)
    (a : Assembler) : Prop where
  names_eq : a.built.prototypes.toList.map (·.name?) = names
  open_lt : ∀ index, a.open? = some index → index < a.built.prototypes.size
  nodup : a.built.imports.toList.Nodup
  used : ∀ j < a.built.imports.size, ∃ i : UInt16, i.toNat = j ∧ (.imported i ∈ pending ∨
    ∃ prototype ∈ a.built.prototypes.toList, .imported i ∈ prototype.code.toList)

variable {names : List (Option String)} {pending : List Instruction} {a : Assembler}

namespace Linked

/-- Nothing is linked in a module that has just begun. -/
theorem begin (name : String) : Linked [] [] ⟨Module.empty name, none⟩ where
  names_eq := rfl
  open_lt := by simp
  nodup := List.nodup_nil
  used := by simp [Module.empty]

theorem openPrototype (h : Linked names [] a) (name? : Option String) (usings returnings : UInt8) :
    Linked (names ++ [name?]) [] ⟨{ a.built with
      prototypes := a.built.prototypes.push ⟨name?, usings, returnings, #[], #[]⟩ },
      some a.built.prototypes.size⟩ where
  names_eq := by simp [← h.names_eq]
  open_lt := by simp
  nodup := h.nodup
  used := by
    intro j hj
    obtain ⟨i, hi, hused⟩ := h.used j hj
    refine ⟨i, hi, hused.imp id ?_⟩
    intro hcode
    obtain ⟨prototype, hmem, hcode⟩ := hcode
    exact ⟨prototype, by simp [Array.mem_toList_iff.mp hmem], hcode⟩

/-- A prototype changes, but not its name, and what is in its code stays there. -/
theorem modifyPrototype (h : Linked names pending a) (index : Nat) {change : Prototype → Prototype}
    (hname : ∀ p, (change p).name? = p.name?)
    (hcode : ∀ p, ∀ i ∈ p.code.toList, i ∈ (change p).code.toList) :
    Linked names pending { a with built := Assembler.modifyPrototype index change a.built } where
  names_eq := by
    rw [← h.names_eq, Assembler.modifyPrototype, Array.toList_modify]
    apply List.ext_getElem?
    intro j
    simp only [List.getElem?_map, List.getElem?_modify]
    cases a.built.prototypes.toList[j]? with
    | none => rfl
    | some p => by_cases hj : index = j <;> simp [hj, hname]
  open_lt := by
    intro i hi
    simpa [Assembler.modifyPrototype] using h.open_lt i hi
  nodup := h.nodup
  used := by
    intro j hj
    obtain ⟨i, hi, hused⟩ := h.used j hj
    refine ⟨i, hi, hused.imp id ?_⟩
    intro hin
    obtain ⟨prototype, hmem, hin⟩ := hin
    obtain ⟨k, hk⟩ := List.getElem?_of_mem hmem
    -- the prototype that uses the import is at the same place, changed or not
    have hget : (a.built.prototypes.toList.modify index change)[k]? =
        some (if index = k then change prototype else prototype) := by
      rw [List.getElem?_modify, hk]
      by_cases hik : index = k <;> simp [hik]
    refine ⟨if index = k then change prototype else prototype, ?_, ?_⟩
    · rw [Assembler.modifyPrototype, Array.toList_modify]
      exact List.mem_of_getElem? hget
    · by_cases hik : index = k
      · rw [if_pos hik]
        exact hcode prototype _ hin
      · rwa [if_neg hik]

/-- An instruction is pending, or there is none. -/
theorem weaken (h : Linked names [] a) (pending : List Instruction) : Linked names pending a := by
  refine ⟨h.names_eq, h.open_lt, h.nodup, fun j hj => ?_⟩
  obtain ⟨i, hi, hused⟩ := h.used j hj
  exact ⟨i, hi, Or.inr (hused.resolve_left (by simp))⟩

/-- Once the instruction that was pending is emitted, nothing is pending. -/
theorem emit {i : Instruction} (h : Linked names [i] a) {index : Nat}
    (hopen : a.open? = some index) :
    Linked names [] { a with
      built :=
        Assembler.modifyPrototype index (fun p => { p with code := p.code.push i }) a.built } := by
  have hgrown : Linked names [i] { a with
      built :=
        Assembler.modifyPrototype index (fun p => { p with code := p.code.push i }) a.built } := by
    apply h.modifyPrototype index
    · intro p
      rfl
    · intro p j hj
      simp [Array.mem_toList_iff.mp hj]
  refine ⟨hgrown.names_eq, hgrown.open_lt, hgrown.nodup, fun j hj => ?_⟩
  obtain ⟨k, hk, hused⟩ := hgrown.used j hj
  refine ⟨k, hk, Or.inr ?_⟩
  rcases hused with hpending | hused
  · -- the instruction now stands at the end of the open prototype
    obtain rfl := List.mem_singleton.mp hpending
    have hlt := h.open_lt index hopen
    have hget : (a.built.prototypes.toList.modify index fun p =>
        { p with code := p.code.push (.imported k) })[index]? =
        some { a.built.prototypes[index] with
          code := a.built.prototypes[index].code.push (.imported k) } := by
      rw [List.getElem?_modify, Array.getElem?_toList, Array.getElem?_eq_getElem hlt]
      simp
    refine ⟨{ a.built.prototypes[index] with
      code := a.built.prototypes[index].code.push (.imported k) }, ?_, by simp⟩
    rw [Assembler.modifyPrototype, Array.toList_modify]
    exact List.mem_of_getElem? hget
  · exact hused

/-- A program of another module is among the imports, or it is added to them. -/
theorem addImport (h : Linked names [] a) (owner program : String) :
    Ensures (Assembler.addImport owner program) a (fun i => Linked names [.imported i])
      (fun _ _ => True) := by
  unfold Assembler.addImport
  simp only [ensures_bind, ensures_get]
  cases hfound : a.built.imports.findIdx? (· = ⟨owner, program⟩) with
  | some index => exact h.weaken _
  | none =>
    apply Generation.ensures_append _ trivial
    intro i hlt hi
    have hnew : (⟨owner, program⟩ : Import) ∉ a.built.imports.toList := by
      intro hmem
      have hnone :=
        Array.findIdx?_eq_none_iff.mp hfound ⟨owner, program⟩ (Array.mem_toList_iff.mp hmem)
      simp at hnone
    refine ⟨h.names_eq, h.open_lt, ?_, ?_⟩
    · show (a.built.imports.push ⟨owner, program⟩).toList.Nodup
      rw [Array.toList_push, List.nodup_append]
      refine ⟨h.nodup, List.nodup_singleton _, ?_⟩
      intro target htarget other hother heq
      obtain rfl := List.mem_singleton.mp hother
      exact hnew (heq ▸ htarget)
    · intro j hj
      have hbound : j < a.built.imports.size + 1 := by
        have hsize : j < (a.built.imports.push ⟨owner, program⟩).size := hj
        rwa [Array.size_push] at hsize
      by_cases hlast : j = a.built.imports.size
      · exact ⟨i, hi.trans hlast.symm, Or.inl (List.mem_singleton.mpr rfl)⟩
      · obtain ⟨k, hk, hused⟩ := h.used j (by omega)
        exact ⟨k, hk, Or.inr (hused.resolve_left (by simp))⟩

end Linked

end Machine.Assembler

/-! ### What the generator keeps -/

namespace Generation

variable {α : Type} {env : Env} {g : Generator} {names more : List (Option String)}

/-- The instruction that is emitted may be the one that an import is waiting for. -/
theorem links_emit {i : Instruction} (h : g.assembler.Linked names [i]) :
    Ensures (emit i) g (fun _ g' => g'.assembler.Linked names []) (fun _ _ => True) := by
  unfold emit
  rw [ensures_assemble, Assembler.emit, ensures_bind]
  unfold Ensures Assembler.opened
  cases hopen : g.assembler.open? with
  | none => trivial
  | some index => exact h.emit hopen

theorem links_addField (value : Value) (h : g.assembler.Linked names []) :
    Ensures (assemble (Assembler.addField value)) g (fun _ g' => g'.assembler.Linked names [])
      (fun _ _ => True) := by
  rw [ensures_assemble, Assembler.addField, ensures_bind]
  unfold Ensures Assembler.opened
  cases hopen : g.assembler.open? with
  | none => trivial
  | some index =>
    apply ensures_append _ trivial
    intro i _ _
    exact h.modifyPrototype index (fun _ => rfl) fun _ _ hi => hi

/-- The program of a call is pushed as soon as it is imported. -/
theorem links_pushCallable (call : Node) (h : g.assembler.Linked names []) :
    Ensures (pushCallable env call) g (fun _ g' => g'.assembler.Linked names [])
      (fun _ _ => True) := by
  have hcallable : Ensures (callableOf env call) g (fun i g' => g'.assembler.Linked names [i])
      (fun _ _ => True) := by
    unfold callableOf
    rw [ensures_bind, ensures_require]
    refine ⟨fun callee _ => ?_, fun _ => trivial⟩
    split
    · rw [ensures_bind, ensures_assemble]
      exact (h.addImport _ _).imp fun _ _ h => h
    · rw [ensures_bind, ensures_get, ensures_bind, ensures_require]
      exact ⟨fun _ _ => h.weaken _, fun _ => trivial⟩
  unfold pushCallable
  apply hcallable.bind
  intro i g' hg'
  rw [ensures_bind, ensures_modify, emitPush, ensures_bind]
  apply (links_emit (g := { g' with calls := g'.depth :: g'.calls }) hg').imp fun _ _ h => h

/-- A step that only fills the open program keeps the names of the prototypes, and leaves no import
without an instruction for it. -/
theorem Quiet.links {step : GenM α} (hstep : Quiet step) (h : g.assembler.Linked names []) :
    Ensures step g (fun _ g' => g'.assembler.Linked names []) (fun _ _ => True) := by
  induction hstep generalizing g with
  | still hleaves =>
    refine (hleaves g).mono (fun _ g' heq => ?_) fun _ _ _ => trivial
    rwa [show g'.assembler = g.assembler from congrArg Prod.fst heq]
  | emit i => exact links_emit (h.weaken [i])
  | addField value => exact links_addField value h
  | pushCallable call => exact links_pushCallable call h
  | bind _ _ ih ihnext =>
    rw [ensures_bind]
    exact (ih h).imp fun b _ hb => ihnext b hb

/-- The names of the prototypes that a step opens come after those that were there. -/
theorem Grounded.links {step : GenM α} (hstep : Grounded more step)
    (h : g.assembler.Linked names []) :
    Ensures step g (fun _ g' => g'.assembler.Linked (names ++ more) []) (fun _ _ => True) := by
  induction hstep generalizing names g with
  | quiet hquiet =>
    rw [List.append_nil]
    exact hquiet.links h
  | @modify f heq =>
    rw [List.append_nil, ensures_modify]
    rwa [show (f g).assembler = g.assembler from congrArg Prod.fst (heq g)]
  | intern value =>
    -- constants are not part of what is linked
    have hparts : Leaves
        (fun g => (g.assembler.built.prototypes, g.assembler.open?, g.assembler.built.imports))
        (Generation.intern value) := leaves_intern value (fun _ _ => rfl) fun _ _ => rfl
    refine (hparts g).mono (fun _ g' heq => ?_) fun _ _ _ => trivial
    simp only [Prod.mk.injEq] at heq
    rw [List.append_nil]
    exact ⟨by rw [heq.1]; exact h.names_eq, by rw [heq.1, heq.2.1]; exact h.open_lt,
      by rw [heq.2.2]; exact h.nodup, by rw [heq.1, heq.2.2]; exact h.used⟩
  | openPrototype name? usings returnings =>
    rw [ensures_assemble, Assembler.openPrototype, ensures_bind]
    apply ensures_append _ trivial
    intro i _ hi
    show Assembler.Linked _ [] ⟨_, some i.toNat⟩
    rw [hi]
    exact h.openPrototype name? usings returnings
  | close =>
    rw [List.append_nil, ensures_assemble]
    exact ⟨h.names_eq, by simp, h.nodup, h.used⟩
  | bind _ _ ih ihnext =>
    rw [ensures_bind, ← List.append_assoc]
    exact (ih h).imp fun b _ hb => ihnext b hb

/-! ### The walk -/

/-- Entering a program opens it. -/
theorem links_enter_program {n : Node} (hn : n.tag = .program) {p : ProgramId}
    (hbound : env.bindings.program? n = some p) (h : g.assembler.Linked names []) :
    Ensures ((visitor env).enter n) g
      (fun _ g' => g'.assembler.Linked (names ++ [outerName? (env.globals.program p)]) [])
        (fun _ _ => True) := by
  rw [enter_program (payload_of_tag hn rfl)]
  exact ((grounded_openProgram hbound).bind fun _ => .quiet (.still (leaves_assertOrder n))).links h

/-- Walking a program adds its name. -/
theorem links_walk_program (shape : ProgramShape) {p : ProgramId}
    (hbound : env.bindings.program? shape.node = some p) (h : g.assembler.Linked names []) :
    Ensures ((visitor env).walk shape.node) g
      (fun _ g' => g'.assembler.Linked (names ++ [outerName? (env.globals.program p)]) [])
        (fun _ _ => True) := by
  rw [Visitor.walk_eq]
  apply (links_enter_program rfl hbound h).bind
  intro _ g₁ hg₁
  have hbelow : Ensures ((visitor env).walkAll shape.node.children) g₁
      (fun _ g' => g'.assembler.Linked (names ++ [outerName? (env.globals.program p)]) [])
      (fun _ _ => True) := by
    apply Visitor.ensures_walkAll_of_mem (I := fun g : Generator =>
      g.assembler.Linked (names ++ [outerName? (env.globals.program p)]) []) _ _ hg₁
    · intro n hn m hm g' hg'
      obtain ⟨hmodule, hprogram⟩ := shape.tag_below hn hm
      simpa using (grounded_enter hmodule fun h => hprogram (congrArg Payload.tag h)).links hg'
    · intro n hn m hm g' hg'
      simpa using (grounded_leave m).links hg'
  apply hbelow.bind
  intro _ g₂ hg₂
  simpa using (grounded_leave shape.node).links hg₂

/-- Walking programs adds their names, in order. -/
theorem links_walk_programs {shapes : List ProgramShape} {more : List (Option String)}
    (hnames : List.Forall₂ (fun (shape : ProgramShape) name? =>
      ∃ p, env.bindings.programs[shape.frame.id]? = some p ∧
      outerName? (env.globals.program p) = name?) shapes more) (h : g.assembler.Linked names []) :
    Ensures (shapes.forM fun shape => (visitor env).walk shape.reversed.node) g
      (fun _ g' => g'.assembler.Linked (names ++ more) []) (fun _ _ => True) := by
  induction hnames generalizing names g with
  | nil => rwa [List.append_nil]
  | @cons shape name? shapes more hname _ ih =>
    obtain ⟨p, hbound, rfl⟩ := hname
    change Ensures ((visitor env).walk shape.reversed.node >>= fun _ => shapes.forM _) g _ _
    apply (links_walk_program shape.reversed hbound h).bind
    intro _ g' hg'
    have hrest := ih hg'
    rwa [List.append_assoc] at hrest

/-- Beginning a module leaves it without prototypes and imports. -/
theorem links_beginModule (n : Node) (g : Generator) :
    Ensures (beginModule env n) g (fun _ g' => g'.assembler.Linked [] []) (fun _ _ => True) := by
  have hindex (programs : List ProgramId) :
      Leaves Generator.assembler (indexPrograms programs) := by
    refine leaves_forM (fun item => ?_) _
    dsimp only
    split
    · exact leaves_modify fun _ => rfl
    · exact leaves_throw _
  unfold beginModule
  rw [ensures_bind, ensures_assemble]
  show Ensures _ { g with assembler := ⟨Module.empty n.name, none⟩ } _ _
  rw [ensures_bind, ensures_modify, ensures_bind, ensures_require]
  refine ⟨fun chunk _ => ?_, fun _ => trivial⟩
  exact (hindex _ _).mono (fun _ _ heq => heq ▸ .begin n.name) fun _ _ _ => trivial

/-- Walking a module leaves the names of its exported programs, in order. -/
theorem links_visit {m : ModuleShape} (hnames : List.Forall₂ (fun (shape : ProgramShape) name? =>
      ∃ p, env.bindings.programs[shape.frame.id]? = some p ∧
      outerName? (env.globals.program p) = name?) m.programs names) (g : Generator) :
    Ensures ((visitor env).visit m.reversed.node) g (fun _ g' => g'.assembler.Linked names [])
      (fun _ _ => True) := by
  rw [visit_reversed]
  apply (links_beginModule m.reversed.node g).bind
  intro _ g' hg'
  exact links_walk_programs hnames hg'

/-- What is generated has the names that the tree gives, and an instruction for each of its
imports. -/
theorem Generated.linked {policy : FractionPolicy} {before : ModuleShape} {globals : Globals}
    {product : Module} (h : Generated policy before globals product) :
    ∃ open?,
      Assembler.Linked (before.programs.map fun shape => if (shape.node.child? .exportMark).isSome
        then some shape.node.name else none) [] ⟨product, open?⟩ := by
  obtain ⟨m, run, chunk, g, hfile, -, hframes, hvisit, rfl⟩ := h
  -- the name and the mark of each program were bound when it was declared
  have hnames : List.Forall₂ (fun (shape : ProgramShape) name? =>
      ∃ p, (envOf run).bindings.programs[shape.frame.id]? = some p ∧
        outerName? ((envOf run).globals.program p) = name?) m.programs
      (m.programs.map fun shape => if shape.frame.exports.isEmpty then none
        else some shape.frame.nameText) := by
    rw [List.forall₂_map_right_iff, List.forall₂_same]
    intro shape hshape
    obtain ⟨q, -, hbound, hheader⟩ := exists_of_forall₂_right hfile.bound hshape
    refine ⟨q, hbound, ?_⟩
    have hname : (run.globals.program q).name = shape.frame.nameText := congrArg Prod.fst hheader
    have hexported : (run.globals.program q).exported = !shape.frame.exports.isEmpty :=
      congrArg (fun header => header.2.2) hheader
    show outerName? (run.globals.program q) = _
    rw [outerName?, hname, hexported]
    cases shape.frame.exports.isEmpty <;> rfl
  -- the passes between leave headings alone, so the tree before them gives the same names
  have hsame : (m.programs.map fun shape => if shape.frame.exports.isEmpty then none
      else some shape.frame.nameText) = before.programs.map fun shape =>
        if (shape.node.child? .exportMark).isSome then some shape.node.name else none := by
    have hheadings := congrArg (List.map fun frame : ProgramFrame =>
      if frame.exports.isEmpty then none else some frame.nameText) hframes
    rw [List.map_map, List.map_map] at hheadings
    refine hheadings.trans (List.map_congr_left fun shape _ => ?_)
    show (if shape.frame.exports.isEmpty then none else some shape.frame.nameText) = _
    rw [Declaration.child?_exportMark, ProgramShape.node, shape.frame.name_node]
    cases shape.frame.exports.isEmpty <;> rfl
  exact ⟨g.assembler.open?, hsame ▸ (links_visit hnames run.memory.generator).of_ok hvisit⟩

end Generation

end CobolCompiler
