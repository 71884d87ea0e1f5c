import CobolCompiler.Proofs.Assembly
import CobolCompiler.Proofs.CallAcceptance
import CobolCompiler.Proofs.LeftAlone
import CobolCompiler.Proofs.Translation
import Mathlib.Data.List.Zip

/-!
# The generator emits the code of a program

While the statements of a program are walked, the generator appends instructions to one prototype,
and it may add constants and imports. `Inside` says what the generator looks like at such a moment:
what was emitted so far, how many entries are on the stack, and which calls are open. Every step
keeps it and appends code that `Translation` asks for.

A step stops only at a limit of the module format or at a number literal that is no value
(`EmissionStop`).
-/

namespace CobolCompiler

open Machine Translation Syntax

/-- The constants and imports of a module under construction. -/
def Generator.tables (g : Generator) : Tables :=
  ⟨g.assembler.built.constants, g.assembler.built.imports⟩

/-- The stop is a limit of the module format. -/
def Stop.IsLimit (e : Stop) : Prop :=
  ∃ error : AssembleError, error ≠ .noOpenPrototype ∧ e = .failed (.assemble error)

namespace Generation

variable {c : Node} {err : Stop → Generator → Prop} {f : FieldId} {n : Node} {nodes : List Node}
  {q : ProgramId} {slot : Slot} {usage : Usage} {α : Type}

/-! ### What the generator looks like -/

/-- What stays the same while instructions are emitted. -/
structure Site where
  /-- The name of the module. -/
  name : String
  /-- The prototypes that are finished. -/
  done : Array Prototype
  /-- The open prototype, without its code. -/
  header : Prototype
  slots : Std.TreeMap FieldId Slot
  prototypes : Std.TreeMap ProgramId UInt16
  inProcedure : Bool

/-- The generator has emitted `code` for the open prototype, with `depth` entries on the stack and
the callables of open calls at `calls`. -/
structure Inside (site : Site) (code : List Instruction) (depth : Nat) (calls : List Nat)
    (g : Generator) : Prop where
  name_eq : g.assembler.built.name = site.name
  prototypes_eq :
    g.assembler.built.prototypes = site.done.push { site.header with code := code.toArray }
  open_eq : g.assembler.open? = some site.done.size
  pool : ∀ (v : Value) (i : UInt16), g.pool[v]? = some i → g.tables.constants[i.toNat]? = some v
  imports_le : g.tables.imports.size ≤ Assembler.room
  slots_eq : g.slots = site.slots
  programs_eq : g.prototypes = site.prototypes
  depth_eq : g.depth = depth
  calls_eq : g.calls = calls
  inProcedure_eq : g.inProcedure = site.inProcedure
  started : g.started = true

/-- A step appended code of some kind. -/
def Emits (site : Site) (code : List Instruction) (depth : Nat) (calls : List Nat) (g : Generator)
    (Kind : Tables → List Instruction → Prop) (_ : Unit) (g' : Generator) : Prop :=
  ∃ emitted, Inside site (code ++ emitted) depth calls g' ∧ g.tables.Le g'.tables ∧
    Kind g'.tables emitted

variable {site : Site} {code : List Instruction} {depth : Nat} {calls : List Nat} {g : Generator}

theorem modify_push_size (items : Array α) (item : α) (f : α → α) :
    (items.push item).modify items.size f = items.push (f item) := by
  apply Array.ext
  · simp
  · intro i hi hi'
    rw [Array.getElem_modify]
    by_cases heq : items.size = i
    · subst heq
      simp
    · have hlt : i < items.size := by
        rw [Array.size_push] at hi'
        omega
      simp [heq, Array.getElem_push, hlt]

/-! ### Instructions -/

theorem ensures_opened (h : Inside site code depth calls g) {ok : Nat → Assembler → Prop}
    {err : AssembleError → Assembler → Prop} (hok : ok site.done.size g.assembler) :
    Ensures Assembler.opened g.assembler ok err := by
  rw [Assembler.ensures_opened, h.open_eq]
  exact ⟨fun k hk => Option.some.inj hk ▸ hok, fun hnone => by cases hnone⟩

/-- Emitting an instruction appends it to the code. -/
theorem ensures_emit (h : Inside site code depth calls g) (i : Instruction) :
    Ensures (emit i) g (fun _ g' => Inside site (code ++ [i]) depth calls g' ∧ g'.tables = g.tables)
      err := by
  rw [emit, ensures_assemble, Assembler.emit, ensures_bind]
  apply ensures_opened h
  refine ⟨?_, rfl⟩
  have hprototypes : (Assembler.modifyPrototype
      site.done.size (fun p => { p with code := p.code.push i }) g.assembler.built).prototypes =
      site.done.push { site.header with code := (code ++ [i]).toArray } := by
    simp only [Assembler.modifyPrototype, h.prototypes_eq, modify_push_size]
    simp
  exact { h with prototypes_eq := hprototypes }

theorem ensures_emitPush (h : Inside site code depth calls g) (i : Instruction) :
    Ensures (emitPush i) g
      (fun _ g' => Inside site (code ++ [i]) (depth + 1) calls g' ∧ g'.tables = g.tables) err := by
  unfold emitPush
  refine (ensures_emit h i).bind ?_
  rintro _ g' ⟨hg', htables⟩
  rw [ensures_modify]
  have hdepth : g'.depth + 1 = depth + 1 := by rw [hg'.depth_eq]
  exact ⟨{ hg' with depth_eq := hdepth }, htables⟩

/-- An instruction that pops is emitted when there is something on the stack. -/
theorem ensures_emitPop (h : Inside site code (depth + 1) calls g) (i : Instruction) :
    Ensures (emitPop i) g
      (fun _ g' => Inside site (code ++ [i]) depth calls g' ∧ g'.tables = g.tables) err := by
  unfold emitPop
  simp only [ensures_bind, ensures_get]
  refine (ensures_emit h i).imp ?_
  rintro _ g' ⟨hg', htables⟩
  rw [hg'.depth_eq]
  exact ⟨{ hg' with depth_eq := rfl }, htables⟩

/-! ### Indices -/

theorem ensures_frameIndex {position : Nat} {ok : Int16 → Generator → Prop}
    (hok : ∀ s : Int16, s.toInt = position → ok s g) :
    Ensures (frameIndex position) g ok (fun e _ => e.IsLimit) := by
  unfold frameIndex
  split
  · next hlt => exact hok _ (Int16.toInt_ofNat_of_lt hlt)
  · exact ⟨.tooManySlots, by decide, rfl⟩

theorem ensures_argumentCount {n : Nat} {ok : UInt8 → Generator → Prop}
    (hok : ∀ count : UInt8, count.toNat = n → ok count g) :
    Ensures (argumentCount n) g ok (fun e _ => e.IsLimit) := by
  unfold argumentCount
  split
  · next hlt => exact hok _ (UInt8.toNat_ofNat_of_lt' hlt)
  · exact ⟨.tooManyArguments, by decide, rfl⟩

/-- Appending to a list of the module gives the index of what was added, or finds no room. -/
theorem ensures_append {size : Module → Nat} {full : AssembleError} {change : Module → Module}
    {a : Assembler} {ok : UInt16 → Assembler → Prop} {err : AssembleError → Assembler → Prop}
    (hok : ∀ i : UInt16, size a.built < Assembler.room → i.toNat = size a.built →
      ok i { a with built := change a.built })
    (herr : err full a) : Ensures (Assembler.append size full change) a ok err := by
  rw [Assembler.ensures_append]
  exact ⟨fun hlt => hok _ hlt (UInt16.toNat_ofNat_of_lt' hlt), fun _ => herr⟩

/-! ### Constants and imports -/

theorem le_push_constant (t : Tables) (v : Value) :
    t.Le { t with constants := t.constants.push v } where
  constants := fun _ _ h => getElem?_of_grown (by simp) h
  imports := fun _ _ h => h

theorem le_push_import (t : Tables) (v : Import) : t.Le { t with imports := t.imports.push v } where
  constants := fun _ _ h => h
  imports := fun _ _ h => getElem?_of_grown (by simp) h

/-- A constant is found in the pool or added to it. -/
theorem ensures_intern (h : Inside site code depth calls g) (v : Value) :
    Ensures (intern v) g
      (fun i g' => Inside site code depth calls g' ∧ g.tables.Le g'.tables ∧
        g'.tables.constants[i.toNat]? = some v)
      (fun e _ => e.IsLimit) := by
  unfold intern
  simp only [ensures_bind, ensures_get]
  cases hpool : g.pool[v]? with
  | some i => exact ⟨h, .refl _, h.pool v i hpool⟩
  | none =>
    simp only [ensures_bind, ensures_assemble, ensures_modify, ensures_pure]
    refine ensures_append ?_ ⟨.tooManyConstants, by decide, rfl⟩
    intro i _ hi
    have hadded : (g.tables.constants.push v)[i.toNat]? = some v := by
      rw [hi]
      exact Array.getElem?_push_size
    refine ⟨{ h with pool := ?_ }, le_push_constant g.tables v, hadded⟩
    -- the other constants keep their indices, as the pool only grows at its end
    intro w j hw
    change (g.pool.insert v i)[w]? = some j at hw
    change (g.tables.constants.push v)[j.toNat]? = some w
    rw [Std.TreeMap.getElem?_insert] at hw
    split at hw
    · next heq =>
      rw [Std.LawfulEqOrd.compare_eq_iff_eq] at heq
      subst heq
      rw [← Option.some.inj hw]
      exact hadded
    · exact (le_push_constant g.tables v).constants _ _ (h.pool w j hw)

/-- A program of another module is found among the imports or added to them. -/
theorem ensures_addImport (h : Inside site code depth calls g) (owner program : String) :
    Ensures (assemble (Assembler.addImport owner program)) g
      (fun i g' => Inside site code depth calls g' ∧ g.tables.Le g'.tables ∧
        g'.tables.imports[i.toNat]? = some ⟨owner, program⟩)
      (fun e _ => e.IsLimit) := by
  rw [ensures_assemble]
  unfold Assembler.addImport
  simp only [ensures_bind, ensures_get]
  cases hfound : g.assembler.built.imports.findIdx? (· = ⟨owner, program⟩) with
  -- the index fits sixteen bits, as there was never room for more imports
  | some index =>
    obtain ⟨hlt, heq, -⟩ := Array.findIdx?_eq_some_iff_getElem.mp hfound
    have hindex : (UInt16.ofNat index).toNat = index :=
      UInt16.toNat_ofNat_of_lt' (Nat.lt_of_lt_of_le hlt h.imports_le)
    refine ⟨h, .refl _, ?_⟩
    change g.assembler.built.imports[(UInt16.ofNat index).toNat]? = _
    rw [hindex, Array.getElem?_eq_getElem hlt]
    simpa using heq
  | none =>
    refine ensures_append ?_ ⟨.tooManyImports, by decide, rfl⟩
    intro i hlt hi
    have hsize : (g.tables.imports.push ⟨owner, program⟩).size ≤ Assembler.room := by
      rw [Array.size_push]
      exact hlt
    have hadded : (g.tables.imports.push ⟨owner, program⟩)[i.toNat]? = some ⟨owner, program⟩ := by
      rw [hi]
      exact Array.getElem?_push_size
    exact ⟨{ h with imports_le := hsize }, le_push_import g.tables _, hadded⟩

/-! ### Fields -/

/-- What callers in a file go by is what the scope knows about the programs that they can name. -/
structure KnowsCallees (env : Env) (chunk : ChunkId) (interface : Callee → Interface) : Prop where
  consistent : env.globals.Consistent
  interface : ∀ callee q, Names env.globals chunk callee q →
    interface callee = ⟨(env.globals.program q).usings.toList.map fun f =>
      (env.globals.field f).usage, (env.globals.program q).returnings.size⟩

/-- What the code of a program is generated from: every field has a slot, every program of the file
a prototype. -/
structure Emitting (env : Env) (chunk : ChunkId) (p : ProgramId) (ctx : Context) (site : Site) :
    Prop extends KnowsCallees env chunk ctx.interface where
  slots : ∀ name f, env.globals.HasField p name f → ∃ slot, site.slots[f]? = some slot ∧
    ctx.layout.At slot name
  prototypes : ∀ q ∈ (env.globals.chunk chunk).programs.toList,
    ∃ i, site.prototypes[q]? = some i ∧ ctx.programs[i.toNat]? = some (env.globals.program q).name
  inProcedure : site.inProcedure = true

/-- A node is an argument of a call among some nodes. -/
def ArgumentIn (nodes : List Node) (n : Node) : Prop :=
  ∃ c ∈ nodes, IsCall c ∧ n ∈ c.arguments

/-- Why emission stops: at a limit, or at an argument that is a number literal and no value of its
parameter's usage. -/
inductive EmissionStop (file : String) (nodes : List Node) : Stop → Prop
  | limit {e : Stop} (h : e.IsLimit) : EmissionStop file nodes e
  | literal {n : Node} {text : String} {problem : Problem} (hn : ArgumentIn nodes n)
      (hpayload : n.payload = .numberLiteral text)
      (hproblem : problem = .badNumericLiteral text ∨ problem = .exceedLiteralPrecision text) :
      EmissionStop file nodes (.fault problem file n.location none)

theorem EmissionStop.mono {file : String} {nodes nodes' : List Node} {e : Stop}
    (h : EmissionStop file nodes e)
    (hsub : ∀ n ∈ nodes, n ∈ nodes') : EmissionStop file nodes' e := by
  cases h with
  | limit h => exact .limit h
  | literal hn hpayload hproblem =>
    obtain ⟨c, hc, hcall, hn⟩ := hn
    exact .literal ⟨c, hsub c hc, hcall, hn⟩ hpayload hproblem

/-- A step that stops at limits only is one that emission can take. -/
theorem ensures_of_limit {step : GenM α} {ok : α → Generator → Prop}
    (h : Ensures step g ok fun e _ => e.IsLimit)
    (file : String) (nodes : List Node) : Ensures step g ok fun e _ => EmissionStop file nodes e :=
  h.mono (fun _ _ hok => hok) fun _ _ hlimit => .limit hlimit

theorem ensures_slotOf (h : Inside site code depth calls g) (hslot : site.slots[f]? = some slot)
    {ok : Slot → Generator → Prop} (hok : ok slot g) : Ensures (slotOf f) g ok err := by
  unfold slotOf
  simp only [ensures_bind, ensures_get, ensures_require_some, h.slots_eq, hslot]
  exact hok

/-- The value of a field is pushed from its slot. -/
theorem ensures_load (h : Inside site code depth calls g) (hslot : site.slots[f]? = some slot) :
    Ensures (load f) g (fun _ g' => Inside site (code ++ [loadOf slot]) (depth + 1) calls g' ∧
      g'.tables = g.tables) err := by
  unfold load
  rw [ensures_bind]
  apply ensures_slotOf h hslot
  cases slot with
  | field i => exact ensures_emitPush h _
  | frame s => exact ensures_emitPush h _

/-- The top of the stack is popped into the slot of a field. -/
theorem ensures_store (h : Inside site code (depth + 1) calls g)
    (hslot : site.slots[f]? = some slot) :
    Ensures (store f) g (fun _ g' => Inside site (code ++ [storeOf slot]) depth calls g' ∧
      g'.tables = g.tables) err := by
  unfold store
  rw [ensures_bind]
  apply ensures_slotOf h hslot
  cases slot with
  | field i => exact ensures_emitPop h _
  | frame s => exact ensures_emitPop h _

/-- A constant is pushed from the pool. -/
theorem ensures_pushConstant (h : Inside site code depth calls g) (v : Value) :
    Ensures (pushConstant v) g
      (Emits site code (depth + 1) calls g fun t emitted =>
        ∃ i : UInt16, emitted = [.load i] ∧ t.constants[i.toNat]? = some v)
      (fun e _ => e.IsLimit) := by
  unfold pushConstant
  refine (ensures_intern h v).bind ?_
  rintro i g' ⟨hg', hle, hi⟩
  refine (ensures_emitPush hg' (.load i)).imp ?_
  rintro _ g'' ⟨hg'', htables⟩
  rw [← htables] at hle hi
  exact ⟨[.load i], hg'', hle, i, rfl, hi⟩

/-! ### Callables -/

theorem child?_callId (id : Nat) (payload : Payload) (location : Location) {callee : Node}
    (h : IsCallId callee) (rest : List Node) :
    (⟨id, payload, location, callee :: rest⟩ : Node).child? .callId = some callee := by
  simp [Node.child?, Node.is, h.tag_eq]

/-- A call names a module if its syntax does. -/
theorem isQualified_eq (id : Nat) (payload : Payload) (location : Location) {callee : Node}
    (h : IsCallId callee) (rest : List Node) :
    isQualified ⟨id, payload, location, callee :: rest⟩ =
      (Callee.ofNode ⟨id, payload, location, callee :: rest⟩).module?.isSome := by
  unfold isQualified Callee.ofNode CallSite.calleeName
  rw [child?_callId id payload location h rest]
  cases h <;> rfl

variable {env : Env} {chunk : ChunkId} {p : ProgramId} {ctx : Context}

/-- The program of a call is pushed as an import or as a prototype. -/
theorem ensures_callableOf (he : Emitting env chunk p ctx site)
    (h : Inside site code depth calls g) {callee : Callee}
    (hq : env.bindings.callee? n = some q) (hnames : Names env.globals chunk callee q)
    (hqualified : isQualified n = callee.module?.isSome) :
    Ensures (callableOf env n) g
      (fun i g' => Inside site code depth calls g' ∧ g.tables.Le g'.tables ∧
        CallableCode ctx g'.tables callee i)
      (fun e _ => e.IsLimit) := by
  unfold callableOf
  simp only [ensures_bind, ensures_require_some, hq]
  cases hnames with
  | @own program q hmem hname =>
    obtain ⟨i, hi, hprogram⟩ := he.prototypes q hmem
    rw [hname] at hprogram
    simp only [hqualified, Option.isSome_none, Bool.false_eq_true, if_false, ensures_bind,
      ensures_get, ensures_require_some, h.programs_eq, hi, ensures_pure]
    exact ⟨h, .refl _, .own i hprogram⟩
  | @exported owner program m q howner hprogram =>
    obtain ⟨-, hmodule⟩ := he.consistent.module_name owner m howner
    obtain ⟨-, hname, hchunk⟩ := he.consistent.export_name m program q hprogram
    simp only [hqualified, Option.isSome_some, if_true, ensures_bind, ensures_pure, hname,
      hchunk, hmodule]
    refine (ensures_addImport h owner program).imp ?_
    rintro i g' ⟨hg', hle, hi⟩
    exact ⟨hg', hle, .imported i hi⟩

/-- Entering a call pushes its program and remembers where it lies. -/
theorem ensures_pushCallable (he : Emitting env chunk p ctx site)
    (h : Inside site code depth calls g) {callee : Callee}
    (hq : env.bindings.callee? n = some q) (hnames : Names env.globals chunk callee q)
    (hqualified : isQualified n = callee.module?.isSome) :
    Ensures (pushCallable env n) g
      (Emits site code (depth + 1) (depth :: calls) g fun t emitted =>
        ∃ i, emitted = [i] ∧ CallableCode ctx t callee i)
      (fun e _ => e.IsLimit) := by
  unfold pushCallable
  simp only [ensures_bind, ensures_modify]
  refine (ensures_callableOf he h hq hnames hqualified).imp ?_
  rintro i g' ⟨hg', hle, hi⟩
  have hopened :
      Inside site code depth (depth :: calls) { g' with calls := g'.depth :: g'.calls } := by
    have hcalls : g'.depth :: g'.calls = depth :: calls := by rw [hg'.depth_eq, hg'.calls_eq]
    exact { hg' with calls_eq := hcalls }
  refine (ensures_emitPush hopened i).imp ?_
  rintro _ g'' ⟨hg'', htables⟩
  have hsame : g''.tables = g'.tables := htables
  rw [← hsame] at hle hi
  exact ⟨[i], hg'', hle, i, rfl, hi⟩

/-- A call instruction adds as many entries as there are results. -/
theorem ensures_emitCall (h : Inside site code depth calls g) (usings returnings : Nat) :
    Ensures (emitCall usings returnings) g
      (fun _ g' => ∃ count results : UInt8, count.toNat = usings ∧ results.toNat = returnings ∧
        Inside site (code ++ [.call count results]) (depth + returnings) calls g' ∧
          g'.tables = g.tables)
      (fun e _ => e.IsLimit) := by
  unfold emitCall
  simp only [ensures_bind]
  apply ensures_argumentCount
  intro count hcount
  apply ensures_argumentCount
  intro results hresults
  refine (ensures_emit h (.call count results)).imp ?_
  rintro _ g' ⟨hg', htables⟩
  rw [ensures_modify]
  have hdepth : g'.depth + returnings = depth + returnings := by rw [hg'.depth_eq]
  exact ⟨count, results, hcount, hresults, { hg' with depth_eq := hdepth }, htables⟩

/-! ### Taking results and arguments off -/

/-- The field that a node of a call refers to has a slot. -/
theorem Emitting.slot_of_bound (he : Emitting env chunk p ctx site) {name : String}
    (h : ∃ f, env.globals.HasField p name f ∧ env.bindings.field? n = some f) :
    ∃ f slot, env.bindings.field? n = some f ∧ site.slots[f]? = some slot ∧
      ctx.layout.At slot name := by
  obtain ⟨f, hf, hbound⟩ := h
  obtain ⟨slot, hslot, hat⟩ := he.slots name f hf
  exact ⟨f, slot, hbound, hslot, hat⟩

theorem ensures_boundField (hbound : env.bindings.field? n = some f)
    {ok : FieldId → Generator → Prop} (hok : ok f g) :
    Ensures (boundField env n) g ok err := by
  unfold boundField
  simp only [ensures_require_some, hbound]
  exact hok

/-- A loop of steps that each pop one entry. -/
theorem ensures_forM_pops {f : α → GenM Unit} {items : List α} {R : α → Instruction → Prop}
    (hstep : ∀ a ∈ items, ∀ code depth g, Inside site code (depth + 1) calls g → Ensures (f a) g
      (fun _ g' => ∃ i, Inside site (code ++ [i]) depth calls g' ∧ g'.tables = g.tables ∧ R a i)
      err) (h : Inside site code (depth + items.length) calls g) :
    Ensures (items.forM f) g
      (fun _ g' => ∃ emitted, Inside site (code ++ emitted) depth calls g' ∧ g'.tables = g.tables ∧
        List.Forall₂ R items emitted) err := by
  induction items generalizing code g with
  | nil =>
    rw [← List.append_nil code] at h
    exact ⟨[], h, rfl, .nil⟩
  | cons a rest ih =>
    have hfirst := hstep a List.mem_cons_self code (depth + rest.length) g h
    change Ensures (f a >>= fun _ => rest.forM f) g _ _
    apply hfirst.bind
    intro _ g' hg'
    obtain ⟨i, hinside, htables, hi⟩ := hg'
    have hrest := ih (fun b hb => hstep b (List.mem_cons_of_mem a hb)) hinside
    apply hrest.imp
    intro _ g'' hg''
    obtain ⟨emitted, hinside', htables', hemitted⟩ := hg''
    rw [List.append_assoc] at hinside'
    exact ⟨i :: emitted, hinside', htables'.trans htables, .cons hi hemitted⟩

/-- Results are taken off into the fields of their targets. -/
theorem ensures_stores (he : Emitting env chunk p ctx site) {targets : List Node}
    (htargets : ∀ t ∈ targets, ∃ f, env.globals.HasField p (CallSite.targetText t) f ∧
      env.bindings.field? t = some f) (h : Inside site code (depth + targets.length) calls g) :
    Ensures (targets.forM fun target => do store (← boundField env target)) g
      (fun _ g' => ∃ emitted, Inside site (code ++ emitted) depth calls g' ∧ g'.tables = g.tables ∧
        List.Forall₂ (fun t => StoreCode ctx (CallSite.targetText t)) targets emitted) err := by
  apply ensures_forM_pops _ h
  intro t ht code depth g h
  obtain ⟨f, slot, hbound, hslot, hat⟩ := he.slot_of_bound (htargets t ht)
  rw [ensures_bind]
  apply ensures_boundField hbound
  apply (ensures_store h hslot).imp
  intro _ g' hg'
  exact ⟨storeOf slot, hg'.1, hg'.2, .intro hat⟩

/-- Arguments are taken off, those passed by reference into their fields. -/
theorem ensures_takeBacks (he : Emitting env chunk p ctx site) {arguments : List Node}
    (harguments : ∀ a ∈ arguments, IsArgument a ∧ CallSite.Resolved env.globals chunk p env.bindings
      a) (h : Inside site code (depth + arguments.length) calls g) :
    Ensures (arguments.forM fun a => takeBack env a.reversed) g
      (fun _ g' => ∃ emitted, Inside site (code ++ emitted) depth calls g' ∧ g'.tables = g.tables ∧
        List.Forall₂ (fun a => TakeBackCode ctx (Argument.ofNode a)) arguments emitted) err := by
  apply ensures_forM_pops _ h
  intro a ha code depth g h
  obtain ⟨hargument, hresolved⟩ := harguments a ha
  -- whatever is not a field passed by reference is dropped
  have hdrop (hnone : (Argument.ofNode a).referenceName? = none) :
      Ensures (emitPop .pop) g (fun _ g' => ∃ i, Inside site (code ++ [i]) depth calls g' ∧
        g'.tables = g.tables ∧ TakeBackCode ctx (Argument.ofNode a) i) err := by
    apply (ensures_emitPop h .pop).imp
    intro _ g' hg'
    exact ⟨.pop, hg'.1, hg'.2, .dropped hnone⟩
  cases hargument with
  | field id location name byContent =>
    cases byContent with
    | true => exact hdrop rfl
    | false =>
      obtain ⟨f, slot, hbound, hslot, hat⟩ := he.slot_of_bound hresolved
      change Ensures (boundField env _ >>= fun f => store f) g _ _
      rw [ensures_bind]
      apply ensures_boundField hbound
      apply (ensures_store h hslot).imp
      intro _ g' hg'
      exact ⟨storeOf slot, hg'.1, hg'.2, .reference hat⟩
  | number id location text => exact hdrop rfl
  | string id location text => exact hdrop rfl
  | call id location hcallee husings hinner =>
    apply hdrop
    rw [Argument.ofNode_callExpression rfl]
    rfl

/-! ### One step after the other -/

/-- Code of two steps, of which the second continues where the first one stopped. -/
theorem ensures_seq {first second : GenM Unit} {Kind Kind' : Tables → List Instruction → Prop}
    {depth' depth'' : Nat} {calls' calls'' : List Nat}
    (hfirst : Ensures first g (Emits site code depth' calls' g Kind) err)
    (hmono : ∀ t t' emitted, t.Le t' → Kind t emitted → Kind t' emitted)
    (hsecond : ∀ emitted g', Inside site (code ++ emitted) depth' calls' g' →
      Ensures second g' (Emits site (code ++ emitted) depth'' calls'' g' Kind') err) :
    Ensures (first >>= fun _ => second) g
      (Emits site code depth'' calls'' g fun t emitted =>
        ∃ before after, emitted = before ++ after ∧ Kind t before ∧ Kind' t after) err := by
  apply hfirst.bind
  intro _ g' hg'
  obtain ⟨before, hinside, hle, hkind⟩ := hg'
  apply (hsecond before g' hinside).imp
  intro _ g'' hg''
  obtain ⟨after, hinside', hle', hkind'⟩ := hg''
  rw [List.append_assoc] at hinside'
  -- what the first step emitted is still code of its kind under the tables of the second
  exact ⟨before ++ after, hinside', hle.trans hle', before, after, rfl,
    hmono _ _ _ hle' hkind, hkind'⟩

theorem ensures_emits_imp {step : GenM Unit} {Kind Kind' : Tables → List Instruction → Prop}
    {g₀ : Generator} (h : Ensures step g (Emits site code depth calls g₀ Kind) err)
    (himp : ∀ t emitted, Kind t emitted → Kind' t emitted) :
    Ensures step g (Emits site code depth calls g₀ Kind') err := by
  apply h.imp
  rintro _ g' ⟨emitted, hinside, hle, hkind⟩
  exact ⟨emitted, hinside, hle, himp _ _ hkind⟩

/-! ### Reversed calls -/

/-- What the walk passes by in a call. -/
def silentTags : List Tag :=
  [.identifier, .callId, .callIdModule, .callIdProgram, .callUsings, .callReturnings,
    .callReturningId]

theorem visitor_silent (env : Env) : (visitor env).InertOn silentTags := by
  intro n hn
  obtain ⟨id, payload, location, children⟩ := n
  cases payload <;> first | exact ⟨rfl, rfl⟩ | simp [Node.tag, Payload.tag, silentTags] at hn

section calls

variable {c : Node}

/-- A call with its arguments reversed has the same name and the same results. -/
theorem exists_reversed (hc : IsCall c) :
    ∃ callee usings returnings targets,
      IsCallId callee ∧ Under .callUsings usings (c.arguments.map Node.reversed).reverse ∧ Under
      .callReturnings returnings targets ∧ (∀ t ∈ targets, IsTarget t) ∧ targets = c.returnings ∧
      c.reversed = ⟨c.id, c.payload, c.location, callee :: (usings ++ returnings)⟩ ∧
      c.children.head? = some callee := by
  cases hc with
  | @intro id location payload callee usings arguments returnings targets hpayload hcallee husings
    harguments hreturnings htargets =>
    have hne : payload ≠ .callUsings := by
      rcases hpayload with rfl | ⟨rfl, -⟩ <;> simp
    have htags : ∀ n ∈ returnings, ∀ m ∈ n.nodes,
        m.tag ∈ [Tag.callReturnings, .callReturningId] := by
      apply hreturnings.tags (by decide)
      intro t ht
      cases htargets t ht
      exact tags_of_leaf rfl (by simp [Node.tag, Payload.tag])
    rw [arguments_call _ _ _ hcallee husings hreturnings,
      returnings_call _ _ _ hcallee husings hreturnings, Node.reversed_mk hne, List.map_cons,
      List.map_append, hcallee.reversed, Node.map_reversed_of_tags htags (by decide)]
    exact ⟨callee, usings.map Node.reversed, returnings, targets, hcallee, husings.reversed,
      hreturnings, htargets, rfl,
      rfl, rfl⟩

theorem arguments_reversed (hc : IsCall c) :
    c.reversed.arguments = (c.arguments.map Node.reversed).reverse := by
  obtain ⟨callee, usings, returnings, targets, hcallee, husings, hreturnings, -, -, heq, -⟩ :=
    exists_reversed hc
  rw [heq, arguments_call _ _ _ hcallee husings hreturnings]

theorem returnings_reversed (hc : IsCall c) : c.reversed.returnings = c.returnings := by
  obtain ⟨callee, usings, returnings, targets, hcallee, husings, hreturnings, -, htargets, heq,
    -⟩ := exists_reversed hc
  rw [heq, returnings_call _ _ _ hcallee husings hreturnings, htargets]

/-- Reversing arguments does not change whether the call names a module. -/
theorem isQualified_reversed (hc : IsCall c) :
    isQualified c.reversed = (Callee.ofNode c).module?.isSome := by
  obtain ⟨callee, usings, returnings, targets, hcallee, -, -, -, -, heq, hhead⟩ :=
    exists_reversed hc
  obtain ⟨id, payload, location, children⟩ := c
  obtain ⟨rest, rfl⟩ : ∃ rest, children = callee :: rest := List.head?_eq_some_iff.mp hhead
  rw [heq, isQualified_eq _ _ _ hcallee]
  unfold Callee.ofNode CallSite.calleeName
  rw [child?_callId _ _ _ hcallee, child?_callId _ _ _ hcallee]

/-- Of the parts of a call, only its arguments are of interest to the walk. -/
theorem walkAll_reversed (env : Env) (hc : IsCall c) :
    (visitor env).walkAll c.reversed.children =
      (visitor env).walkAll (c.arguments.map Node.reversed).reverse := by
  obtain ⟨callee, usings, returnings, targets, hcallee, husings, hreturnings, htargets, -, heq,
    -⟩ := exists_reversed hc
  -- the name of the callee and the results are silent, which leaves the arguments
  have hname : (visitor env).walkAll [callee] = pure () := by
    apply (visitor_silent env).walkAll
    intro n hn m hm
    rw [List.mem_singleton.mp hn] at hm
    have hsub : [Tag.callId, .callIdModule, .callIdProgram, .callReturnings] ⊆ silentTags := by
      decide
    exact hsub (hcallee.tags_name m hm)
  have hresults : (visitor env).walkAll returnings = pure () := by
    apply (visitor_silent env).walkAll
    apply hreturnings.tags (by decide)
    intro t ht
    cases htargets t ht
    exact tags_of_leaf rfl (by simp [Node.tag, Payload.tag, silentTags])
  have harguments : (visitor env).walkAll usings =
      (visitor env).walkAll (c.arguments.map Node.reversed).reverse := by
    generalize (c.arguments.map Node.reversed).reverse = arguments at husings
    cases husings with
    | absent => rfl
    | present id location =>
      rw [Visitor.walkAll_singleton, Visitor.walk_of_leave rfl]
      rfl
  rw [heq]
  change (visitor env).walkAll ([callee] ++ (usings ++ returnings)) = _
  rw [Visitor.walkAll_append, Visitor.walkAll_append, hname, hresults, harguments, pure_bind,
    bind_pure_unit]

end calls

/-! ### Arguments -/

/-- Walking an argument pushes it, in every state of the generator. -/
def PushesArgument (env : Env) (ctx : Context) (site : Site) (nodes : List Node) (usage : Usage)
    (a : Node) : Prop :=
  ∀ code depth calls g, Inside site code depth calls g →
    Ensures ((visitor env).walk a.reversed) g
      (Emits site code (depth + 1) calls g fun t emitted =>
        ArgumentsCode ctx t depth [(usage, Argument.ofNode a)] emitted)
      (fun e _ => EmissionStop env.file nodes e)

/-- Walking one argument after the other pushes them all. -/
theorem ensures_walk_arguments {items : List (Usage × Node)}
    (hitems : ∀ item ∈ items, PushesArgument env ctx site nodes item.1 item.2)
    (h : Inside site code depth calls g) :
    Ensures ((visitor env).walkAll (items.map fun item => item.2.reversed)) g
      (Emits site code (depth + items.length) calls g fun t emitted =>
        ArgumentsCode ctx t depth (items.map fun item => (item.1, Argument.ofNode item.2)) emitted)
      (fun e _ => EmissionStop env.file nodes e) := by
  induction items generalizing code depth g with
  | nil =>
    rw [← List.append_nil code] at h
    exact ⟨[], h, .refl _, .nil depth⟩
  | cons item rest ih =>
    have hfirst := hitems item List.mem_cons_self code depth calls g h
    have hrest : ∀ emitted g', Inside site (code ++ emitted) (depth + 1) calls g' → _ :=
      fun emitted g' hg' =>
      ih (fun other hother => hitems other (List.mem_cons_of_mem item hother)) hg'
    rw [List.map_cons, Visitor.walkAll_cons]
    -- each argument is one entry higher than the one before
    have hdepth : depth + (item :: rest).length = depth + 1 + rest.length := by
      rw [List.length_cons]
      omega
    rw [hdepth]
    apply ensures_emits_imp (ensures_seq hfirst (fun _ _ _ hle hcode => hcode.mono hle) hrest)
    intro t emitted hemitted
    obtain ⟨before, after, rfl, hbefore, hafter⟩ := hemitted
    exact hbefore.append hafter

/-- What is known about a call when its code is generated. -/
structure CallAt (env : Env) (chunk : ChunkId) (p : ProgramId) (c : Node)
    (q : ProgramId) : Prop where
  isCall : IsCall c
  callee : env.bindings.callee? c = some q
  wellFormed : (Call.ofNode c).WellFormed env.globals chunk p q
  passed : CallSite.Passed env.globals env.bindings c q
  resolved : ∀ n ∈ c.nodes, CallSite.Resolved env.globals chunk p env.bindings n

/-- A call of which all nodes are ready is known. -/
theorem exists_callAt (hc : IsCall c)
    (hready : ∀ n ∈ c.nodes, CallSite.Ready env.globals chunk p env.bindings n) :
    ∃ q, CallAt env chunk p c q := by
  have hself := hready c c.self_mem_nodes
  obtain ⟨q, hq⟩ := hself.exists_callee hc
  obtain ⟨hwell, hpassed⟩ := hself.call hc q hq
  exact ⟨q, hc, hq, hwell, hpassed, fun n hn => (hready n hn).resolved⟩

namespace CallAt

variable {c : Node} {q : ProgramId} (hcall : CallAt env chunk p c q)

include hcall

theorem target {t : Node} (ht : t ∈ c.returnings) :
    ∃ f, env.globals.HasField p (CallSite.targetText t) f ∧ env.bindings.field? t = some f := by
  have hresolved := hcall.resolved t (Node.returning_mem_nodes ht)
  unfold CallSite.Resolved at hresolved
  rw [CallSite.targetText_payload (hcall.isCall.areTargets t ht)] at hresolved
  exact hresolved

variable {interface : Callee → Interface} (hknows : KnowsCallees env chunk interface)

include hknows

theorem interface_eq : interface (Callee.ofNode c) =
    ⟨(env.globals.program q).usings.toList.map fun f => (env.globals.field f).usage,
      (env.globals.program q).returnings.size⟩ :=
  hknows.interface _ _ hcall.wellFormed.callee

theorem length_usages : c.arguments.length = (interface (Callee.ofNode c)).usages.length := by
  have hlength := hcall.wellFormed.usings_length
  rw [hcall.interface_eq hknows]
  simpa [Call.ofNode] using hlength

/-- The parameter of each argument is noted with its usage. -/
theorem param {a : Node}
    (hmem : (usage, a) ∈ (interface (Callee.ofNode c)).usages.zip c.arguments) :
    env.bindings.param? a = some usage := by
  rw [hcall.interface_eq hknows] at hmem
  obtain ⟨pair, hpair, heq⟩ := List.mem_map.mp (by rwa [List.zip_map_left] at hmem)
  cases heq
  have hswap : (pair.2, pair.1) ∈ c.arguments.zip (env.globals.program q).usings.toList := by
    rw [← List.zip_swap]
    exact List.mem_map.mpr ⟨pair, hpair, rfl⟩
  have hparam := hcall.passed _ hswap
  rwa [hknows.consistent.field_type] at hparam

/-- Arguments are walked with the usages of their parameters, from the last to the first. -/
theorem walkAll_children :
    (visitor env).walkAll c.reversed.children = (visitor env).walkAll
      (((interface (Callee.ofNode c)).usages.zip c.arguments).reverse.map fun item =>
        item.2.reversed) := by
  have hlength := hcall.length_usages hknows
  have hsnd : ((interface (Callee.ofNode c)).usages.zip c.arguments).map Prod.snd = c.arguments :=
    List.map_snd_zip (by omega)
  rw [walkAll_reversed env hcall.isCall]
  conv_lhs => rw [← hsnd]
  rw [List.map_reverse, List.map_map]
  rfl

end CallAt

/-- The first half of the code of a call, which pushes its program and its arguments. -/
def BeginsCall (ctx : Context) (depth : Nat) (c : Node) (t : Tables) (emitted : List Instruction) :
    Prop :=
  ∃ callable inner, emitted = callable :: inner ∧ CallableCode ctx t (Callee.ofNode c) callable ∧
    ArgumentsCode ctx t (depth + 1) (ctx.passed (Callee.ofNode c) (c.arguments.map Argument.ofNode))
    inner

theorem BeginsCall.mono {t t' : Tables} {emitted : List Instruction} (hle : t.Le t')
    (h : BeginsCall ctx depth c t emitted) : BeginsCall ctx depth c t' emitted := by
  obtain ⟨callable, inner, heq, hcallable, hinner⟩ := h
  exact ⟨callable, inner, heq, hcallable.mono hle, hinner.mono hle⟩

theorem CallAt.requested_le (hcall : CallAt env chunk p c q) (he : Emitting env chunk p ctx site) :
    (Call.ofNode c).requested ≤ (ctx.interface (Callee.ofNode c)).results := by
  rw [hcall.interface_eq he.toKnowsCallees]
  exact hcall.wellFormed.returnings_le

theorem CallAt.arguments (hcall : CallAt env chunk p c q) :
    ∀ a ∈ c.arguments, IsArgument a ∧ CallSite.Resolved env.globals chunk p env.bindings a :=
  fun a ha =>
  ⟨hcall.isCall.areArguments a ha, hcall.resolved a (Node.argument_mem_nodes ha)⟩

theorem reverse_arguments_reversed (hc : IsCall c) (f : Node → GenM Unit) :
    c.reversed.arguments.reverse.forM f = c.arguments.forM fun a => f a.reversed := by
  rw [arguments_reversed hc, List.reverse_reverse]
  exact List.forM_map

theorem literalValue_error {param? : Option Usage} {text : String} {problem : Problem}
    (h : literalValue param? text = .error problem) :
    problem = .badNumericLiteral text ∨ problem = .exceedLiteralPrecision text := by
  unfold literalValue at h
  split at h
  · split at h
    · cases h
    · cases h
      exact Or.inl rfl
  · split at h
    · cases h
    · cases h
      exact Or.inr rfl
    · cases h
      exact Or.inl rfl

theorem walk_call (hpayload : n.payload = .callStatement ∨ n.payload = .callExpression) :
    (visitor env).walk n =
      ((pushCallable env n >>= fun _ => (visitor env).walkAll n.children) >>= fun _ =>
        (visitor env).leave n) := by
  have henter : (visitor env).enter n = pushCallable env n := by
    rcases hpayload with hpayload | hpayload <;> simp only [visitor, hpayload]
  rw [Visitor.walk_eq, henter, bind_assoc]

/-- At a leaf the walk does what it does on entering. -/
theorem walk_reversed_leaf (hne : n.payload ≠ .callUsings) (hchildren : n.children = [])
    (hleave : (visitor env).leave n = pure ()) :
    (visitor env).walk n.reversed = (visitor env).enter n := by
  obtain ⟨id, payload, location, children⟩ := n
  obtain rfl : children = [] := hchildren
  rw [Node.reversed_mk hne, List.map_nil, Visitor.walk_of_leave hleave, Visitor.walkAll_nil,
    bind_pure_unit]

theorem ensures_walk_leaf (hne : n.payload ≠ .callUsings) (hchildren : n.children = [])
    (hleave : (visitor env).leave n = pure ()) {ok : Unit → Generator → Prop}
    (henter : Ensures ((visitor env).enter n) g ok err) :
    Ensures ((visitor env).walk n.reversed) g ok err := by
  rw [walk_reversed_leaf hne hchildren hleave]
  exact henter

/-- A number literal is pushed as the value that its parameter takes, if it has one. -/
theorem ensures_pushNumber (h : Inside site code depth calls g) {text : String}
    (hn : ArgumentIn nodes n)
    (hpayload : n.payload = .numberLiteral text) (hparam : env.bindings.param? n = some usage) :
    Ensures (pushNumber env n text) g
      (Emits site code (depth + 1) calls g fun t emitted =>
        ArgumentsCode ctx t depth [(usage, .number text)] emitted)
      (fun e _ => EmissionStop env.file nodes e) := by
  unfold pushNumber
  rw [hparam]
  cases hvalue : literalValue (some usage) text with
  | error problem => exact .literal hn hpayload (literalValue_error hvalue)
  | ok value =>
    apply ensures_emits_imp (ensures_of_limit (ensures_pushConstant h value) env.file nodes)
    intro t emitted hemitted
    obtain ⟨i, rfl, hi⟩ := hemitted
    exact .number hvalue hi (.nil _)

variable (he : Emitting env chunk p ctx site)

include he

section halves

variable (hcall : CallAt env chunk p c q)

include hcall

/-- A call begins by pushing its program and its arguments. -/
theorem ensures_beginCall (hpushes : ∀ a ∈ c.arguments, ∀ usage, env.bindings.param? a =
      some usage → PushesArgument env ctx site nodes usage a) (h : Inside site code depth calls g) :
    Ensures (pushCallable env c.reversed >>= fun _ => (visitor env).walkAll c.reversed.children) g
      (Emits site code (depth + 1 + c.arguments.length) (depth :: calls) g (BeginsCall ctx depth c))
      (fun e _ => EmissionStop env.file nodes e) := by
  have hlength := hcall.length_usages he.toKnowsCallees
  have hpassed : ((ctx.interface (Callee.ofNode c)).usages.zip c.arguments).reverse.map
      (fun item => (item.1, Argument.ofNode item.2)) =
      ctx.passed (Callee.ofNode c) (c.arguments.map Argument.ofNode) := by
    rw [Context.passed, List.zip_map_right, List.map_reverse]
    rfl
  have hq : env.bindings.callee? c.reversed = some q := by
    rw [← hcall.callee, Bindings.callee?, Bindings.callee?, Node.id_reversed]
  have hitems : ∀ item ∈ ((ctx.interface (Callee.ofNode c)).usages.zip c.arguments).reverse,
      PushesArgument env ctx site nodes item.1 item.2 := by
    intro item hitem
    have hmem := List.mem_reverse.mp hitem
    exact hpushes item.2 (List.of_mem_zip hmem).2 item.1 (hcall.param he.toKnowsCallees hmem)
  have hcount : ((ctx.interface (Callee.ofNode c)).usages.zip c.arguments).reverse.length =
      c.arguments.length := by
    rw [List.length_reverse, List.length_zip]
    omega
  have hfirst :=
    ensures_pushCallable he h hq hcall.wellFormed.callee (isQualified_reversed hcall.isCall)
  -- the index of the callable stays good while the arguments add to the tables
  have hgrows : ∀ t t' emitted, t.Le t' →
      (∃ i, emitted = [i] ∧ CallableCode ctx t (Callee.ofNode c) i) →
      ∃ i, emitted = [i] ∧ CallableCode ctx t' (Callee.ofNode c) i := by
    intro t t' emitted hle hemitted
    obtain ⟨callable, rfl, hcallable⟩ := hemitted
    exact ⟨callable, rfl, hcallable.mono hle⟩
  rw [hcall.walkAll_children he.toKnowsCallees, ← hcount]
  apply ensures_emits_imp
    (ensures_seq (ensures_of_limit hfirst env.file nodes) hgrows fun emitted g' hg' =>
    ensures_walk_arguments hitems hg')
  intro t emitted hemitted
  obtain ⟨_, inner, rfl, ⟨callable, rfl, hcallable⟩, hinner⟩ := hemitted
  exact ⟨callable, inner, rfl, hcallable, hpassed ▸ hinner⟩

/-- The second half of a call that is an argument: its result takes the place of its callable, and
its arguments are taken off. -/
theorem ensures_finishExpression
    (h : Inside site code (depth + 1 + c.arguments.length) (depth :: calls) g) :
    Ensures (finishExpression env c.reversed) g
      (Emits site code (depth + 1) calls g fun _ emitted => ∃ count slot backs,
        emitted = .call count 1 :: .replace slot :: backs ∧ count.toNat = c.arguments.length ∧
          slot.toInt = depth ∧
          List.Forall₂ (TakeBackCode ctx) (c.arguments.map Argument.ofNode) backs)
      (fun e _ => e.IsLimit) := by
  have hlength : c.reversed.arguments.length = c.arguments.length := by
    rw [arguments_reversed hcall.isCall, List.length_reverse, List.length_map]
  unfold finishExpression
  simp only [hlength, reverse_arguments_reversed hcall.isCall, ensures_bind]
  apply (ensures_emitCall h c.arguments.length 1).imp
  intro _ g₁ hg₁
  obtain ⟨count, results, hcount, hresults, hinside, htables⟩ := hg₁
  have hone : results = 1 := UInt8.toNat_inj.mp hresults
  subst hone
  simp only [ensures_get, ensures_require_some, ensures_modify, hinside.calls_eq, List.head?_cons]
  apply ensures_frameIndex
  intro slot hslot
  -- the call is no longer open when its result is put in place
  have hclosed : Inside site (code ++ [.call count 1]) (depth + 1 + c.arguments.length + 1) calls
      { g₁ with calls := (depth :: calls).drop 1 } :=
    { hinside with calls_eq := rfl }
  apply (ensures_emitPop hclosed (.replace slot)).imp
  intro _ g₂ hg₂
  obtain ⟨hinside₂, htables₂⟩ := hg₂
  apply (ensures_takeBacks he hcall.arguments hinside₂).imp
  intro _ g₃ hg₃
  obtain ⟨backs, hinside₃, htables₃, hbacks⟩ := hg₃
  have hsame : g₃.tables = g.tables := htables₃.trans (htables₂.trans htables)
  rw [List.append_assoc, List.append_assoc] at hinside₃
  refine ⟨_, hinside₃, hsame ▸ .refl _, count, slot, backs, rfl, hcount, hslot, ?_⟩
  rw [List.forall₂_map_left_iff]
  exact hbacks

/-- The second half of a call statement: results and arguments are taken off, and last the
callable. -/
theorem ensures_finishStatement
    (h : Inside site code (depth + 1 + c.arguments.length) (depth :: calls) g) :
    Ensures (finishStatement env c.reversed) g
      (Emits site code depth calls g fun _ emitted => ∃ count results stores backs,
        emitted = .call count results :: (stores ++ (backs ++ [.pop])) ∧
          count.toNat = c.arguments.length ∧
          results.toNat = (c.returnings.map CallSite.targetText).length ∧
          List.Forall₂ (StoreCode ctx) (c.returnings.map CallSite.targetText).reverse stores ∧
          List.Forall₂ (TakeBackCode ctx) (c.arguments.map Argument.ofNode) backs)
      (fun e _ => e.IsLimit) := by
  have hlength : c.reversed.arguments.length = c.arguments.length := by
    rw [arguments_reversed hcall.isCall, List.length_reverse, List.length_map]
  have htargets : ∀ t ∈ c.returnings.reverse,
      ∃ f, env.globals.HasField p (CallSite.targetText t) f ∧ env.bindings.field? t = some f :=
    fun t ht => hcall.target (List.mem_reverse.mp ht)
  unfold finishStatement
  simp only [hlength, returnings_reversed hcall.isCall, reverse_arguments_reversed hcall.isCall,
    ensures_bind, ensures_modify]
  apply (ensures_emitCall h c.arguments.length c.returnings.length).imp
  intro _ g₁ hg₁
  obtain ⟨count, results, hcount, hresults, hinside, htables⟩ := hg₁
  have hreturnings : c.returnings.length = c.returnings.reverse.length := List.length_reverse.symm
  rw [hreturnings] at hinside
  apply (ensures_stores he htargets hinside).imp
  intro _ g₂ hg₂
  obtain ⟨stores, hinside₂, htables₂, hstores⟩ := hg₂
  apply (ensures_takeBacks he hcall.arguments hinside₂).imp
  intro _ g₃ hg₃
  obtain ⟨backs, hinside₃, htables₃, hbacks⟩ := hg₃
  -- only the callable is left, and the call is no longer open
  have hclosed : Inside site (code ++ [.call count results] ++ stores ++ backs) (depth + 1) calls
      { g₃ with calls := g₃.calls.drop 1 } := by
    have hcalls : g₃.calls.drop 1 = calls := by
      rw [hinside₃.calls_eq, List.drop_succ_cons, List.drop_zero]
    exact { hinside₃ with calls_eq := hcalls }
  apply (ensures_emitPop hclosed .pop).imp
  intro _ g₄ hg₄
  obtain ⟨hinside₄, htables₄⟩ := hg₄
  have hsame : g₄.tables = g.tables := htables₄.trans (htables₃.trans (htables₂.trans htables))
  simp only [List.append_assoc] at hinside₄
  refine ⟨_, hinside₄, hsame ▸ .refl _, count, results, stores, backs, rfl, hcount, ?_, ?_, ?_⟩
  · rw [hresults, List.length_map]
  · rw [← List.map_reverse, List.forall₂_map_left_iff]
    exact hstores
  · rw [List.forall₂_map_left_iff]
    exact hbacks

/-- The code of a call has two halves; the second one is emitted on leaving it. -/
theorem ensures_walk_call (hpushes : ∀ a ∈ c.arguments, ∀ usage,
      env.bindings.param? a = some usage → PushesArgument env ctx site nodes usage a)
    (h : Inside site code depth calls g) {depth' : Nat} {Kind : Tables → List Instruction → Prop}
    (hleave : ∀ code g', Inside site code (depth + 1 + c.arguments.length) (depth :: calls) g' →
      Ensures ((visitor env).leave c.reversed) g' (Emits site code depth' calls g' Kind)
      (fun e _ => e.IsLimit)) :
    Ensures ((visitor env).walk c.reversed) g
      (Emits site code depth' calls g fun t emitted =>
        ∃ before after, emitted = before ++ after ∧ BeginsCall ctx depth c t before ∧ Kind t after)
      (fun e _ => EmissionStop env.file nodes e) := by
  rw [walk_call (c.payload_reversed ▸ hcall.isCall.payload_eq)]
  exact ensures_seq (ensures_beginCall he hcall hpushes h) (fun _ _ _ hle hcode => hcode.mono hle)
    fun emitted g' hg' =>
    ensures_of_limit (hleave _ g' hg') env.file nodes

end halves

theorem ensures_ifInProcedure (h : Inside site code depth calls g) {step : GenM Unit}
    {ok : Unit → Generator → Prop} (hstep : Ensures step g ok err) :
    Ensures (ifInProcedure step) g ok err := by
  have hprocedure : g.inProcedure = true := h.inProcedure_eq.trans he.inProcedure
  rw [ifInProcedure, ensures_bind, ensures_get, hprocedure]
  exact hstep

/-- A call that is an argument is pushed, if its own arguments are. -/
theorem pushesArgument_call (hc : IsCall c) (hpayload : c.payload = .callExpression)
    (hready : ∀ n ∈ c.nodes, CallSite.Ready env.globals chunk p env.bindings n)
    (hpushes : ∀ a ∈ c.arguments, ∀ usage, env.bindings.param? a = some usage →
      PushesArgument env ctx site nodes usage a) : PushesArgument env ctx site nodes usage c := by
  intro code depth calls g h
  obtain ⟨q, hcall⟩ := exists_callAt hc hready
  have hleave : (visitor env).leave c.reversed = finishExpression env c.reversed := by
    simp only [visitor, Node.payload_reversed, hpayload]
  apply ensures_emits_imp (ensures_walk_call he hcall hpushes h fun _ _ hg' =>
    hleave ▸ ensures_finishExpression he hcall hg')
  intro t emitted hemitted
  obtain ⟨_, _, rfl, ⟨callable, inner, rfl, hcallable, hinner⟩, count, slot, backs, rfl, hcount,
    hslot, hbacks⟩ :=
    hemitted
  -- a call that is an argument asks for its first result
  have hone : 1 ≤ (ctx.interface (Callee.ofNode c)).results := by
    have hrequested := hcall.requested_le he
    rwa [CallSite.requested_ofNode hc, if_pos (by simp [Node.is, Node.tag, hpayload, Payload.tag])]
      at hrequested
  have hcode :
      ArgumentsCode ctx t depth [(usage, .call (Callee.ofNode c) (c.arguments.map Argument.ofNode))]
      (callable :: (inner ++ .call count 1 :: .replace slot :: (backs ++ []))) :=
    .call hcallable ((List.length_map _).trans (hcall.length_usages he.toKnowsCallees)) hone
      (hcount.trans (List.length_map _).symm) hslot
      (List.nodup_append.mp hcall.wellFormed.distinct).1 hinner hbacks (.nil _)
  rw [Argument.ofNode_callExpression hpayload]
  simpa using hcode

/-- Walking an argument of a call pushes it. -/
theorem pushesArgument {a : Node} (ha : IsArgument a)
    (hready : ∀ n ∈ a.nodes, CallSite.Ready env.globals chunk p env.bindings n)
    (hself : ArgumentIn nodes a)
    (hnodes : ∀ n ∈ a.nodes, n ∈ nodes) (hparam : env.bindings.param? a = some usage) :
    PushesArgument env ctx site nodes usage a := by
  induction ha generalizing usage with
  | field id location name byContent =>
    intro code depth calls g h
    obtain ⟨f, slot, hbound, hslot, hat⟩ :=
      he.slot_of_bound (hready _ (Node.self_mem_nodes _)).resolved
    apply ensures_walk_leaf (by simp) rfl rfl
    change Ensures (boundField env _ >>= fun f => load f) g _ _
    rw [ensures_bind]
    apply ensures_boundField hbound
    apply (ensures_load h hslot).imp
    intro _ g' hg'
    exact ⟨[loadOf slot], hg'.1, hg'.2 ▸ .refl _, .field hat (.nil _)⟩
  | number id location text =>
    intro code depth calls g h
    apply ensures_walk_leaf (by simp) rfl rfl
    apply ensures_ifInProcedure he h
    exact ensures_pushNumber h hself rfl hparam
  | string id location text =>
    intro code depth calls g h
    apply ensures_walk_leaf (by simp) rfl rfl
    apply ensures_ifInProcedure he h
    apply ensures_emits_imp
      (ensures_of_limit (ensures_pushConstant h (.display text)) env.file nodes)
    intro t emitted hemitted
    obtain ⟨i, rfl, hi⟩ := hemitted
    exact .string hi (.nil _)
  | @call id location callee usings arguments hcallee husings harguments ih =>
    intro code depth calls g h
    have hisCall := (IsArgument.call id location hcallee husings harguments).isCall rfl
    have hargs := arguments_call id .callExpression location hcallee husings
      (.absent : Under .callReturnings [] [])
    rw [List.append_nil] at hargs
    apply pushesArgument_call he hisCall rfl hready _ code depth calls g h
    intro a ha usage hparam
    have hbelow : ∀ n ∈ a.nodes, n ∈ Node.nodes ⟨id, .callExpression, location, callee :: usings⟩ :=
      fun n hn =>
      Node.nodes_trans (Node.argument_mem_nodes ha) hn
    have hargument : ArgumentIn nodes a := ⟨_, hnodes _ (Node.self_mem_nodes _), hisCall, ha⟩
    exact ih a (hargs ▸ ha) (fun n hn => hready n (hbelow n hn)) hargument
      (fun n hn => hnodes n (hbelow n hn)) hparam

/-! ### Statements -/

/-- Walking a statement emits its code, which leaves the stack as high as it was. -/
theorem ensures_walk_statement {s : Node} (hs : IsStatement s)
    (hdisplay : s.tag ≠ .displayStatement)
    (hready : ∀ n ∈ s.nodes, CallSite.Ready env.globals chunk p env.bindings n)
    (hnodes : ∀ n ∈ s.nodes, n ∈ nodes) (h : Inside site code ctx.layout.locals.length calls g) :
    Ensures ((visitor env).walk s.reversed) g
      (Emits site code ctx.layout.locals.length calls g fun t emitted =>
        StatementCode ctx t (Statement.ofNode s) emitted)
      (fun e _ => EmissionStop env.file nodes e) := by
  by_cases hpayload : s.payload = .callStatement
  · have hc := hs.isCall hpayload
    obtain ⟨q, hcall⟩ := exists_callAt hc hready
    have hpushes : ∀ a ∈ s.arguments, ∀ usage, env.bindings.param? a = some usage →
        PushesArgument env ctx site nodes usage a := by
      intro a ha usage hparam
      have hbelow : ∀ n ∈ a.nodes, n ∈ s.nodes :=
        fun n hn => Node.nodes_trans (Node.argument_mem_nodes ha) hn
      exact pushesArgument he (hc.areArguments a ha) (fun n hn => hready n (hbelow n hn))
        ⟨s, hnodes s s.self_mem_nodes, hc, ha⟩ (fun n hn => hnodes n (hbelow n hn)) hparam
    have hleave : (visitor env).leave s.reversed = finishStatement env s.reversed := by
      simp only [visitor, Node.payload_reversed, hpayload]
    apply ensures_emits_imp (ensures_walk_call he hcall hpushes h fun _ _ hg' =>
      hleave ▸ ensures_finishStatement he hcall hg')
    intro t emitted hemitted
    obtain ⟨_, _, rfl, ⟨callable, inner, rfl, hcallable, hinner⟩, count, results, stores, backs,
      rfl, hcount, hresults, hstores, hbacks⟩ := hemitted
    have hrequested := hcall.requested_le he
    have hdistinct := hcall.wellFormed.distinct
    -- a statement asks for as many results as it has targets
    rw [CallSite.requested_ofNode hc, if_neg (by simp [Node.is, Node.tag, hpayload, Payload.tag])]
      at hrequested
    rw [Call.written, Call.ofNode, CallSite.filterMap_targetName? hc.areTargets] at hdistinct
    simp only [Statement.ofNode, hpayload, CallSite.filterMap_targetName? hc.areTargets]
    exact .call hcallable ((List.length_map _).trans (hcall.length_usages he.toKnowsCallees))
      ((List.length_map _).trans_le hrequested)
      (hcount.trans (List.length_map _).symm) hresults hdistinct hinner hstores hbacks
  · -- without its calls and displays, a procedure has returns only
    cases hs with
    | call => exact absurd rfl hpayload
    | display => exact absurd rfl hdisplay
    | goback id location =>
      apply ensures_walk_leaf (by simp) rfl rfl
      apply (ensures_emit h .ret).imp
      intro _ g' hg'
      exact ⟨[.ret], hg'.1, hg'.2 ▸ .refl _, .goback⟩

/-- Walking the statements of a procedure emits their codes one after the other. -/
theorem ensures_walk_statements {statements nodes : List Node}
    (hstatements : ∀ s ∈ statements, IsStatement s ∧ s.tag ≠ .displayStatement)
    (hready : ∀ s ∈ statements, ∀ n ∈ s.nodes, CallSite.Ready env.globals chunk p env.bindings n ∧
      n ∈ nodes) (h : Inside site code ctx.layout.locals.length calls g) :
    Ensures ((visitor env).walkAll (statements.map Node.reversed)) g
      (Emits site code ctx.layout.locals.length calls g fun t emitted =>
        ∃ codes : List (List Instruction),
        emitted = codes.flatten ∧
          List.Forall₂ (StatementCode ctx t) (statements.map Statement.ofNode) codes)
      (fun e _ => EmissionStop env.file nodes e) := by
  induction statements generalizing code g with
  | nil =>
    rw [← List.append_nil code] at h
    exact ⟨[], h, .refl _, [], rfl, .nil⟩
  | cons s rest ih =>
    have hself := hstatements s List.mem_cons_self
    have hnodes := hready s List.mem_cons_self
    have hfirst := ensures_walk_statement he hself.1 hself.2 (fun n hn => (hnodes n hn).1)
      (fun n hn => (hnodes n hn).2) h
    have hrest : ∀ emitted g', Inside site (code ++ emitted) ctx.layout.locals.length calls g' →
        _ := fun emitted g' hg' =>
      ih (fun t ht => hstatements t (List.mem_cons_of_mem s ht))
        (fun t ht => hready t (List.mem_cons_of_mem s ht)) hg'
    rw [List.map_cons, Visitor.walkAll_cons]
    apply ensures_emits_imp (ensures_seq hfirst (fun _ _ _ hle hcode => hcode.mono hle) hrest)
    intro t emitted hemitted
    obtain ⟨before, _, rfl, hbefore, codes, rfl, hcodes⟩ := hemitted
    exact ⟨before :: codes, rfl, .cons hbefore hcodes⟩

end Generation

end CobolCompiler
