import CobolCompiler.Machine.Assembler
import CobolCompiler.Proofs.Outcome
import Mathlib.Data.List.DropRight
import Mathlib.Data.List.Nodup

/-!
# What the assembler keeps

The assembler is asked to do one thing after the other, in any order, and answers each time. This
module says how it stands after any such sequence (`assembler_appends_only`).

* What a single operation does, and when it is refused: `Effect` and `Refuses`. A refused operation
  changes nothing.
* The lists have room for what is in them, and the prototype that is open exists (`Fits`).
* What was appended stays where it is until a module is begun or finished (`Module.Grows`), so an
  index stands for the item that it was given out for (`Denotes`).
* The module under construction can be read off the operations that were asked for since then
  (`assembled`).
-/

namespace CobolCompiler.Machine

/-! ### Operations -/

namespace Assembler

/-- What the assembler can be asked to do. -/
inductive Operation
  | begin (name : String)
  | openPrototype (name? : Option String) (usings returnings : UInt8)
  | close
  | addField (value : Value)
  | addConstant (value : Value)
  | addImport (owner program : String)
  | emit (instruction : Instruction)
  | finish
  deriving DecidableEq, Repr

/-- What an operation answers with. -/
inductive Answer
  | done
  | index (index : UInt16)
  | product (product : Module)
  deriving DecidableEq, Repr

namespace Operation

/-- Do what is asked for. -/
def act : Operation → AssembleM Answer
  | .begin name => do Assembler.begin name; return .done
  | .openPrototype name? usings returnings =>
    do return .index (← Assembler.openPrototype name? usings returnings)
  | .close => do Assembler.close; return .done
  | .addField value => do return .index (← Assembler.addField value)
  | .addConstant value => do return .index (← Assembler.addConstant value)
  | .addImport owner program => do return .index (← Assembler.addImport owner program)
  | .emit instruction => do Assembler.emit instruction; return .done
  | .finish => do return .product (← Assembler.finish)

/-- Whether an operation drops what was assembled. -/
def restarts : Operation → Bool
  | .begin _ | .finish => true
  | _ => false

end Operation

instance : DecidableEq (Except AssembleError Answer) := fun x y =>
  match x, y with
  | .ok a, .ok b => decidable_of_iff (a = b) (by simp)
  | .error e, .error f => decidable_of_iff (e = f) (by simp)
  | .ok _, .error _ => isFalse (by simp)
  | .error _, .ok _ => isFalse (by simp)

/-- An operation that the assembler was asked for, with what came of it. -/
structure Entry where
  operation : Operation
  outcome : Except AssembleError Answer
  deriving DecidableEq

/-- Ask for one more operation, and note what comes of it. -/
def next (past : List Entry × Assembler) (operation : Operation) : List Entry × Assembler :=
  match operation.act past.2 with
  | .ok answer a => (past.1 ++ [⟨operation, .ok answer⟩], a)
  | .error e a => (past.1 ++ [⟨operation, .error e⟩], a)

/-- Ask a new assembler for some operations. The answer is the list of what came of them, and the
assembler that is left. -/
def perform (operations : List Operation) : List Entry × Assembler :=
  operations.foldl next ([], empty)

/-- The part of a list of operations after the last one that dropped what was assembled. -/
def recent (log : List Entry) : List Entry :=
  log.rtakeWhile fun entry => !entry.operation.restarts

/-! ### Single operations -/

/-- The lists of a module have room for what is in them, the imports are distinct, and the open
prototype exists. -/
structure Fits (a : Assembler) : Prop where
  open_lt : ∀ k, a.open? = some k → k < a.built.prototypes.size
  constants_le : a.built.constants.size ≤ room
  imports_le : a.built.imports.size ≤ room
  prototypes_le : a.built.prototypes.size ≤ room
  fields_le : ∀ (k : Nat) (p : Prototype), a.built.prototypes[k]? = some p → p.fields.size ≤ room
  imports_nodup : a.built.imports.toList.Nodup

/-- An operation is refused, and why: there is no room, or no open prototype. -/
def Refuses (a : Assembler) : Operation → AssembleError → Prop
  | .openPrototype _ _ _, .tooManyPrototypes => a.built.prototypes.size = room
  | .addField _, .noOpenPrototype => a.open? = none
  | .addField _, .tooManyFields => ∃ p, a.current? = some p ∧ p.fields.size = room
  | .addConstant _, .tooManyConstants => a.built.constants.size = room
  | .addImport owner program, .tooManyImports =>
    (⟨owner, program⟩ : Import) ∉ a.built.imports.toList ∧ a.built.imports.size = room
  | .emit _, .noOpenPrototype => a.open? = none
  | _, _ => False

/-- What an operation does that is not refused. -/
inductive Effect (a : Assembler) : Operation → Answer → Assembler → Prop
  | begin (name : String) : Effect a (.begin name) .done ⟨Module.empty name, none⟩
  | openPrototype (name? : Option String) (usings returnings : UInt8)
      (hroom : a.built.prototypes.size < room) :
      Effect a (.openPrototype name? usings returnings) (.index (.ofNat a.built.prototypes.size))
      ⟨{ a.built with prototypes := a.built.prototypes.push ⟨name?, usings, returnings, #[], #[]⟩ },
        some a.built.prototypes.size⟩
  | close : Effect a .close .done { a with open? := none }
  | addField (value : Value) {k : Nat} {p : Prototype} (hopen : a.open? = some k)
      (hp : a.built.prototypes[k]? = some p) (hroom : p.fields.size < room) :
      Effect a (.addField value) (.index (.ofNat p.fields.size)) { a with
        built := modifyPrototype k (fun p => { p with fields := p.fields.push value }) a.built }
  | addConstant (value : Value) (hroom : a.built.constants.size < room) :
      Effect a (.addConstant value) (.index (.ofNat a.built.constants.size))
        { a with built := { a.built with constants := a.built.constants.push value } }
  | knownImport {owner program : String} {k : Nat}
      (hknown : a.built.imports[k]? = some ⟨owner, program⟩) :
      Effect a (.addImport owner program) (.index (.ofNat k)) a
  | newImport {owner program : String} (hnew : (⟨owner, program⟩ : Import) ∉ a.built.imports.toList)
      (hroom : a.built.imports.size < room) :
      Effect a (.addImport owner program) (.index (.ofNat a.built.imports.size))
        { a with built := { a.built with imports := a.built.imports.push ⟨owner, program⟩ } }
  | emit (instruction : Instruction) {k : Nat} {p : Prototype} (hopen : a.open? = some k)
      (hp : a.built.prototypes[k]? = some p) : Effect a (.emit instruction) .done { a with
        built := modifyPrototype k (fun p => { p with code := p.code.push instruction }) a.built }
  | finish : Effect a .finish (.product a.built) empty

section single

variable {a b : Assembler} {operation : Operation} {answer : Answer}

theorem ensures_append {size : Module → Nat} {full : AssembleError} {change : Module → Module}
    {ok : UInt16 → Assembler → Prop} {err : AssembleError → Assembler → Prop} :
    Ensures (append size full change) a ok err ↔
      (size a.built < room → ok (.ofNat (size a.built)) { a with built := change a.built }) ∧
      (room ≤ size a.built → err full a) := by
  unfold Ensures append
  by_cases hroom : size a.built < room
  · simp [hroom, Nat.not_le.mpr hroom]
  · simp [hroom, Nat.le_of_not_lt hroom]

theorem ensures_opened {ok : Nat → Assembler → Prop} {err : AssembleError → Assembler → Prop} :
    Ensures opened a ok err ↔
      (∀ k, a.open? = some k → ok k a) ∧ (a.open? = none → err .noOpenPrototype a) := by
  unfold Ensures opened
  cases hopen : a.open? with
  | none => simp
  | some k => simp

/-- The prototype that is open is one of the prototypes. -/
theorem Fits.exists_current (h : a.Fits) {k : Nat} (hopen : a.open? = some k) :
    ∃ p, a.built.prototypes[k]? = some p ∧ a.current? = some p := by
  have hlt := h.open_lt k hopen
  refine ⟨a.built.prototypes[k], Array.getElem?_eq_getElem hlt, ?_⟩
  rw [current?, hopen]
  exact Array.getElem?_eq_getElem hlt

/-- An operation does what it is for, or it is refused and changes nothing. -/
theorem Fits.ensures_act (h : a.Fits) (operation : Operation) :
    Ensures operation.act a (fun answer b => Effect a operation answer b)
      (fun e b => b = a ∧ a.Refuses operation e) := by
  cases operation with
  | begin name => exact .begin name
  | openPrototype name? usings returnings =>
    simp only [Operation.act, Assembler.openPrototype, ensures_bind, ensures_append, ensures_modify,
      ensures_pure]
    -- refused only if full: there is never more than there is room for
    refine ⟨fun hroom => ?_, fun hfull => ⟨trivial, Nat.le_antisymm h.prototypes_le hfull⟩⟩
    rw [UInt16.toNat_ofNat_of_lt' hroom]
    exact .openPrototype name? usings returnings hroom
  | close => exact .close
  | addField value =>
    simp only [Operation.act, Assembler.addField, ensures_bind, ensures_opened, ensures_append,
      ensures_pure]
    refine ⟨fun k hopen => ?_, fun hnone => ⟨trivial, hnone⟩⟩
    obtain ⟨p, hp, hcurrent⟩ := h.exists_current hopen
    rw [Array.getD_eq_getD_getElem?, hp, Option.getD_some]
    exact ⟨fun hroom => .addField value hopen hp hroom,
      fun hfull => ⟨trivial, p, hcurrent, Nat.le_antisymm (h.fields_le k p hp) hfull⟩⟩
  | addConstant value =>
    simp only [Operation.act, Assembler.addConstant, ensures_bind, ensures_append, ensures_pure]
    exact ⟨fun hroom => .addConstant value hroom,
      fun hfull => ⟨trivial, Nat.le_antisymm h.constants_le hfull⟩⟩
  | addImport owner program =>
    simp only [Operation.act, Assembler.addImport, ensures_bind, ensures_get]
    -- an import that is known is no new entry, and needs no room
    cases hfound : a.built.imports.findIdx? (· = ⟨owner, program⟩) with
    | some k =>
      obtain ⟨hlt, hk, -⟩ := Array.findIdx?_eq_some_iff_getElem.mp hfound
      have hknown : a.built.imports[k]? = some ⟨owner, program⟩ := by
        rw [Array.getElem?_eq_getElem hlt, of_decide_eq_true hk]
      exact .knownImport hknown
    | none =>
      have hnew : (⟨owner, program⟩ : Import) ∉ a.built.imports.toList := by
        intro hmem
        simpa using Array.findIdx?_eq_none_iff.mp hfound _ (Array.mem_toList_iff.mp hmem)
      simp only [ensures_append, ensures_pure]
      exact ⟨fun hroom => .newImport hnew hroom,
        fun hfull => ⟨trivial, hnew, Nat.le_antisymm h.imports_le hfull⟩⟩
  | emit instruction =>
    simp only [Operation.act, Assembler.emit, ensures_bind, ensures_opened, ensures_modify,
      ensures_pure]
    refine ⟨fun k hopen => ?_, fun hnone => ⟨trivial, hnone⟩⟩
    obtain ⟨p, hp, -⟩ := h.exists_current hopen
    exact .emit instruction hopen hp
  | finish => exact .finish

/-- An operation that has an effect is not refused. -/
theorem Effect.not_refuses (h : Effect a operation answer b) (e : AssembleError) :
    ¬a.Refuses operation e := by
  intro hrefuses
  cases h with
  | openPrototype _ _ _ hroom =>
    cases e <;> first | exact hrefuses | exact absurd hrefuses (Nat.ne_of_lt hroom)
  | addConstant _ hroom =>
    cases e <;> first | exact hrefuses | exact absurd hrefuses (Nat.ne_of_lt hroom)
  | knownImport hknown =>
    have hmem := Array.mem_toList_iff.mpr (Array.mem_of_getElem? hknown)
    cases e <;> first | exact hrefuses | exact hrefuses.1 hmem
  | newImport _ hroom =>
    cases e <;> first | exact hrefuses | exact absurd hrefuses.2 (Nat.ne_of_lt hroom)
  | addField _ hopen hp hroom =>
    cases e with
    | noOpenPrototype => cases hopen.symm.trans hrefuses
    | tooManyFields =>
      obtain ⟨q, hq, hfull⟩ := hrefuses
      rw [current?, hopen] at hq
      obtain rfl := Option.some.inj (hp.symm.trans hq)
      exact absurd hfull (Nat.ne_of_lt hroom)
    | _ => exact hrefuses
  | emit _ hopen _ =>
    cases e with
    | noOpenPrototype => cases hopen.symm.trans hrefuses
    | _ => exact hrefuses
  | _ => cases e <;> exact hrefuses

/-- Exactly the operations fail that are refused, and they change nothing. -/
theorem Fits.act_eq_error_iff (h : a.Fits) (operation : Operation) (e : AssembleError)
    (b : Assembler) :
    operation.act a = .error e b ↔ a.Refuses operation e ∧ b = a := by
  have hact := h.ensures_act operation
  constructor
  · intro herror
    obtain ⟨hsame, hrefuses⟩ := hact.of_error herror
    exact ⟨hrefuses, hsame⟩
  · intro hrefuses
    obtain ⟨hrefuses, rfl⟩ := hrefuses
    cases hresult : operation.act b with
    | ok answer c => exact absurd hrefuses ((hact.of_ok hresult).not_refuses e)
    | error e' c =>
      obtain ⟨rfl, hrefuses'⟩ := hact.of_error hresult
      -- an operation is refused for one reason only
      have hreason : e' = e := by
        cases operation <;> cases e <;> cases e' <;>
          first
          | rfl
          | exact hrefuses.elim
          | exact hrefuses'.elim
          | (obtain ⟨p, hp, -⟩ := hrefuses; rw [current?, hrefuses'] at hp; cases hp)
          | (obtain ⟨p, hp, -⟩ := hrefuses'; rw [current?, hrefuses] at hp; cases hp)
      rw [hreason]

/-! ### Room -/

theorem fits_fresh (name : String) : Fits ⟨Module.empty name, none⟩ where
  open_lt := by simp
  constants_le := Nat.zero_le _
  imports_le := Nat.zero_le _
  prototypes_le := Nat.zero_le _
  fields_le := by simp [Module.empty]
  imports_nodup := List.nodup_nil

/-- A prototype changes, and still has room for its fields. -/
theorem Fits.modifyPrototype (h : a.Fits) (k : Nat) {change : Prototype → Prototype}
    (hchange : ∀ p, a.built.prototypes[k]? = some p → (change p).fields.size ≤ room) :
    Fits { a with built := Assembler.modifyPrototype k change a.built } where
  open_lt := by
    intro j hj
    simpa [Assembler.modifyPrototype] using h.open_lt j hj
  constants_le := h.constants_le
  imports_le := h.imports_le
  prototypes_le := by simpa [Assembler.modifyPrototype] using h.prototypes_le
  fields_le := by
    intro j p hp
    rw [Assembler.modifyPrototype, Array.getElem?_modify] at hp
    split at hp
    · next heq =>
      subst heq
      obtain ⟨q, hq, rfl⟩ := Option.map_eq_some_iff.mp hp
      exact hchange q hq
    · exact h.fields_le j p hp
  imports_nodup := h.imports_nodup

/-- Every operation leaves room for what is there. -/
theorem Effect.fits (h : Effect a operation answer b) (ha : a.Fits) : b.Fits := by
  cases h with
  | begin name => exact fits_fresh name
  | openPrototype name? usings returnings hroom =>
    refine ⟨?_, ha.constants_le, ha.imports_le, ?_, ?_, ha.imports_nodup⟩
    · intro k hk
      obtain rfl := Option.some.inj hk
      simp
    · rw [Array.size_push]
      exact hroom
    · -- a new prototype has no fields yet
      intro k p hp
      rw [Array.getElem?_push] at hp
      split at hp
      · obtain rfl := Option.some.inj hp
        exact Nat.zero_le _
      · exact ha.fields_le k p hp
  | close =>
    exact ⟨by simp, ha.constants_le, ha.imports_le, ha.prototypes_le, ha.fields_le,
      ha.imports_nodup⟩
  | @addField value k p hopen hp hroom =>
    apply ha.modifyPrototype k
    intro q hq
    obtain rfl := Option.some.inj (hp.symm.trans hq)
    rw [Array.size_push]
    exact hroom
  | addConstant value hroom =>
    refine ⟨ha.open_lt, ?_, ha.imports_le, ha.prototypes_le, ha.fields_le, ha.imports_nodup⟩
    rw [Array.size_push]
    exact hroom
  | knownImport _ => exact ha
  | newImport hnew hroom =>
    refine ⟨ha.open_lt, ha.constants_le, ?_, ha.prototypes_le, ha.fields_le, ?_⟩
    · rw [Array.size_push]
      exact hroom
    · rw [Array.toList_push]
      exact List.nodup_append.mpr ⟨ha.imports_nodup, List.nodup_singleton _, by
        intro x hx y hy heq
        obtain rfl := List.mem_singleton.mp hy
        exact hnew (heq ▸ hx)⟩
  | @emit instruction k p hopen hp =>
    apply ha.modifyPrototype k
    intro q hq
    exact ha.fields_le k q hq
  | finish => exact fits_fresh ""

end single

end Assembler

/-! ### Growth -/

/-- A prototype has the heading of another one, and has grown from it. -/
structure Prototype.Grows (p q : Prototype) : Prop where
  heading : q.name? = p.name? ∧ q.usings = p.usings ∧ q.returnings = p.returnings
  fields : p.fields.toList <+: q.fields.toList
  code : p.code.toList <+: q.code.toList

theorem Prototype.Grows.refl (p : Prototype) : p.Grows p :=
  ⟨⟨rfl, rfl, rfl⟩, List.prefix_rfl, List.prefix_rfl⟩

/-- All that is in a module is at its place in another one, too. -/
structure Module.Grows (m n : Module) : Prop where
  constants : m.constants.toList <+: n.constants.toList
  imports : m.imports.toList <+: n.imports.toList
  prototypes : ∀ (k : Nat) (p : Prototype), m.prototypes[k]? = some p →
    ∃ q, n.prototypes[k]? = some q ∧ p.Grows q

theorem Module.Grows.refl (m : Module) : m.Grows m :=
  ⟨List.prefix_rfl, List.prefix_rfl, fun _ p hp => ⟨p, hp, .refl p⟩⟩

/-- What is in a list is in a longer one at the same place. -/
theorem getElem?_of_grown {α : Type} {xs ys : Array α} (h : xs.toList <+: ys.toList) {i : Nat}
    {x : α} (hx : xs[i]? = some x) : ys[i]? = some x := by
  obtain ⟨more, hmore⟩ := h
  rw [← Array.getElem?_toList] at hx ⊢
  rw [← hmore, List.getElem?_append_left (List.getElem?_eq_some_iff.mp hx).1]
  exact hx

namespace Assembler

section growth

variable {a b : Assembler} {operation : Operation} {answer : Answer}

theorem grows_modifyPrototype (m : Module) (k : Nat) {change : Prototype → Prototype}
    (h : ∀ p : Prototype, p.Grows (change p)) :
    m.Grows (modifyPrototype k change m) where
  constants := List.prefix_rfl
  imports := List.prefix_rfl
  prototypes := by
    intro j p hp
    rw [modifyPrototype, Array.getElem?_modify, hp]
    by_cases hj : k = j
    · rw [if_pos hj]
      exact ⟨change p, rfl, h p⟩
    · rw [if_neg hj]
      exact ⟨p, rfl, .refl p⟩

/-- An operation that drops nothing only adds to what there is. -/
theorem Effect.grows (h : Effect a operation answer b) (hkeeps : operation.restarts = false) :
    a.built.Grows b.built := by
  cases h with
  | begin name => cases hkeeps
  | openPrototype name? usings returnings _ =>
    refine ⟨List.prefix_rfl, List.prefix_rfl, fun k p hp => ⟨p, ?_, .refl p⟩⟩
    rw [Array.getElem?_push, if_neg (Nat.ne_of_lt (Array.getElem?_eq_some_iff.mp hp).1)]
    exact hp
  | close => exact .refl _
  | addField value _ _ _ =>
    exact grows_modifyPrototype _ _ fun p => ⟨⟨rfl, rfl, rfl⟩, by simp, List.prefix_rfl⟩
  | addConstant value _ => exact ⟨by simp, List.prefix_rfl, fun _ p hp => ⟨p, hp, .refl p⟩⟩
  | knownImport _ => exact .refl _
  | newImport _ _ => exact ⟨List.prefix_rfl, by simp, fun _ p hp => ⟨p, hp, .refl p⟩⟩
  | emit instruction _ _ =>
    exact grows_modifyPrototype _ _ fun p => ⟨⟨rfl, rfl, rfl⟩, List.prefix_rfl, by simp⟩
  | finish => cases hkeeps

end growth

/-! ### The module that operations make -/

namespace Entry

/-- The constant that was added. -/
def constant? : Entry → Option Value
  | ⟨.addConstant value, .ok _⟩ => some value
  | _ => none

/-- The program of another module that was asked for. -/
def import? : Entry → Option Import
  | ⟨.addImport owner program, .ok _⟩ => some ⟨owner, program⟩
  | _ => none

/-- The prototype that was opened, with nothing in it. -/
def prototype? : Entry → Option Prototype
  | ⟨.openPrototype name? usings returnings, .ok _⟩ => some ⟨name?, usings, returnings, #[], #[]⟩
  | _ => none

/-- The field that was added. -/
def field? : Entry → Option Value
  | ⟨.addField value, .ok _⟩ => some value
  | _ => none

/-- The instruction that was emitted. -/
def instruction? : Entry → Option Instruction
  | ⟨.emit instruction, .ok _⟩ => some instruction
  | _ => none

/-- The prototype that is open after an operation, if it is known which one was open before. -/
def opens (open? : Option Nat) : Entry → Option Nat
  | ⟨.openPrototype _ _ _, .ok (.index i)⟩ => some i.toNat
  | ⟨.close, .ok _⟩ => none
  | _ => open?

/-- A prototype with what an operation adds to it. -/
def addTo (entry : Entry) (p : Prototype) : Prototype :=
  { p with
    fields := p.fields ++ entry.field?.toArray
    code := p.code ++ entry.instruction?.toArray }

/-- The name that a module has after an operation, if its name before is known. -/
def renames (name : String) : Entry → String
  | ⟨.begin new, .ok _⟩ => new
  | ⟨.finish, .ok _⟩ => ""
  | _ => name

end Entry

/-- The prototype that is open after some operations: the last one that was opened, if it was not
closed. -/
def openAfter (entries : List Entry) : Option Nat :=
  entries.foldl Entry.opens none

/-- The operations that were asked for while a prototype was open. -/
def during (k : Nat) (open? : Option Nat) : List Entry → List Entry
  | [] => []
  | entry :: rest => (if open? = some k then [entry] else []) ++ during k (entry.opens open?) rest

/-- A prototype with the fields and the code that were added while it was open. -/
def filled (entries : List Entry) (k : Nat) (p : Prototype) : Prototype :=
  { p with
    fields := ((during k none entries).filterMap Entry.field?).toArray
    code := ((during k none entries).filterMap Entry.instruction?).toArray }

/-- The prototypes that were opened, each with what was added to it. -/
def prototypesOf (entries : List Entry) : List Prototype :=
  (entries.filterMap Entry.prototype?).mapIdx (filled entries)

/-- The module that operations make: everything that was appended since a module was last begun or
finished. Imports count where they were first asked for. -/
def assembled (log : List Entry) : Module :=
  ⟨log.foldl Entry.renames "", ((recent log).filterMap Entry.constant?).toArray,
    ((recent log).filterMap Entry.import?).eraseDups.toArray, (prototypesOf (recent log)).toArray⟩

theorem openAfter_concat (entries : List Entry) (entry : Entry) :
    openAfter (entries ++ [entry]) = entry.opens (openAfter entries) :=
  List.foldl_concat ..

theorem during_concat (k : Nat) (open? : Option Nat) (entries : List Entry) (entry : Entry) :
    during k open? (entries ++ [entry]) =
      during k open? entries ++ if entries.foldl Entry.opens open? = some k then [entry]
        else [] := by
  induction entries generalizing open? with
  | nil => exact List.append_nil _
  | cons first rest ih =>
    rw [List.cons_append, during, during, ih, List.append_assoc, List.foldl_cons]

theorem recent_concat (log : List Entry) (entry : Entry) :
    recent (log ++ [entry]) = if entry.operation.restarts then [] else recent log ++ [entry] := by
  rw [recent, List.rtakeWhile_concat]
  cases entry.operation.restarts <;> rfl

/-- An index stands for the item that it was given out for, where it is known what had been asked
for earlier: the item is in its place, and the index counts the items that were there before. Fields
are those of the prototype that was open then. -/
def Denotes (a : Assembler) (earlier : List Entry) : Entry → Prop
  | ⟨.openPrototype name? usings returnings, .ok (.index i)⟩ =>
    i.toNat = (earlier.filterMap Entry.prototype?).length ∧
    ∃ p, a.built.prototypes[i.toNat]? = some p ∧ p.name? = name? ∧ p.usings = usings ∧
      p.returnings = returnings
  | ⟨.addField value, .ok (.index i)⟩ =>
    ∃ k p, openAfter earlier = some k ∧ a.built.prototypes[k]? = some p ∧ i.toNat =
      ((during k none earlier).filterMap Entry.field?).length ∧ p.fields[i.toNat]? = some value
  | ⟨.addConstant value, .ok (.index i)⟩ =>
    i.toNat = (earlier.filterMap Entry.constant?).length ∧ a.built.constants[i.toNat]? = some value
  | ⟨.addImport owner program, .ok (.index i)⟩ => a.built.imports[i.toNat]? = some ⟨owner, program⟩
  | _ => True

/-- The lists of a module and its open prototype are what some operations made of an empty one, and
the indices that were given out stand for what they were given out for. -/
structure Holds (entries : List Entry) (a : Assembler) : Prop where
  constants_eq : a.built.constants.toList = entries.filterMap Entry.constant?
  imports_eq : a.built.imports.toList = (entries.filterMap Entry.import?).eraseDups
  prototypes_eq : a.built.prototypes.toList = prototypesOf entries
  open_eq : a.open? = openAfter entries
  /-- Nothing was added to prototypes that were not opened. -/
  during_eq : ∀ k, a.built.prototypes.size ≤ k → during k none entries = []
  denotes : ∀ earlier entry later, entries = earlier ++ entry :: later → a.Denotes earlier entry

section log

variable {a b : Assembler} {operation : Operation} {answer : Answer} {entries : List Entry}

variable {entry : Entry}

/-- An index goes on standing for its item while the module grows. -/
theorem Denotes.mono {earlier : List Entry} (h : a.Denotes earlier entry)
    (hgrows : a.built.Grows b.built) :
    b.Denotes earlier entry := by
  unfold Denotes at h ⊢
  split
  · obtain ⟨hindex, p, hp, hname, husings, hreturnings⟩ := h
    obtain ⟨q, hq, hpq⟩ := hgrows.prototypes _ p hp
    exact ⟨hindex, q, hq, hpq.heading.1.trans hname, hpq.heading.2.1.trans husings,
      hpq.heading.2.2.trans hreturnings⟩
  · obtain ⟨k, p, hopen, hp, hindex, hvalue⟩ := h
    obtain ⟨q, hq, hpq⟩ := hgrows.prototypes _ p hp
    exact ⟨k, q, hopen, hq, hindex, getElem?_of_grown hpq.fields hvalue⟩
  · exact ⟨h.1, getElem?_of_grown hgrows.constants h.2⟩
  · exact getElem?_of_grown hgrows.imports h
  · trivial

theorem Holds.fresh (name : String) : Holds [] ⟨Module.empty name, none⟩ where
  constants_eq := rfl
  imports_eq := rfl
  prototypes_eq := rfl
  open_eq := rfl
  during_eq := fun _ _ => rfl
  denotes := by simp

/-- An open prototype has the fields that were added while it was open. -/
theorem Holds.fields_eq (h : Holds entries a) {k : Nat} {p : Prototype}
    (hp : a.built.prototypes[k]? = some p) :
    p.fields.toList = (during k none entries).filterMap Entry.field? := by
  rw [← Array.getElem?_toList, h.prototypes_eq, prototypesOf, List.getElem?_mapIdx] at hp
  obtain ⟨q, -, rfl⟩ := Option.map_eq_some_iff.mp hp
  rfl

/-- As many prototypes were opened as there are. -/
theorem Holds.size_prototypes (h : Holds entries a) :
    a.built.prototypes.size = (entries.filterMap Entry.prototype?).length := by
  rw [← Array.length_toList, h.prototypes_eq, prototypesOf, List.length_mapIdx]

/-- Right after an operation its index stands for what was added. -/
theorem Effect.denotes (h : Effect a operation answer b) (ha : a.Fits)
    (hentries : Holds entries a) :
    b.Denotes entries ⟨operation, .ok answer⟩ := by
  cases h with
  | openPrototype name? usings returnings hroom =>
    have hindex := UInt16.toNat_ofNat_of_lt' hroom
    refine ⟨hindex.trans hentries.size_prototypes, ⟨name?, usings, returnings, #[], #[]⟩, ?_,
      rfl, rfl, rfl⟩
    rw [hindex]
    exact Array.getElem?_push_size
  | @addField value k p hopen hp hroom =>
    refine ⟨k, { p with fields := p.fields.push value }, hentries.open_eq ▸ hopen, ?_, ?_, ?_⟩
    · rw [modifyPrototype, Array.getElem?_modify, if_pos rfl, hp]
      rfl
    · rw [UInt16.toNat_ofNat_of_lt' hroom, ← hentries.fields_eq hp, Array.length_toList]
    · rw [UInt16.toNat_ofNat_of_lt' hroom]
      exact Array.getElem?_push_size
  | addConstant value hroom =>
    refine ⟨?_, ?_⟩
    · rw [UInt16.toNat_ofNat_of_lt' hroom, ← hentries.constants_eq, Array.length_toList]
    · rw [UInt16.toNat_ofNat_of_lt' hroom]
      exact Array.getElem?_push_size
  | @knownImport owner program k hknown =>
    have hlt : k < room := Nat.lt_of_lt_of_le (Array.getElem?_eq_some_iff.mp hknown).1 ha.imports_le
    rw [Denotes, UInt16.toNat_ofNat_of_lt' hlt]
    exact hknown
  | newImport _ hroom =>
    rw [Denotes, UInt16.toNat_ofNat_of_lt' hroom]
    exact Array.getElem?_push_size
  | _ => trivial

/-- The entries of a list that is longer by one are the earlier ones and the last one. -/
theorem Holds.denotes_concat (h : Holds entries a) (hgrows : a.built.Grows b.built) {last : Entry}
    (hlast : b.Denotes entries last) (earlier : List Entry) (entry : Entry) (later : List Entry)
    (hsplit : entries ++ [last] = earlier ++ entry :: later) : b.Denotes earlier entry := by
  rcases List.append_eq_append_iff.mp hsplit with ⟨rest, rfl, hrest⟩ | ⟨rest, rfl, hrest⟩
  · -- it is the last one
    obtain ⟨rfl, rfl, -⟩ : rest = [] ∧ last = entry ∧ later = [] := by
      cases rest with
      | nil => simpa using hrest
      | cons _ _ => simp at hrest
    rw [List.append_nil]
    exact hlast
  · cases rest with
    | nil =>
      obtain rfl : entry = last := by simpa using (List.cons.inj hrest).1
      rwa [List.append_nil] at hlast
    | cons first rest =>
      obtain ⟨rfl, rfl⟩ := List.cons.inj hrest
      exact (h.denotes earlier entry rest rfl).mono hgrows

theorem eraseDups_concat {α : Type} [BEq α] [LawfulBEq α] (l : List α) (x : α) :
    (l ++ [x]).eraseDups = if x ∈ l.eraseDups then l.eraseDups else l.eraseDups ++ [x] := by
  rw [List.eraseDups_append]
  by_cases hx : x ∈ l
  · simp [hx, List.removeAll]
  · simp [hx, List.removeAll, List.eraseDups_cons]

theorem mapIdx_addTo_eq_self (h : ∀ p, entry.addTo p = p) (open? : Option Nat)
    (ps : List Prototype) :
    ps.mapIdx (fun k p => if open? = some k then entry.addTo p else p) = ps := by
  simp only [h, ite_self]
  exact List.ext_getElem? fun k => by simp

theorem toList_modify (ps : Array Prototype) {open? : Option Nat} {k : Nat} (hopen : open? = some k)
    (change : Prototype → Prototype) :
    (ps.modify k change).toList = ps.toList.mapIdx fun j p => if open? = some j then change p
      else p := by
  apply List.ext_getElem?
  intro j
  rw [Array.getElem?_toList, Array.getElem?_modify, List.getElem?_mapIdx,
    Array.getElem?_toList, hopen]
  by_cases hj : k = j
  · simp [hj]
  · simp [hj]

namespace Effect

variable (h : Effect a operation answer b) (hkeeps : operation.restarts = false)

include h hkeeps

/-- What an operation adds to the constants. -/
theorem constants_eq :
    b.built.constants.toList = a.built.constants.toList ++
      (Entry.constant? ⟨operation, .ok answer⟩).toList := by
  cases h with
  | addConstant value _ => exact Array.toList_push
  | begin | finish => cases hkeeps
  | _ => exact (List.append_nil _).symm

/-- What an operation adds to the imports: a program counts once. -/
theorem imports_eq (hentries : Holds entries a) :
    b.built.imports.toList =
      ((entries ++ [(⟨operation, .ok answer⟩ : Entry)]).filterMap Entry.import?).eraseDups := by
  rw [List.filterMap_append]
  cases h with
  | @knownImport owner program k hknown =>
    have hmem : (⟨owner, program⟩ : Import) ∈ (entries.filterMap Entry.import?).eraseDups :=
      hentries.imports_eq ▸ Array.mem_toList_iff.mpr (Array.mem_of_getElem? hknown)
    exact hentries.imports_eq.trans ((eraseDups_concat _ _).trans (if_pos hmem)).symm
  | newImport hnew _ =>
    rw [hentries.imports_eq] at hnew
    refine Eq.trans ?_ ((eraseDups_concat _ _).trans (if_neg hnew)).symm
    rw [Array.toList_push, hentries.imports_eq]
  | begin | finish => cases hkeeps
  | _ => exact hentries.imports_eq.trans (congrArg _ (List.append_nil _)).symm

/-- Which prototype is open after an operation. -/
theorem open_eq : b.open? = Entry.opens a.open? ⟨operation, .ok answer⟩ := by
  cases h with
  | openPrototype _ _ _ hroom => rw [Entry.opens, UInt16.toNat_ofNat_of_lt' hroom]
  | begin | finish => cases hkeeps
  | _ => rfl

/-- What an operation adds to the prototypes. -/
theorem prototypes_eq :
    b.built.prototypes.toList =
      (a.built.prototypes.toList.mapIdx fun k p =>
        if a.open? = some k then Entry.addTo ⟨operation, .ok answer⟩ p else p) ++
      (Entry.prototype? ⟨operation, .ok answer⟩).toList := by
  cases h with
  | openPrototype _ _ _ _ =>
    rw [mapIdx_addTo_eq_self fun p => by simp [Entry.addTo, Entry.field?, Entry.instruction?]]
    exact Array.toList_push
  | addField _ hopen _ _ | emit _ hopen _ =>
    refine (toList_modify _ hopen _).trans ?_
    simp [Entry.addTo, Entry.field?, Entry.instruction?, Entry.prototype?]
  | begin | finish => cases hkeeps
  | _ =>
    rw [mapIdx_addTo_eq_self fun p => by simp [Entry.addTo, Entry.field?, Entry.instruction?]]
    exact (List.append_nil _).symm

end Effect

/-- What is in a prototype after one more operation. -/
theorem Holds.filled_concat (h : Holds entries a) (entry : Entry) (k : Nat) (p : Prototype) :
    filled (entries ++ [entry]) k p =
      if a.open? = some k then entry.addTo (filled entries k p) else filled entries k p := by
  rw [h.open_eq, openAfter]
  unfold filled
  rw [during_concat]
  split
  · cases hfield : entry.field? <;> cases hcode : entry.instruction? <;> simp [Entry.addTo,
      hfield, hcode]
  · rw [List.append_nil]

theorem Entry.eq_of_prototype? {p : Prototype} (h : entry.prototype? = some p) :
    (∀ q, entry.addTo q = q) ∧ p.fields = #[] ∧ p.code = #[] := by
  unfold Entry.prototype? at h
  split at h
  · obtain rfl := Option.some.inj h
    exact ⟨fun q => by simp [Entry.addTo, Entry.field?, Entry.instruction?], rfl, rfl⟩
  · cases h

/-- The prototypes after one more operation. -/
theorem Holds.prototypesOf_concat (h : Holds entries a) (entry : Entry) :
    prototypesOf (entries ++ [entry]) =
      (a.built.prototypes.toList.mapIdx fun k p => if a.open? = some k then entry.addTo p else p) ++
      entry.prototype?.toList := by
  have hold : (entries.filterMap Entry.prototype?).mapIdx (filled (entries ++ [entry])) =
      a.built.prototypes.toList.mapIdx fun k p => if a.open? = some k then entry.addTo p
      else p := by
    rw [h.prototypes_eq, prototypesOf, List.mapIdx_mapIdx]
    exact congrArg (List.mapIdx · _) (funext fun k => funext fun p => h.filled_concat entry k p)
  rw [prototypesOf, List.filterMap_append]
  cases hopens : entry.prototype? with
  | none => simpa [hopens] using hold
  | some p =>
    -- nothing can have been added to it yet
    obtain ⟨hadds, hfields, hcode⟩ := Entry.eq_of_prototype? hopens
    have hnew : filled (entries ++ [entry]) (entries.filterMap Entry.prototype?).length p = p := by
      rw [h.filled_concat, hadds, ite_self, filled, h.during_eq _ (Nat.le_of_eq h.size_prototypes)]
      simp [← hfields, ← hcode]
    simp only [List.filterMap_cons, hopens, List.filterMap_nil, List.mapIdx_concat, hold, hnew,
      Option.toList_some]

/-- Nothing is added to a prototype that does not exist. -/
theorem Holds.during_concat_eq (h : Holds entries a) (ha : a.Fits) {k : Nat}
    (hk : a.built.prototypes.size ≤ k)
    (entry : Entry) : during k none (entries ++ [entry]) = [] := by
  have hclosed : openAfter entries ≠ some k := by
    intro hopen
    exact absurd (ha.open_lt k (h.open_eq.trans hopen)) (Nat.not_lt.mpr hk)
  rw [during_concat, h.during_eq k hk, List.nil_append]
  exact if_neg hclosed

/-- An operation that drops nothing goes on record. -/
theorem Effect.holds (h : Effect a operation answer b)
    (hkeeps : operation.restarts = false) (ha : a.Fits)
    (hentries : Holds entries a) : Holds (entries ++ [⟨operation, .ok answer⟩]) b where
  constants_eq := by
    rw [h.constants_eq hkeeps, hentries.constants_eq, List.filterMap_append]
    cases hconstant : Entry.constant? ⟨operation, .ok answer⟩ <;> simp [hconstant]
  imports_eq := h.imports_eq hkeeps hentries
  prototypes_eq := (h.prototypes_eq hkeeps).trans (hentries.prototypesOf_concat _).symm
  open_eq := by rw [h.open_eq hkeeps, hentries.open_eq, openAfter_concat]
  during_eq := by
    intro k hk
    have hsize : a.built.prototypes.size ≤ k := by
      refine Nat.le_trans ?_ hk
      rw [← Array.length_toList, ← Array.length_toList, h.prototypes_eq hkeeps]
      simp
    exact hentries.during_concat_eq ha hsize _
  denotes := hentries.denotes_concat (h.grows hkeeps) (h.denotes ha hentries)

/-- So does an operation that was refused. -/
theorem Holds.refused (h : Holds entries a) (ha : a.Fits) (operation : Operation)
    (e : AssembleError) :
    Holds (entries ++ [⟨operation, .error e⟩]) a := by
  have hsame : ∀ p, Entry.addTo ⟨operation, .error e⟩ p = p := by
    intro p
    cases operation <;> simp [Entry.addTo, Entry.field?, Entry.instruction?]
  refine ⟨?_, ?_, ?_, ?_, ?_, ?_⟩
  · rw [h.constants_eq]
    cases operation <;> simp [Entry.constant?]
  · rw [h.imports_eq, List.filterMap_append]
    cases operation <;> exact congrArg _ (List.append_nil _).symm
  · rw [h.prototypesOf_concat, mapIdx_addTo_eq_self hsame]
    cases operation <;> simp [Entry.prototype?]
  · rw [h.open_eq, openAfter_concat]
    cases operation <;> rfl
  · exact fun k hk => h.during_concat_eq ha hk _
  · refine h.denotes_concat (.refl _) ?_
    cases operation <;> trivial

end log

/-! ### Every sequence of operations -/

/-- What was asked for, and what came of it. -/
def logOf (operations : List Operation) : List Entry :=
  (perform operations).1

/-- The assembler that is left. -/
def after (operations : List Operation) : Assembler :=
  (perform operations).2

/-- The lists have room, everything since the last restart is on record, and the module has the name
it was begun with. -/
structure Recorded (log : List Entry) (a : Assembler) : Prop where
  fits : a.Fits
  holds : Holds (recent log) a
  name_eq : a.built.name = log.foldl Entry.renames ""

/-- One more operation is recorded, too. -/
theorem Recorded.next {past : List Entry × Assembler} (h : Recorded past.1 past.2)
    (operation : Operation) :
    Recorded (next past operation).1 (next past operation).2 := by
  obtain ⟨log, a⟩ := past
  have hact := h.fits.ensures_act operation
  unfold Assembler.next
  cases hresult : operation.act a with
  | error e b =>
    obtain ⟨rfl, hrefuses⟩ := hact.of_error hresult
    have hkeeps : operation.restarts = false := by
      cases operation <;> first | rfl | exact hrefuses.elim
    refine ⟨h.fits, ?_, ?_⟩
    · rw [recent_concat, hkeeps]
      exact h.holds.refused h.fits operation e
    · rw [List.foldl_concat, h.name_eq]
      cases operation <;> rfl
  | ok answer b =>
    have heffect := hact.of_ok hresult
    refine ⟨heffect.fits h.fits, ?_, ?_⟩
    · rw [recent_concat]
      cases hrestarts : operation.restarts with
      | false => exact heffect.holds hrestarts h.fits h.holds
      | true =>
        cases heffect with
        | begin name => exact .fresh name
        | finish => exact .fresh ""
        | _ => cases hrestarts
    · rw [List.foldl_concat, ← h.name_eq]
      cases heffect <;> rfl

theorem recorded_perform (operations : List Operation) :
    Recorded (logOf operations) (after operations) := by
  induction operations using List.reverseRecOn with
  | nil => exact ⟨fits_fresh "", .fresh "", rfl⟩
  | append_singleton earlier operation ih =>
    rw [logOf, after, perform, List.foldl_concat]
    exact ih.next operation

/-- The module under construction is the one that the operations make. -/
theorem Recorded.built_eq {log : List Entry} {a : Assembler} (h : Recorded log a) :
    a.built = assembled log := by
  have hname := h.name_eq
  have hconstants := h.holds.constants_eq
  have himports := h.holds.imports_eq
  have hprototypes := h.holds.prototypes_eq
  rcases a with ⟨⟨name, constants, imports, prototypes⟩, open?⟩
  subst hname
  rw [assembled, ← hconstants, ← himports, ← hprototypes]

/-- A program that is imported already keeps its index, and asking for it changes nothing. -/
theorem Fits.addImport_eq {a : Assembler} (h : a.Fits) {owner program : String} {i : UInt16}
    (hi : a.built.imports[i.toNat]? = some ⟨owner, program⟩) :
    (Operation.addImport owner program).act a = .ok (.index i) a := by
  have hmem : (⟨owner, program⟩ : Import) ∈ a.built.imports.toList :=
    Array.mem_toList_iff.mpr (Array.mem_of_getElem? hi)
  have hact := h.ensures_act (.addImport owner program)
  cases hresult : (Operation.addImport owner program).act a with
  | ok answer b =>
    cases hact.of_ok hresult with
    | @knownImport _ _ k hknown =>
      -- imports are distinct, so there is one place only
      have hplace : k = i.toNat := by
        rw [← Array.getElem?_toList] at hi hknown
        exact (List.getElem?_inj (List.getElem?_eq_some_iff.mp hknown).1 h.imports_nodup).mp
          (hknown.trans hi.symm)
      rw [hplace, UInt16.ofNat_toNat]
    | newImport hnew _ => exact absurd hmem hnew
  | error e b =>
    obtain ⟨-, hrefuses⟩ := hact.of_error hresult
    cases e <;> first | exact hrefuses.elim | exact absurd hmem hrefuses.1

/-- Whatever the assembler was asked for, it stands as follows.

* Its lists have room for what is in them, its imports are distinct, and the prototype that is open
  exists.
* An operation fails exactly if there is no room, or no prototype is open, and changes nothing then.
* The indices that were given out since a module was last begun or finished stand for what they were
  given out for.
* A program that is imported keeps its index.
* Finishing hands over everything that was appended, and leaves nothing. -/
theorem assembler_appends_only (operations : List Operation) :
    (after operations).Fits ∧
    (∀ operation e b, operation.act (after operations) = .error e b ↔
      (after operations).Refuses operation e ∧ b = after operations) ∧
    (∀ earlier entry later, recent (logOf operations) = earlier ++ entry :: later →
      (after operations).Denotes earlier entry) ∧
    (∀ owner program i, ⟨.addImport owner program, .ok (.index i)⟩ ∈ recent (logOf operations) →
      (Operation.addImport owner program).act (after operations) =
        .ok (.index i) (after operations)) ∧
    Operation.finish.act (after operations) = .ok (.product (assembled (logOf operations)))
      empty := by
  have h := recorded_perform operations
  refine ⟨h.fits, h.fits.act_eq_error_iff, h.holds.denotes, ?_, ?_⟩
  · intro owner program i hmem
    obtain ⟨earlier, later, hsplit⟩ := List.append_of_mem hmem
    exact h.fits.addImport_eq (h.holds.denotes earlier _ later hsplit)
  · rw [← h.built_eq]
    rfl

/-- Operations that begin a module twice, repeat a constant and an import, and add a field where no
prototype is open. -/
def ledgerOperations : List Operation :=
  [.begin "DRAFT", .addConstant (.display "DRAFT"), .begin "LEDGER",
    .openPrototype (some "OPEN") 1 0, .addConstant (.display "ON"), .addConstant (.display "ON"),
    .addImport "CLOCK" "NOW", .emit .pop, .close,
    .addField (.comp2 0), .openPrototype none 0 0, .addField (.comp2 0), .addImport "CLOCK" "NOW"]

theorem ledgerOperations_append_only :
    (⟨.addImport "CLOCK" "NOW", .ok (.index 0)⟩ : Entry) ∈ recent (logOf ledgerOperations) ∧
    (Operation.addImport "CLOCK" "NOW").act (after ledgerOperations) =
      .ok (.index 0) (after ledgerOperations) ∧
    Operation.finish.act (after ledgerOperations) =
      .ok (.product ⟨"LEDGER", #[.display "ON", .display "ON"],
      #[⟨"CLOCK", "NOW"⟩], #[⟨some "OPEN", 1, 0, #[], #[.pop]⟩, ⟨none, 0, 0, #[.comp2 0], #[]⟩]⟩)
        empty := by
  obtain ⟨-, -, -, himport, hfinish⟩ := assembler_appends_only ledgerOperations
  have hmem : (⟨.addImport "CLOCK" "NOW", .ok (.index 0)⟩ : Entry) ∈
      recent (logOf ledgerOperations) := by decide +kernel
  have hproduct : assembled (logOf ledgerOperations) = ⟨"LEDGER",
      #[.display "ON", .display "ON"], #[⟨"CLOCK", "NOW"⟩],
      #[⟨some "OPEN", 1, 0, #[], #[.pop]⟩, ⟨none, 0, 0, #[.comp2 0], #[]⟩]⟩ := by
    decide +kernel
  refine ⟨hmem, himport "CLOCK" "NOW" 0 hmem, ?_⟩
  rw [hfinish, hproduct]

end Assembler

end CobolCompiler.Machine
