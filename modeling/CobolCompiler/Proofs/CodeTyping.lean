import CobolCompiler.Proofs.Execution
import CobolCompiler.Proofs.Translation

/-!
# Types of code

Which usages the values on the stack have while code runs, without running it. The kinds of the
entries of a stack are followed through the code of one program (`TypedCode`), for fixed usages of
the values in its fields. An image is typed if this can be done for all its prototypes, and if calls
agree with the headings of the programs that they start (`TypedImage`). In a typed image fields only
ever hold values of the usages that they are declared with (`TypedImage.reaches`).

A parameter that is declared ANY holds values of one usage from the moment a program starts to its
end: that of its argument. So the usages of the values in fields are fixed for each activation anew.
All other fields that are declared ANY hold strings (`settle`).
-/

namespace CobolCompiler.Machine

open Translation

variable {c : Configuration} {entry : Entry} {k : Nat}

/-! ### Kinds -/

/-- The usage that a value has. -/
def Value.usage : Value → Usage
  | .comp2 _ => .comp2
  | .comp4 .. => .comp4
  | .display _ => .display

namespace Typing

/-- The usage of the values in a field that is no parameter: strings if it is declared ANY. -/
def settle : Usage → Usage
  | .any => .display
  | usage => usage

theorem accepts_settle (usage : Usage) : usage.accepts (settle usage) = true := by
  cases usage <;> rfl

/-- What is known about an entry of a stack. -/
inductive Kind
  | value (usage : Usage)
  | callable (c : Callable)
  deriving DecidableEq, Repr

def Kind.of : Entry → Kind
  | .value v => .value v.usage
  | .callable c => .callable c

/-- The kinds of some values. -/
def kinds (usages : List Usage) : List Kind :=
  usages.map .value

@[simp] theorem kinds_append (usages more : List Usage) :
    kinds (usages ++ more) = kinds usages ++ kinds more :=
  List.map_append

@[simp] theorem length_kinds (usages : List Usage) : (kinds usages).length = usages.length :=
  List.length_map _

theorem kinds_injective : Function.Injective kinds :=
  List.map_injective_iff.mpr fun _ _ h => Kind.value.inj h

theorem map_of_values (values : List Value) :
    (values.map Entry.value).map Kind.of = kinds (values.map Value.usage) := by
  rw [kinds, List.map_map, List.map_map]
  rfl

theorem exists_value_of_kind {usage : Usage} (h : Kind.of entry = .value usage) :
    ∃ v, entry = .value v ∧ v.usage = usage := by
  cases entry with
  | value v => exact ⟨v, rfl, Kind.value.inj h⟩
  | callable c => cases h

/-- Entries of the kinds of values are values. -/
theorem usages_of_mapM {entries : List Entry} {values : List Value}
    (h : entries.mapM Entry.value? = some values) :
    entries.map Kind.of = kinds (values.map Value.usage) := by
  induction entries generalizing values with
  | nil =>
    obtain rfl := Option.some.inj h
    rfl
  | cons entry entries ih =>
    rw [List.mapM_cons] at h
    obtain ⟨v, hv, h⟩ := Option.bind_eq_some_iff.mp h
    obtain ⟨vs, hvs, h⟩ := Option.bind_eq_some_iff.mp h
    obtain rfl := Option.some.inj h
    cases entry with
    | callable c => cases hv
    | value w =>
      obtain rfl := Option.some.inj hv
      rw [List.map_cons, ih hvs]
      rfl

/-- What callers know about a program: the usages of its parameters and results. -/
structure Signature where
  usings : List Usage
  results : List Usage
  deriving DecidableEq, Repr

/-! ### Code -/

section code

variable (m : Module) (signature? : Callable → Option Signature) (layout : FrameLayout Usage)

/-- As far as it goes, a stack begins with the linkage fields of the program. -/
def Framed (stack : List Kind) : Prop :=
  stack.take layout.locals.length = (kinds layout.locals).take stack.length

/-- What one instruction does to the kinds of the entries on the stack. -/
inductive TypedStep : List Kind → Instruction → List Kind → Prop
  | load {stack : List Kind} {i : UInt16} {v : Value} (h : m.constants[i.toNat]? = some v) :
      TypedStep stack (.load i) (stack ++ [.value v.usage])
  | loadField {stack : List Kind} {i : UInt16} {usage : Usage} (h : layout.At (.field i) usage) :
      TypedStep stack (.loadField i) (stack ++ [.value usage])
  | store {stack : List Kind} {i : UInt16} {usage : Usage} (h : layout.At (.field i) usage) :
      TypedStep (stack ++ [.value usage]) (.store i) stack
  | push {stack : List Kind} {slot : Int16} {usage : Usage} (h : layout.At (.frame slot) usage)
      (hfull : layout.locals.length ≤ stack.length) :
      TypedStep stack (.push slot) (stack ++ [.value usage])
  | replace {stack : List Kind} {slot : Int16} {usage : Usage} (h : layout.At (.frame slot) usage)
      (hfull : layout.locals.length ≤ stack.length) :
      TypedStep (stack ++ [.value usage]) (.replace slot) stack
  /-- A result takes the place of a callable. -/
  | replaceCallable {below above : List Kind} {c : Callable} {slot : Int16} {usage : Usage}
      (h : slot.toInt = below.length) :
      TypedStep (below ++ .callable c :: (above ++ [.value usage])) (.replace slot)
      (below ++ .value usage :: above)
  | pop {stack : List Kind} {top : Kind} : TypedStep (stack ++ [top]) .pop stack
  | imported {stack : List Kind} {i : UInt16} {target : Import}
      (h : m.imports[i.toNat]? = some target) :
      TypedStep stack (.imported i) (stack ++ [.callable (.imported target)])
  | proto {stack : List Kind} {i : UInt16} :
      TypedStep stack (.proto i) (stack ++ [.callable (.proto i.toNat)])
  /-- The arguments keep their usages, and the results have those that the callee declares. The
  first argument is on top. -/
  | call {below : List Kind} {c : Callable} {usages : List Usage} {count requested : UInt8}
      {signature : Signature}
      (hsignature : signature? c = some signature) (hcount : usages.length = count.toNat)
      (hfits : List.Forall₂ (fun param usage => param.accepts usage = true) signature.usings
        usages.reverse) (hrequested : requested.toNat ≤ signature.results.length) :
      TypedStep (below ++ .callable c :: kinds usages) (.call count requested)
        (below ++ .callable c ::
          kinds (usages ++ (signature.results.take requested.toNat).map settle))
  | ret {stack : List Kind} (hfull : layout.locals.length ≤ stack.length) :
      TypedStep stack .ret stack

/-- What code does to the kinds of the entries on the stack. Code that follows a return is looked at
as well. -/
inductive TypedCode : List Kind → List Instruction → List Kind → Prop
  | nil {stack : List Kind} (hframed : Framed layout stack) : TypedCode stack [] stack
  | cons {stack stack' stack'' : List Kind} {i : Instruction} {code : List Instruction}
      (hframed : Framed layout stack) (hstep : TypedStep m signature? layout stack i stack')
      (hcode : TypedCode stack' code stack'') : TypedCode stack (i :: code) stack''

variable {m signature? layout}

theorem TypedCode.framed {stack stack' : List Kind} {code : List Instruction}
    (h : TypedCode m signature? layout stack code stack') : Framed layout stack := by
  cases h with
  | nil hframed => exact hframed
  | cons hframed _ _ => exact hframed

theorem TypedCode.append {stack stack' stack'' : List Kind} {code rest : List Instruction}
    (h : TypedCode m signature? layout stack code stack')
    (hrest : TypedCode m signature? layout stack' rest stack'') :
    TypedCode m signature? layout stack (code ++ rest) stack'' := by
  induction h with
  | nil _ => exact hrest
  | cons hframed hstep _ ih => exact .cons hframed hstep (ih hrest)

/-- A stack that has the linkage fields at the bottom. -/
theorem framed_append (above : List Kind) : Framed layout (kinds layout.locals ++ above) := by
  unfold Framed
  have hlength : layout.locals.length = (kinds layout.locals).length := by simp
  rw [hlength, List.take_left, List.take_of_length_le (by simp)]

theorem Framed.of_append {stack above : List Kind} (h : Framed layout (stack ++ above)) :
    Framed layout stack := by
  unfold Framed at *
  have htake := congrArg (List.take stack.length) h
  rw [List.take_take, List.take_take, Nat.min_comm, ← List.take_take, List.take_left] at htake
  rw [htake, Nat.min_eq_left (by simp)]

/-- The entries of a stack that are linkage fields. -/
theorem Framed.getElem? {stack : List Kind} (h : Framed layout stack) {usage : Usage}
    (husage : layout.locals[k]? = some usage) (hk : k < stack.length) :
    stack[k]? = some (.value usage) := by
  have hlt : k < layout.locals.length := (List.getElem?_eq_some_iff.mp husage).1
  have hget := congrArg (fun entries => entries[k]?) h
  simp only [List.getElem?_take, hlt, hk, if_true] at hget
  rw [hget, kinds, List.getElem?_map, husage]
  rfl

end code

/-! ### Frames -/

theorem set_of_getElem? {α : Type} {items : List α} {item : α} (h : items[k]? = some item) :
    items.set k item = items := by
  obtain ⟨hlt, rfl⟩ := List.getElem?_eq_some_iff.mp h
  exact List.set_getElem_self hlt

/-- A frame holds values of the usages of a layout, and has entries of some kinds on its stack. -/
structure FrameTyped (layout : FrameLayout Usage) (stack : List Kind) (f : Frame) : Prop where
  fields : f.fields.map Value.usage = layout.working
  usings : f.usings.map Value.usage = layout.usings
  stack : f.stack.map Kind.of = stack

namespace FrameTyped

variable {layout : FrameLayout Usage} {stack : List Kind} {f f' : Frame}
variable {v : Value}

theorem push (h : FrameTyped layout stack f) (entry : Entry) :
    FrameTyped layout (stack ++ [Kind.of entry]) (f.push entry) where
  fields := h.fields
  usings := h.usings
  stack := by
    show (f.stack ++ [entry]).map Kind.of = _
    rw [List.map_append, h.stack]
    rfl

theorem pop {top : Kind} (h : FrameTyped layout (stack ++ [top]) f) {rest : List Entry}
    (hpop : pop? f.stack = some (rest, entry)) :
    Kind.of entry = top ∧ FrameTyped layout stack { f with stack := rest } := by
  have hstack := h.stack
  rw [eq_of_pop? hpop, List.map_append] at hstack
  obtain ⟨hrest, htop⟩ := List.append_inj' hstack rfl
  exact ⟨(List.cons.inj htop).1, h.fields, h.usings, hrest⟩

/-- The value that is popped has the usage that is known. -/
theorem popValue {usage : Usage} (h : FrameTyped layout (stack ++ [.value usage]) f)
    (hpop : f.popValue? = some (f', v)) :
    v.usage = usage ∧ FrameTyped layout stack f' := by
  obtain ⟨⟨rest, entry⟩, hrest, hvalue⟩ := Option.bind_eq_some_iff.mp hpop
  obtain ⟨w, hw, heq⟩ := Option.bind_eq_some_iff.mp hvalue
  obtain ⟨rfl, rfl⟩ := Prod.mk.inj (Option.some.inj heq)
  obtain ⟨hkind, htyped⟩ := h.pop hrest
  cases entry with
  | callable c => cases hw
  | value x =>
    obtain rfl := Option.some.inj hw
    exact ⟨Kind.value.inj hkind, htyped⟩

/-- The value in a field of the prototype. -/
theorem field (h : FrameTyped layout stack f) {i : UInt16} {usage : Usage}
    (hat : layout.At (.field i) usage) (hv : f.fields[i.toNat]? = some v) : v.usage = usage := by
  cases hat with
  | working i hget =>
    rw [← h.fields, List.getElem?_map, hv] at hget
    exact Option.some.inj hget

/-- The value in a slot of the frame. -/
theorem slot (h : FrameTyped layout stack f) (hframed : Framed layout stack)
    (hfull : layout.locals.length ≤ stack.length) {slot : Int16} {usage : Usage}
    (hat : layout.At (.frame slot) usage) (hv : f.slot? slot = some v) : v.usage = usage := by
  unfold Frame.slot? at hv
  -- parameters have the negative slots, and the other slots count the entries of the stack from the
  -- bottom
  cases hat with
  | parameter slot k hs hget =>
    have hslot : slot.toInt = Int.negSucc k := by rw [hs]; omega
    rw [hslot] at hv
    dsimp only at hv
    rw [← h.usings, List.getElem?_map, hv] at hget
    exact Option.some.inj hget
  | pushed slot k hs hget =>
    have hslot : slot.toInt = Int.ofNat k := by rw [hs]; rfl
    rw [hslot] at hv
    have hk : k < layout.locals.length := (List.getElem?_eq_some_iff.mp hget).1
    have hentry := hframed.getElem? hget (by omega)
    rw [← h.stack, List.getElem?_map] at hentry
    obtain ⟨entry, hentry', hkind⟩ := Option.map_eq_some_iff.mp hentry
    obtain ⟨w, rfl, hw⟩ := exists_value_of_kind hkind
    dsimp only at hv
    rw [hentry'] at hv
    obtain rfl := Option.some.inj hv
    exact hw

/-- A value of the right usage is put into a field of the prototype. -/
theorem setField (h : FrameTyped layout stack f) {i : UInt16} (hat : layout.At (.field i) v.usage) :
    FrameTyped layout stack { f with fields := f.fields.set i.toNat v } where
  fields := by
    cases hat with
    | working i hget =>
      show (f.fields.set i.toNat v).map Value.usage = layout.working
      rw [List.map_set, h.fields, set_of_getElem? hget]
  usings := h.usings
  stack := h.stack

/-- A value of the right usage is put into a slot of the frame. -/
theorem setSlot (h : FrameTyped layout stack f) (hframed : Framed layout stack)
    (hfull : layout.locals.length ≤ stack.length) {slot : Int16}
    (hat : layout.At (.frame slot) v.usage)
    (hset : f.setSlot? slot v = some f') : FrameTyped layout stack f' := by
  unfold Frame.setSlot? at hset
  cases hat with
  | parameter slot k hs hget =>
    have hslot : slot.toInt = Int.negSucc k := by rw [hs]; omega
    rw [hslot] at hset
    dsimp only at hset
    split at hset
    · obtain rfl := Option.some.inj hset
      refine ⟨h.fields, ?_, h.stack⟩
      show (f.usings.set k v).map Value.usage = layout.usings
      rw [List.map_set, h.usings, set_of_getElem? hget]
    · cases hset
  | pushed slot k hs hget =>
    have hslot : slot.toInt = Int.ofNat k := by rw [hs]; rfl
    rw [hslot] at hset
    dsimp only at hset
    split at hset
    · obtain rfl := Option.some.inj hset
      refine ⟨h.fields, h.usings, ?_⟩
      have hk : k < layout.locals.length := (List.getElem?_eq_some_iff.mp hget).1
      show (f.stack.set k (.value v)).map Kind.of = stack
      rw [List.map_set, h.stack]
      exact set_of_getElem? (hframed.getElem? hget (by omega))
    · cases hset

/-- A value is put in the place of a callable. -/
theorem setCallable {below above : List Kind} {c : Callable}
    (h : FrameTyped layout (below ++ .callable c :: above) f)
    {slot : Int16} (hslot : slot.toInt = below.length) (hset : f.setSlot? slot v = some f') :
    FrameTyped layout (below ++ .value v.usage :: above) f' := by
  unfold Frame.setSlot? at hset
  have hplace : slot.toInt = Int.ofNat below.length := by rw [hslot]; rfl
  rw [hplace] at hset
  dsimp only at hset
  split at hset
  · obtain rfl := Option.some.inj hset
    refine ⟨h.fields, h.usings, ?_⟩
    show (f.stack.set below.length (.value v)).map Kind.of = _
    rw [List.map_set, h.stack, List.set_append_right _ _ (Nat.le_refl _), Nat.sub_self]
    rfl
  · cases hset

end FrameTyped

section advance

variable {m : Module} {signature? : Callable → Option Signature} {layout : FrameLayout Usage}
  {stack stack' : List Kind} {f f' : Frame} {i : Instruction}

/-- An instruction that neither calls nor returns does to the stack what its type says, and fields
keep their usages. -/
theorem frameTyped_advance (h : FrameTyped layout stack f) (hframed : Framed layout stack)
    (hstep : TypedStep m signature? layout stack i stack') (hadvance : f.advance m i = some f') :
    FrameTyped layout stack' f' := by
  cases hstep with
  | @load _ i v hv =>
    have hpush : (m.constants[i.toNat]?.map fun v => f.push (.value v)) = some f' := hadvance
    rw [hv] at hpush
    obtain rfl := Option.some.inj hpush
    exact h.push (.value v)
  | loadField hat =>
    obtain ⟨v, hv, rfl⟩ := Option.map_eq_some_iff.mp hadvance
    rw [← h.field hat hv]
    exact h.push (.value v)
  | store hat =>
    obtain ⟨⟨g, v⟩, hpop, hset⟩ := Option.bind_eq_some_iff.mp hadvance
    obtain ⟨rfl, hg⟩ := h.popValue hpop
    dsimp only at hset
    split at hset
    · obtain rfl := Option.some.inj hset
      exact hg.setField hat
    · cases hset
  | push hat hfull =>
    obtain ⟨v, hv, rfl⟩ := Option.map_eq_some_iff.mp hadvance
    rw [← h.slot hframed hfull hat hv]
    exact h.push (.value v)
  | replace hat hfull =>
    obtain ⟨⟨g, v⟩, hpop, hset⟩ := Option.bind_eq_some_iff.mp hadvance
    obtain ⟨rfl, hg⟩ := h.popValue hpop
    exact hg.setSlot hframed.of_append hfull hat hset
  | replaceCallable hslot =>
    obtain ⟨⟨g, v⟩, hpop, hset⟩ := Option.bind_eq_some_iff.mp hadvance
    rw [← List.cons_append, ← List.append_assoc] at h
    obtain ⟨rfl, hg⟩ := h.popValue hpop
    exact hg.setCallable hslot hset
  | pop =>
    obtain ⟨⟨rest, entry⟩, hpop, rfl⟩ := Option.map_eq_some_iff.mp hadvance
    exact (h.pop hpop).2
  | @imported _ i target htarget =>
    have hpush : (m.imports[i.toNat]?.map fun target => f.push (.callable (.imported target))) =
        some f' := hadvance
    rw [htarget] at hpush
    obtain rfl := Option.some.inj hpush
    exact h.push (.callable (.imported target))
  | @proto _ i =>
    have hpush :
        (if i.toNat < m.prototypes.size then some (f.push (.callable (.proto i.toNat))) else none) =
        some f' :=
      hadvance
    split at hpush
    · obtain rfl := Option.some.inj hpush
      exact h.push (.callable (.proto i.toNat))
    · cases hpush
  -- calls and returns are not for one frame alone
  | call _ _ _ _ => cases hadvance
  | ret _ => cases hadvance

end advance

/-! ### Images -/

end Typing

/-- A field of the program at an address holds something, in working storage or in the frame of an
activation. Fields are known by what a layout has in their places. -/
inductive Configuration.Holds {α : Type} (c : Configuration) (layout : FrameLayout α)
    (address : Address) : α → Entry → Prop
  | working {field : α} {k : Nat} {v : Value} (hfield : layout.working[k]? = some field)
      (hv : (c.storage address)[k]? = some v) : c.Holds layout address field (.value v)
  | parameter {a : Activation} {field : α} {k : Nat} {v : Value}
      (ha : a ∈ c.activations) (hhome : a.home = address) (hfield : layout.usings[k]? = some field)
      (hv : a.usings[k]? = some v) : c.Holds layout address field (.value v)
  | pushed {a : Activation} {field : α} {k : Nat} {entry : Entry}
      (ha : a ∈ c.activations) (hhome : a.home = address) (hfield : layout.locals[k]? = some field)
      (hentry : a.stack[k]? = some entry) : c.Holds layout address field entry

theorem Configuration.Holds.map {α β : Type} {layout : FrameLayout α} {address : Address}
    {field : α} (h : c.Holds layout address field entry) (f : α → β) :
    c.Holds (layout.map f) address (f field) entry := by
  cases h with
  | working hfield hv => exact .working (by simp [FrameLayout.map, hfield]) hv
  | parameter ha hhome hfield hv => exact .parameter ha hhome (by simp [FrameLayout.map, hfield]) hv
  | pushed ha hhome hfield hentry =>
    exact .pushed ha hhome (by simp [FrameLayout.map, hfield]) hentry

namespace Typing

/-- The usages that the fields of a program are declared with. -/
structure Heading where
  working : List Usage
  usings : List Usage
  results : List Usage
  /-- The linkage fields that are neither parameters nor results. -/
  others : List Usage
  deriving DecidableEq, Repr, Inhabited

namespace Heading

def signature (heading : Heading) : Signature :=
  ⟨heading.usings, heading.results⟩

/-- The declared usages by the places of the fields. -/
def declared (heading : Heading) : FrameLayout Usage :=
  ⟨heading.working, heading.usings, heading.results ++ heading.others⟩

/-- Values of some usages are arguments for the parameters. -/
def Takes (heading : Heading) (usages : List Usage) : Prop :=
  List.Forall₂ (fun param usage => param.accepts usage = true) heading.usings usages

/-- The usages that the values in fields have, if those of the arguments are known. -/
def layout (heading : Heading) (usages : List Usage) : FrameLayout Usage :=
  ⟨heading.working.map settle, usages, (heading.results ++ heading.others).map settle⟩

end Heading

/-- A prototype has a heading: its fields begin with values of the usages that they are declared
with, and its code is typed, whatever arguments it is started with. -/
structure PrototypeTyped (m : Module) (signature? : Callable → Option Signature) (heading : Heading)
    (prototype : Prototype) : Prop where
  fields : prototype.fields.toList.map Value.usage = heading.working.map settle
  code : ∀ {usages}, heading.Takes usages →
    ∃ stack, TypedCode m signature? (heading.layout usages) [] prototype.code.toList stack

/-- All prototypes of an image have headings, and calls know those of the prototypes that they
start. -/
structure TypedImage (image : Image) (heading : Address → Heading)
    (signature? : Nat → Callable → Option Signature) : Prop where
  prototypes : ∀ {address m prototype}, image.modules[address.unit]? = some m →
    m.prototypes[address.prototype]? = some prototype →
      PrototypeTyped m (signature? address.unit) (heading address) prototype
  target : ∀ {unit c address prototype signature}, image.Target unit c address →
    image.prototype? address = some prototype →
    signature? unit c = some signature → (heading address).signature = signature

/-- Arguments that have the usages of the parameters. -/
def Admitted (heading : Address → Heading) (address : Address) (arguments : List Value) : Prop :=
  (heading address).Takes (arguments.map Value.usage)

section reaches

variable (image : Image) (heading : Address → Heading)
  (signature? : Nat → Callable → Option Signature)
variable {address : Address} {entry : Entry} {prototype : Prototype}

/-- An activation goes on with typed code. Above what it has on its stack it is still to get values
of some usages. -/
structure ActivationTyped (pending : List Usage) (a : Activation) : Prop where
  exists_prototype : ∃ prototype, image.prototype? a.home = some prototype
  takes : (heading a.home).Takes (a.usings.map Value.usage)
  requested_le : a.requested ≤ (heading a.home).results.length
  code : ∃ m stack, image.modules[a.home.unit]? = some m ∧
    TypedCode m (signature? a.home.unit) ((heading a.home).layout (a.usings.map Value.usage))
      (a.stack.map Kind.of ++ kinds pending) a.code stack

/-- What the caller of an activation gets: the arguments, the first one on top of the others, and
the results. -/
def returned (a : Activation) : List Usage :=
  (a.usings.map Value.usage).reverse ++ ((heading a.home).results.take a.requested).map settle

/-- All activations are typed. Each caller waits for what the activation before it returns. -/
inductive Chain : List Usage → List Activation → Prop
  | nil {pending : List Usage} : Chain pending []
  | cons {pending : List Usage} {a : Activation} {rest : List Activation}
      (h : ActivationTyped image heading signature? pending a)
      (hrest : Chain (returned heading a) rest) : Chain pending (a :: rest)

/-- What holds of every configuration that is reached. -/
structure ConfigurationTyped (c : Configuration) : Prop where
  storage : ∀ {address prototype}, image.prototype? address = some prototype →
    (c.storage address).map Value.usage = (heading address).working.map settle
  chain : Chain image heading signature? [] c.activations

variable {image heading signature?}

theorem exists_module (h : image.prototype? address = some prototype) :
    ∃ m, image.modules[address.unit]? = some m ∧
      m.prototypes[address.prototype]? = some prototype :=
  Option.bind_eq_some_iff.mp h

/-- A program that starts with arguments of the right usages. -/
theorem TypedImage.start (himage : TypedImage image heading signature?)
    (hprototype : image.prototype? address = some prototype) {arguments : List Value}
    (harguments : Admitted heading address arguments) {requested : Nat}
    (hrequested : requested ≤ (heading address).results.length) :
    ActivationTyped image heading signature? [] (.start address prototype arguments requested) where
  exists_prototype := ⟨prototype, hprototype⟩
  takes := harguments
  requested_le := hrequested
  code := by
    obtain ⟨m, hmodule, hget⟩ := exists_module hprototype
    obtain ⟨stack, hcode⟩ := (himage.prototypes hmodule hget).code harguments
    exact ⟨m, stack, hmodule, hcode⟩

section steps

variable {storage : Address → List Value} {a : Activation} {rest : List Activation}
  {i : Instruction} {code : List Instruction}

/-- The next instruction of the activation that runs is typed. -/
theorem ActivationTyped.step (h : ActivationTyped image heading signature? [] a)
    (hcode : a.code = i :: code) {m : Module} (hmodule : image.modules[a.home.unit]? = some m) :
    ∃ stack' stack'',
      Framed ((heading a.home).layout (a.usings.map Value.usage)) (a.stack.map Kind.of) ∧
      TypedStep m (signature? a.home.unit) ((heading a.home).layout (a.usings.map Value.usage))
        (a.stack.map Kind.of) i stack' ∧
      TypedCode m (signature? a.home.unit) ((heading a.home).layout (a.usings.map Value.usage))
        stack' code stack'' := by
  obtain ⟨m', stack'', hmodule', htyped⟩ := h.code
  obtain rfl := Option.some.inj (hmodule.symm.trans hmodule')
  rw [hcode, show kinds [] = [] from rfl, List.append_nil] at htyped
  cases htyped with
  | cons hframed hstep hrest => exact ⟨_, _, hframed, hstep, hrest⟩

theorem ConfigurationTyped.advance
    (h : ConfigurationTyped image heading signature? ⟨storage, a :: rest⟩) {m : Module}
    {f : Frame} (hcode : a.code = i :: code) (hmodule : image.modules[a.home.unit]? = some m)
    (hadvance : (a.frame storage).advance m i = some f) :
    ConfigurationTyped image heading signature?
      ⟨Function.update storage a.home f.fields,
        { a with usings := f.usings, stack := f.stack, code } :: rest⟩ := by
  cases h.chain with
  | cons ha hrest =>
  obtain ⟨prototype, hprototype⟩ := ha.exists_prototype
  obtain ⟨stack', stack'', hframed, hstep, hcode'⟩ := ha.step hcode hmodule
  have hframe : FrameTyped ((heading a.home).layout (a.usings.map Value.usage))
      (a.stack.map Kind.of) (a.frame storage) :=
    ⟨h.storage hprototype, rfl, rfl⟩
  have hf := frameTyped_advance hframe hframed hstep hadvance
  -- the usages of the arguments are those with which the program started
  have husings : f.usings.map Value.usage = a.usings.map Value.usage := hf.usings
  constructor
  · intro address prototype' hprototype'
    show (Function.update storage a.home f.fields address).map Value.usage = _
    by_cases haddress : address = a.home
    · rw [haddress, Function.update_self]
      exact hf.fields
    · rw [Function.update_of_ne haddress]
      exact h.storage hprototype'
  · apply Chain.cons
    · constructor
      · exact ⟨prototype, hprototype⟩
      · show (heading a.home).Takes (f.usings.map Value.usage)
        rw [husings]
        exact ha.takes
      · exact ha.requested_le
      · refine ⟨m, stack'', hmodule, ?_⟩
        show TypedCode m _ (Heading.layout _ (f.usings.map Value.usage)) (f.stack.map Kind.of ++ [])
          code stack''
        rw [List.append_nil, hf.stack, husings]
        exact hcode'
    · show Chain image heading signature? ((f.usings.map Value.usage).reverse ++ _) rest
      rw [husings]
      exact hrest

/-- What a call finds on a stack, by the kinds of the entries. -/
theorem split_kinds {stack below top : List Entry} {count : Nat}
    {kindsBelow : List Kind} {c : Callable}
    {usages : List Usage} (hsplit : splitCall? count stack = some (below, entry, top))
    (hkinds : stack.map Kind.of = kindsBelow ++ .callable c :: kinds usages)
    (hcount : usages.length = count) :
    below.map Kind.of = kindsBelow ∧ Kind.of entry = .callable c ∧
      top.map Kind.of = kinds usages := by
  obtain ⟨rfl, hlength⟩ := eq_of_splitCall? hsplit
  rw [List.map_append, List.map_cons] at hkinds
  have htop : (Kind.of entry :: top.map Kind.of).length =
      (Kind.callable c :: kinds usages).length := by
    simp [hlength, hcount]
  obtain ⟨hbelow, hrest⟩ := List.append_inj' hkinds htop
  exact ⟨hbelow, (List.cons.inj hrest).1, (List.cons.inj hrest).2⟩

theorem ConfigurationTyped.call (himage : TypedImage image heading signature?)
    (h : ConfigurationTyped image heading signature? ⟨storage, a :: rest⟩) {count requested : UInt8}
    {below top : List Entry} {callable : Callable} {arguments : List Value}
    (hcode : a.code = .call count requested :: code)
    (hsplit : splitCall? count.toNat a.stack = some (below, .callable callable, top))
    (harguments : top.reverse.mapM Entry.value? = some arguments)
    (htarget : image.Target a.home.unit callable address)
    (hprototype : image.prototype? address = some prototype) :
    ConfigurationTyped image heading signature?
      ⟨storage, .start address prototype arguments requested.toNat ::
        { a with stack := below ++ [.callable callable], code } :: rest⟩ := by
  refine ⟨h.storage, ?_⟩
  cases h.chain with
  | cons ha hrest =>
  obtain ⟨m, _, hmodule, _⟩ := ha.code
  obtain ⟨stack', stack'', hframed, hstep, hcode'⟩ := ha.step hcode hmodule
  generalize hkinds : a.stack.map Kind.of = stack at hstep
  cases hstep with
  | @call kindsBelow c usages _ _ signature hsignature hcount hfits hrequested =>
  obtain ⟨rfl, hcallable, htop⟩ := split_kinds hsplit hkinds hcount
  obtain rfl := Kind.callable.inj hcallable
  have husages : arguments.map Value.usage = usages.reverse := by
    apply kinds_injective
    rw [← usages_of_mapM harguments, List.map_reverse, htop, kinds, kinds, List.map_reverse]
  have hheading := himage.target htarget hprototype hsignature
  have hadmitted : Admitted heading address arguments := by
    show List.Forall₂ _ (heading address).signature.usings (arguments.map Value.usage)
    rw [hheading, husages]
    exact hfits
  have hresults : (heading address).results = signature.results :=
    congrArg Signature.results hheading
  apply Chain.cons
  · exact himage.start hprototype hadmitted (by rw [hresults]; exact hrequested)
  · refine Chain.cons ⟨ha.exists_prototype, ha.takes, ha.requested_le, m, stack'', hmodule, ?_⟩
      hrest
    -- the arguments that the callee gives back and its results are what the code of the caller
    -- expects
    have hreturned : returned heading (.start address prototype arguments requested.toNat) =
        usages ++ (signature.results.take requested.toNat).map settle := by
      show (arguments.map Value.usage).reverse ++
        ((heading address).results.take requested.toNat).map settle = _
      rw [husages, List.reverse_reverse, hresults]
    show TypedCode m _ _ ((below ++ [Entry.callable callable]).map Kind.of ++ kinds _) code stack''
    rw [hreturned, List.map_append, List.append_assoc]
    exact hcode'

/-- The results of an activation that returns lie at the bottom of its frame. -/
theorem results_of_ret (ha : ActivationTyped image heading signature? [] a)
    (hcode : a.code = .ret :: code) {results : List Value}
    (hresults : (a.stack.take a.requested).mapM Entry.value? = some results) :
    results.map Value.usage = ((heading a.home).results.take a.requested).map settle := by
  obtain ⟨m, _, hmodule, _⟩ := ha.code
  obtain ⟨_, _, hframed, hstep, _⟩ := ha.step hcode hmodule
  generalize hkinds : a.stack.map Kind.of = stack at hstep hframed
  cases hstep with
  | ret hfull =>
  have hrequested := ha.requested_le
  have hlength : ((heading a.home).layout (a.usings.map Value.usage)).locals.length =
      (heading a.home).results.length + (heading a.home).others.length := by
    show List.length (((heading a.home).results ++ (heading a.home).others).map settle) = _
    rw [List.length_map, List.length_append]
  -- the linkage fields are at the bottom of the stack, the results before the others
  have htake := congrArg (List.take a.requested) hframed
  rw [List.take_take, List.take_take, Nat.min_eq_left (by omega),
    Nat.min_eq_left (by omega)] at htake
  apply kinds_injective
  rw [← usages_of_mapM hresults, List.map_take, hkinds, htake]
  show (kinds (((heading a.home).results ++ (heading a.home).others).map settle)).take a.requested =
    _
  rw [kinds, kinds, ← List.map_take, ← List.map_take, List.take_append_of_le_length hrequested]

theorem ConfigurationTyped.ret {caller : Activation}
    (h : ConfigurationTyped image heading signature? ⟨storage, a :: caller :: rest⟩)
    {results : List Value} (hcode : a.code = .ret :: code)
    (hresults : (a.stack.take a.requested).mapM Entry.value? = some results) :
    ConfigurationTyped image heading signature?
      ⟨storage, { caller with stack := caller.stack ++ (a.usings.reverse ++ results).map .value } ::
        rest⟩ := by
  refine ⟨h.storage, ?_⟩
  cases h.chain with
  | cons ha hrest =>
  cases hrest with
  | cons hcaller hrest =>
  obtain ⟨m, stack, hmodule, htyped⟩ := hcaller.code
  refine Chain.cons
    ⟨hcaller.exists_prototype, hcaller.takes, hcaller.requested_le, m, stack, hmodule, ?_⟩ hrest
  -- the caller gets just what it waits for, and then it waits for nothing
  have hreturned : kinds (returned heading a) = ((a.usings.reverse ++ results).map Entry.value).map
      Kind.of := by
    rw [map_of_values, List.map_append, results_of_ret ha hcode hresults, List.map_reverse]
    rfl
  have hstack : (caller.stack ++ (a.usings.reverse ++ results).map Entry.value).map Kind.of =
      caller.stack.map Kind.of ++ kinds (returned heading a) := by
    rw [List.map_append, hreturned]
  rw [show kinds [] = [] from rfl, List.append_nil, hstack]
  exact htyped

end steps

/-- Steps keep all types. -/
theorem ConfigurationTyped.next (himage : TypedImage image heading signature?)
    {c c' : Configuration} (hstep : Step image (Admitted heading) c c')
    (h : ConfigurationTyped image heading signature? c) :
    ConfigurationTyped image heading signature? c' := by
  cases hstep with
  | enter hprototype harguments =>
    exact ⟨h.storage, .cons (himage.start hprototype harguments (Nat.zero_le _)) .nil⟩
  | advance hcode hmodule hadvance => exact h.advance hcode hmodule hadvance
  | call hcode hsplit harguments htarget hprototype =>
    exact h.call himage hcode hsplit harguments htarget hprototype
  | ret hcode hresults _ => exact h.ret hcode hresults
  | leave _ => exact ⟨h.storage, .nil⟩

theorem TypedImage.configurationTyped (himage : TypedImage image heading signature?)
    (hreaches : image.Reaches (Admitted heading) c) :
    ConfigurationTyped image heading signature? c := by
  induction hreaches with
  | refl =>
    refine ⟨?_, .nil⟩
    intro address prototype hprototype
    show ((image.prototype? address).elim [] (·.fields.toList)).map Value.usage = _
    rw [hprototype]
    obtain ⟨m, hmodule, hget⟩ := exists_module hprototype
    exact (himage.prototypes hmodule hget).fields
  | tail _ hstep ih => exact ih.next himage hstep

theorem Chain.exists_activationTyped {pending : List Usage} {activations : List Activation}
    (h : Chain image heading signature? pending activations) {a : Activation}
    (ha : a ∈ activations) :
    ∃ pending, ActivationTyped image heading signature? pending a := by
  induction h with
  | nil => cases ha
  | @cons pending b rest hb _ ih =>
    rcases List.mem_cons.mp ha with rfl | ha
    · exact ⟨pending, hb⟩
    · exact ih ha

/-- The linkage fields that an activation has pushed are values. -/
theorem ActivationTyped.exists_pushed {pending : List Usage} {a : Activation}
    (h : ActivationTyped image heading signature? pending a) {usage : Usage}
    (husage : (heading a.home).declared.locals[k]? = some usage)
    (hentry : a.stack[k]? = some entry) :
    ∃ v, entry = .value v ∧ v.usage = settle usage := by
  obtain ⟨m, stack, -, htyped⟩ := h.code
  have hlocal : ((heading a.home).layout (a.usings.map Value.usage)).locals[k]? =
      some (settle usage) := by
    show (((heading a.home).results ++ (heading a.home).others).map settle)[k]? = _
    rw [List.getElem?_map]
    exact congrArg _ husage
  have hlt : k < (a.stack.map Kind.of).length := by
    rw [List.length_map]
    exact (List.getElem?_eq_some_iff.mp hentry).1
  have hkind := htyped.framed.of_append.getElem? hlocal hlt
  rw [List.getElem?_map, hentry] at hkind
  exact exists_value_of_kind (Option.some.inj hkind)

/-- In a typed image every field holds a value, and one that its declaration accepts. -/
theorem TypedImage.reaches (himage : TypedImage image heading signature?)
    (hreaches : image.Reaches (Admitted heading) c)
    (hprototype : image.prototype? address = some prototype)
    {usage : Usage} (hholds : c.Holds (heading address).declared address usage entry) :
    ∃ v, entry = .value v ∧ usage.accepts v.usage = true := by
  have hc := himage.configurationTyped hreaches
  cases hholds with
  | @working _ k v hfield hv =>
    refine ⟨v, rfl, ?_⟩
    have hwith := congrArg (fun usages => usages[k]?) (hc.storage hprototype)
    have hdeclared : (heading address).working[k]? = some usage := hfield
    simp only [List.getElem?_map, hv, hdeclared, Option.map_some, Option.some.injEq] at hwith
    rw [hwith]
    exact accepts_settle usage
  | @parameter a _ k v ha hhome hfield hv =>
    subst hhome
    obtain ⟨_, htyped⟩ := hc.chain.exists_activationTyped ha
    refine ⟨v, rfl, ?_⟩
    have hdeclared : (heading a.home).usings[k]? = some usage := hfield
    obtain ⟨hk, rfl⟩ := List.getElem?_eq_some_iff.mp hdeclared
    obtain ⟨hk', rfl⟩ := List.getElem?_eq_some_iff.mp hv
    simpa using (List.forall₂_iff_get.mp htyped.takes).2 k hk (by simpa using hk')
  | pushed ha hhome hfield hentry =>
    subst hhome
    obtain ⟨_, htyped⟩ := hc.chain.exists_activationTyped ha
    obtain ⟨v, rfl, hv⟩ := htyped.exists_pushed hfield hentry
    exact ⟨v, rfl, hv ▸ accepts_settle usage⟩

end reaches

end Typing

end CobolCompiler.Machine
