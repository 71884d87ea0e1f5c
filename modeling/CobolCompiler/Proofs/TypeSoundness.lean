import CobolCompiler.Proofs.AcceptedTyping
import CobolCompiler.Proofs.Arena
import CobolCompiler.Proofs.Undisturbed
import Mathlib.Data.List.Pairwise

/-!
# Type soundness

The files that a session accepts are run together. An import is bound to the prototype of the
program that the scope had under its name when the caller was compiled.

Whatever is run, a field holds values of the usage that it is declared with
(`fields_hold_declared_usages`), if results that are declared ANY are confined. Without that
condition it need not be so (`any_result_in_comp2_field`).
-/

namespace CobolCompiler

open Machine Machine.Typing Translation Syntax Generation

/-! ### Units -/

/-- What the compilation of a file came to. -/
structure CompiledUnit where
  programs : List Program
  /-- The scope that the compilation left behind. -/
  scope : Globals
  product : Module

namespace CompiledUnit

/-- The numbers of the programs, which are those of the last chunk. -/
def symbols (unit : CompiledUnit) : List ProgramId :=
  (unit.scope.chunk ⟨unit.scope.chunks.size - 1⟩).programs.toList

/-- In all programs, results that are declared ANY are confined. -/
def confined (unit : CompiledUnit) : Bool :=
  unit.programs.all (·.confined (calleeSignatureIn unit.scope unit.programs))

/-- An import of a unit is bound to a prototype. -/
inductive Binds (unit : CompiledUnit) (target : Import) (other : CompiledUnit) (i : Nat) : Prop
  /-- The program that the unit knew under the name was compiled to the prototype. -/
  | compiled {q : ProgramId} (hq : unit.scope.exported? target.owner target.program = some q)
      (hi : other.symbols[i]? = some q) : Binds unit target other i
  /-- The unit knew the program from a declaration only, and the one of that name that was compiled
  has its signature. -/
  | declared {q : ProgramId} {program : Program}
      (hq : unit.scope.exported? target.owner target.program = some q)
      (howner : other.product.name = target.owner) (hprogram : other.programs[i]? = some program)
      (hname : program.name = target.program)
      (hsignature : program.heading.signature = unit.scope.signatureOf q) :
      Binds unit target other i

end CompiledUnit

section units

variable (units : List CompiledUnit)

/-- The units of a session, linked. -/
def linked : Image where
  modules := units.map (·.product)
  Binds := fun k target address => ∃ unit other, units[k]? = some unit ∧
    units[address.unit]? = some other ∧ unit.Binds target other address.prototype

/-- The program that a prototype was compiled from. -/
def programAt? (address : Address) : Option Program :=
  units[address.unit]?.bind fun unit => unit.programs[address.prototype]?

/-- Values for the parameters of a program, each of the usage of its parameter. -/
def Admits (address : Address) (arguments : List Value) : Prop :=
  ∃ program, programAt? units address = some program ∧ List.Forall₂ (fun name (v : Value) =>
    program.usageOf name = .any ∨ program.usageOf name = v.usage) program.usings arguments

/-- The declared usages of a program that was compiled. -/
def headingAt (address : Address) : Heading :=
  ((programAt? units address).map Program.heading).getD default

end units

/-! ### Scopes that grow -/

theorem Globals.Undisturbed.signatureOf_eq {sources : List SourceTree} {g g' : Globals}
    (h : g.Undisturbed sources g') (hrange : g.InRange) {q : ProgramId}
    (hq : q.index < g.programs.size) : g'.signatureOf q = g.signatureOf q := by
  have hfields : ∀ fs : List FieldId, (∀ f ∈ fs, f.index < g.fields.size) →
      (fs.map fun f => (g'.field f).usage) = fs.map fun f => (g.field f).usage :=
    fun fs hfs => List.map_congr_left fun f hf => by rw [h.field_eq f (hfs f hf)]
  have hsignature := hrange.program_signature q
  rw [signatureOf, signatureOf, h.program_eq q hq,
    hfields _ fun f hf => hsignature f (List.mem_append_left _ hf),
    hfields _ fun f hf => hsignature f (List.mem_append_right _ hf)]

theorem Globals.InRange.exported_lt {g : Globals} (h : g.InRange) {owner program : String}
    {q : ProgramId} (hq : g.exported? owner program = some q) : q.index < g.programs.size := by
  obtain ⟨m, -, hprogram⟩ := Option.bind_eq_some_iff.mp hq
  exact h.module_table m program _ (Globals.moduleProgram?_eq_some_iff.mp hprogram)

/-- Two units know the same about the programs that both know. -/
def CompiledUnit.Agrees (unit other : CompiledUnit) : Prop :=
  ∀ q : ProgramId, q.index < unit.scope.programs.size → q.index < other.scope.programs.size →
    unit.scope.signatureOf q = other.scope.signatureOf q

/-- A unit that was compiled from a file. -/
structure CompiledUnit.Valid (unit : CompiledUnit) : Prop where
  generated : ∃ policy before, Generated policy before unit.scope unit.product ∧
    unit.programs = programsOf policy before
  inRange : unit.scope.InRange

namespace Session

variable {s t : Session} {units : List CompiledUnit}

/-- The sessions that come about when grammatical modules are compiled and declared, with what was
accepted so far. -/
inductive Yields : Session → List CompiledUnit → Prop
  | start (options : Options) (files : FileStore) : Yields (start options files) []
  | accepted {s t : Session} {units : List CompiledUnit} (hs : Yields s units) {parser : Parser}
      (hparser : parser.Grammatical) (hrooted : parser.Rooted) {source : List UInt8} {name : String}
      {output? : Option String} {root : Node}
      {product : Module} (hroot : parser name source s.options.freeFormat = .ok root)
      (hproduct : compileSource parser source name output? s = .ok product t) :
      Yields t (units ++ [⟨modulePrograms s.options.policy root, t.globals, product⟩])
  | refused {s t : Session} {units : List CompiledUnit} (hs : Yields s units) {parser : Parser}
      (hparser : parser.Grammatical) (hrooted : parser.Rooted) {source : List UInt8} {name : String}
      {output? : Option String} {e : Stop}
      (hstop : compileSource parser source name output? s = .error e t) : Yields t units
  | declared {s : Session} {units : List CompiledUnit} (hs : Yields s units) {parser : Parser}
      (hparser : parser.Grammatical) (hrooted : parser.Rooted) (source : List UInt8)
      (name : String) : Yields (after (declareSource parser source name) s) units
  | files {s : Session} {units : List CompiledUnit} (hs : Yields s units) (files : FileStore) :
      Yields { s with files } units

/-- What is known about the units of a session. -/
structure Holding (s : Session) (units : List CompiledUnit) : Prop where
  reachable : s.Reachable
  valid : ∀ unit ∈ units, unit.Valid
  undisturbed : ∀ unit ∈ units, ∃ sources, unit.scope.Undisturbed sources s.globals
  agree : units.Pairwise CompiledUnit.Agrees

/-- A session goes on, and its scope grows. -/
theorem Holding.next (h : s.Holding units) (ht : t.Reachable) {sources : List SourceTree}
    (hgrows : s.globals.Undisturbed sources t.globals) : t.Holding units where
  reachable := ht
  valid := h.valid
  undisturbed := by
    intro unit hunit
    obtain ⟨earlier, hearlier⟩ := h.undisturbed unit hunit
    exact ⟨_, hearlier.trans hgrows⟩
  agree := h.agree

/-- A unit is added whose scope is that of the session. -/
theorem Holding.append (h : s.Holding units) {unit : CompiledUnit} (hunit : unit.Valid)
    (hscope : unit.scope = s.globals) : s.Holding (units ++ [unit]) where
  reachable := h.reachable
  valid := by
    intro other hother
    rcases List.mem_append.mp hother with hother | hother
    · exact h.valid other hother
    · rwa [List.mem_singleton.mp hother]
  undisturbed := by
    intro other hother
    rcases List.mem_append.mp hother with hother | hother
    · exact h.undisturbed other hother
    · rw [List.mem_singleton.mp hother, hscope]
      exact ⟨[], .refl _⟩
  agree := by
    rw [List.pairwise_append]
    refine ⟨h.agree, List.pairwise_singleton _ _, ?_⟩
    intro other hother unit' hunit' q hq _
    obtain ⟨sources, hgrows⟩ := h.undisturbed other hother
    rw [List.mem_singleton.mp hunit', hscope]
    exact (hgrows.signatureOf_eq (h.valid other hother).inRange hq).symm

theorem after_ok {α : Type} {step : SessionM α} {a : α} (h : step s = .ok a t) :
    after step s = t := by
  rw [after, h]

theorem after_error {α : Type} {step : SessionM α} {e : Stop} (h : step s = .error e t) :
    after step s = t := by
  rw [after, h]

theorem Yields.holding (h : s.Yields units) : s.Holding units := by
  induction h with
  | start options files => exact ⟨.start options files, by simp, by simp, .nil⟩
  | @accepted s t units _ parser hparser hrooted source name output? root product hroot
    hproduct ih =>
    have hsound := ih.reachable.sound
    have ht : t.Reachable := by
      rw [← after_ok hproduct]
      exact .compiled ih.reachable parser source name output?
    obtain ⟨system, -, hgrows⟩ :=
      @undisturbed_compileSource parser source name s hsound hparser hrooted output?
    rw [after_ok hproduct] at hgrows
    -- the scope grows before the unit is added, so earlier units and this one agree on what both
    -- know
    obtain ⟨before, hbefore, hgenerated⟩ :=
      generated_of_compiled hsound hroot (hparser _ _ _ _ hroot) (hrooted _ _ _ _ hroot) hproduct
    apply (ih.next ht hgrows).append _ rfl
    refine ⟨⟨s.options.policy, before, hgenerated, ?_⟩, ?_⟩
    · exact (programsOf_eq hbefore _).symm
    · exact Globals.inRange ht.orderly.nested ht.orderly.sound.1 ht.orderly.fielded
  | @refused s t units _ parser hparser hrooted source name output? e hstop ih =>
    have ht : t.Reachable := by
      rw [← after_error hstop]
      exact .compiled ih.reachable parser source name output?
    obtain ⟨system, -, hgrows⟩ :=
      @undisturbed_compileSource parser source name s ih.reachable.sound hparser hrooted output?
    rw [after_error hstop] at hgrows
    exact ih.next ht hgrows
  | @declared s units _ parser hparser hrooted source name ih =>
    have hgrows := holds_after (K := fun t : Session => s.globals.Undisturbed _ t.globals)
      (@undisturbed_declareSource parser source name s ih.reachable.sound hparser hrooted)
    exact ih.next (.declared ih.reachable parser source name) hgrows
  | files _ files ih => exact ⟨.files ih.reachable files, ih.valid, ih.undisturbed, ih.agree⟩

/-- All units of a session agree. -/
theorem Holding.agrees (h : s.Holding units) :
    ∀ unit ∈ units, ∀ other ∈ units, unit.Agrees other := by
  have hsymm : Std.Symm CompiledUnit.Agrees :=
    ⟨fun unit other hagrees q hq hq' => (hagrees q hq' hq).symm⟩
  have hrefl : ∀ unit ∈ units, unit.Agrees unit := fun unit _ q _ _ => rfl
  intro unit hunit other hother
  exact h.agree.forall_of_forall hrefl hunit hother

end Session

/-! ### Linked units are typed -/

namespace CompiledUnit.Valid

variable {unit other : CompiledUnit}

/-- The numbers of the programs of a unit. -/
theorem symbol (h : unit.Valid) {i : Nat} {program : Program}
    (hi : unit.programs[i]? = some program) :
    ∃ q, unit.symbols[i]? = some q ∧ q.index < unit.scope.programs.size ∧
      program.heading.signature = unit.scope.signatureOf q := by
  obtain ⟨policy, before, ⟨m, run, chunk, g, hfile, hscope, -⟩, hprograms⟩ := h.generated
  rw [hprograms] at hi
  obtain ⟨q, hq, hdescribes, -⟩ := hfile.exists_symbol hi
  have hlast : (⟨unit.scope.chunks.size - 1⟩ : ChunkId) = chunk := by
    rw [← hscope, ← hfile.chunk_last, Nat.add_sub_cancel]
  rw [hscope] at hq hdescribes
  refine ⟨q, ?_, h.inRange.chunk_programs chunk q (List.mem_of_getElem? hq),
    hdescribes.signature_heading⟩
  rw [symbols, hlast]
  exact hq

/-- A prototype that an import is bound to has the signature that the caller knows. -/
theorem signature_of_binds (hunit : unit.Valid) (hother : other.Valid) (hagrees : unit.Agrees other)
    {target : Import} {i : Nat} (hbinds : unit.Binds target other i) {program : Program}
    (hprogram : other.programs[i]? = some program) :
    ∃ q, unit.scope.exported? target.owner target.program = some q ∧
      program.heading.signature = unit.scope.signatureOf q := by
  cases hbinds with
  | @compiled q hq hi =>
    -- the program has one number in both scopes, and its signature has not changed in between
    obtain ⟨q', hq', hlt, hsignature⟩ := hother.symbol hprogram
    obtain rfl := Option.some.inj (hi.symm.trans hq')
    refine ⟨q, hq, ?_⟩
    rw [hsignature, hagrees q (hunit.inRange.exported_lt hq) hlt]
  | @declared q program' hq _ hprogram' _ hsignature =>
    obtain rfl := Option.some.inj (hprogram.symm.trans hprogram')
    exact ⟨q, hq, hsignature⟩

theorem prototypesTyped (h : unit.Valid) (hconfined : unit.confined = true) :
    List.Forall₂ (fun program prototype =>
      PrototypeTyped unit.product (signatureIn unit.scope unit.programs) program.heading prototype)
      unit.programs unit.product.prototypes.toList := by
  obtain ⟨policy, before, hgenerated, hprograms⟩ := h.generated
  have hall := List.all_eq_true.mp hconfined
  rw [hprograms] at hall ⊢
  exact hgenerated.prototypesTyped hall

end CompiledUnit.Valid

/-- The signatures that a unit knows its callables under. -/
def signatureAt? (units : List CompiledUnit) (k : Nat) (c : Machine.Callable) : Option Signature :=
  units[k]?.bind fun unit => signatureIn unit.scope unit.programs c

section image

variable {units : List CompiledUnit} {address : Address}
variable {program : Program}

theorem headingAt_of_program (h : programAt? units address = some program) :
    headingAt units address = program.heading := by
  rw [headingAt, h]
  rfl

theorem programAt?_eq {unit : CompiledUnit} (hunit : units[address.unit]? = some unit) :
    programAt? units address = unit.programs[address.prototype]? := by
  rw [programAt?, hunit]
  rfl

theorem exists_unit {m : Module} (h : (linked units).modules[address.unit]? = some m) :
    ∃ unit, units[address.unit]? = some unit ∧ unit.product = m := by
  have hget : (units.map (·.product))[address.unit]? = some m := h
  rw [List.getElem?_map] at hget
  exact Option.map_eq_some_iff.mp hget

variable {s : Session} (hs : s.Holding units) (hconfined : ∀ unit ∈ units, unit.confined = true)

include hs

include hconfined in
/-- A prototype of a unit has the heading of its program. -/
theorem exists_programAt {m : Module} {prototype : Prototype}
    (hmodule : (linked units).modules[address.unit]? = some m)
    (hprototype : m.prototypes[address.prototype]? = some prototype) :
    ∃ program, programAt? units address = some program ∧
      PrototypeTyped m (signatureAt? units address.unit) program.heading prototype := by
  obtain ⟨unit, hunit, rfl⟩ := exists_unit hmodule
  have hmem := List.mem_of_getElem? hunit
  have htyped := (hs.valid unit hmem).prototypesTyped (hconfined unit hmem)
  rw [← Array.getElem?_toList] at hprototype
  obtain ⟨hlt, rfl⟩ := List.getElem?_eq_some_iff.mp hprototype
  have hlt' : address.prototype < unit.programs.length := by
    rw [htyped.length_eq]
    exact hlt
  refine ⟨unit.programs[address.prototype], ?_, ?_⟩
  · rw [programAt?_eq hunit, List.getElem?_eq_getElem hlt']
  · have hsignature : signatureAt? units address.unit = signatureIn unit.scope unit.programs := by
      funext c
      rw [signatureAt?, hunit]
      rfl
    rw [hsignature]
    exact htyped.get hlt' hlt

include hconfined in
/-- Every program of a unit has a prototype. -/
theorem exists_prototypeAt (hprogram : programAt? units address = some program) :
    ∃ prototype, (linked units).prototype? address = some prototype := by
  obtain ⟨unit, hunit, hget⟩ := Option.bind_eq_some_iff.mp hprogram
  have hmem := List.mem_of_getElem? hunit
  have hlength := ((hs.valid unit hmem).prototypesTyped (hconfined unit hmem)).length_eq
  have hlt : address.prototype < unit.product.prototypes.size := by
    rw [← Array.length_toList, ← hlength]
    exact (List.getElem?_eq_some_iff.mp hget).1
  have hmodule : (linked units).modules[address.unit]? = some unit.product := by
    show (units.map (·.product))[address.unit]? = _
    rw [List.getElem?_map, hunit]
    rfl
  refine ⟨unit.product.prototypes[address.prototype], ?_⟩
  rw [Image.prototype?, hmodule]
  exact Array.getElem?_eq_getElem hlt

/-- A call knows the signature of the program that it starts. -/
theorem signature_target {k : Nat} {c : Machine.Callable} {signature : Signature}
    (htarget : (linked units).Target k c address)
    (hprogram : programAt? units address = some program)
    (hsignature : signatureAt? units k c = some signature) :
    program.heading.signature = signature := by
  obtain ⟨unit, hunit, hknown⟩ := Option.bind_eq_some_iff.mp hsignature
  cases htarget with
  | proto i =>
    obtain ⟨program', hprogram', rfl⟩ := Option.map_eq_some_iff.mp hknown
    rw [programAt?_eq hunit] at hprogram
    rw [Option.some.inj (hprogram.symm.trans hprogram')]
  | imported hbinds =>
    obtain ⟨unit', other, hunit', hother, hbinds⟩ := hbinds
    obtain rfl := Option.some.inj (hunit.symm.trans hunit')
    have hmem := List.mem_of_getElem? hunit
    have hmem' := List.mem_of_getElem? hother
    rw [programAt?_eq hother] at hprogram
    obtain ⟨q, hq, heq⟩ := (hs.valid unit hmem).signature_of_binds (hs.valid other hmem')
      (hs.agrees unit hmem other hmem') hbinds hprogram
    obtain ⟨q', hq', rfl⟩ := Option.map_eq_some_iff.mp hknown
    rw [heq, Option.some.inj (hq.symm.trans hq')]

include hconfined

theorem typedImage_linked : TypedImage (linked units) (headingAt units) (signatureAt? units) where
  prototypes := by
    intro address m prototype hmodule hprototype
    obtain ⟨program, hprogram, htyped⟩ := exists_programAt hs hconfined hmodule hprototype
    rw [headingAt_of_program hprogram]
    exact htyped
  target := by
    intro k c address prototype signature htarget hprototype hsignature
    obtain ⟨m, hmodule, hget⟩ := exists_module hprototype
    obtain ⟨program, hprogram, -⟩ := exists_programAt hs hconfined hmodule hget
    rw [headingAt_of_program hprogram]
    exact signature_target hs htarget hprogram hsignature

end image

theorem admitted_of_admits {units : List CompiledUnit} {address : Address} {arguments : List Value}
    (h : Admits units address arguments) : Admitted (headingAt units) address arguments := by
  obtain ⟨program, hprogram, harguments⟩ := h
  show List.Forall₂ _ (headingAt units address).usings (arguments.map Value.usage)
  rw [headingAt_of_program hprogram]
  apply List.forall₂_map_left_iff.mpr
  apply List.forall₂_map_right_iff.mpr
  exact harguments.imp fun _ _ husage => Usage.accepts_iff.mpr husage

namespace Session

variable {units : List CompiledUnit}

/-- However files of a session are run together, a field always holds a value, and one of the usage
that it is declared with unless that is ANY. -/
theorem fields_hold_declared_usages {s : Session} {units : List CompiledUnit} (hs : s.Yields units)
    (hconfined : ∀ unit ∈ units, unit.confined = true) {c : Configuration}
    (hreaches : (linked units).Reaches (Admits units) c) {address : Address} {program : Program}
    (hprogram : programAt? units address = some program) {name : String} {entry : Entry}
    (hholds : c.Holds program.layout address name entry) :
    ∃ v, entry = .value v ∧ (program.usageOf name = .any ∨ program.usageOf name = v.usage) := by
  have himage := typedImage_linked hs.holding hconfined
  have hholds' :
      c.Holds (headingAt units address).declared address (program.usageOf name) entry := by
    rw [headingAt_of_program hprogram, program.declared_heading]
    exact hholds.map program.usageOf
  obtain ⟨prototype, hprototype⟩ := exists_prototypeAt hs.holding hconfined hprogram
  have hadmitted := hreaches.mono fun _ _ => admitted_of_admits
  obtain ⟨v, hv, haccepts⟩ := himage.reaches hadmitted hprototype hholds'
  exact ⟨v, hv, Usage.accepts_iff.mp haccepts⟩

/-! ### Running the files of a session -/

/-- What the compilation of a tree adds. -/
def accepted (s : Session) (name : String) (root : Node) : List CompiledUnit :=
  match compileSource (fun _ _ _ => .ok root) [] name none s with
  | .ok product t => [⟨modulePrograms s.options.policy root, t.globals, product⟩]
  | .error _ _ => []

/-- What is accepted when trees are compiled one after the other. -/
def acceptedAll (s : Session) : List (String × Node) → List CompiledUnit
  | [] => []
  | (name, root) :: rest =>
    s.accepted name root ++
      acceptedAll (after (compileSource (fun _ _ _ => .ok root) [] name none) s) rest

theorem yields_acceptedAll {s : Session} (hs : s.Yields units) {trees : List (String × Node)}
    (htrees : ∀ tree ∈ trees, tree.2.grammatical = true ∧ tree.2.tag = .module) :
    ∃ t : Session, t.Yields (units ++ s.acceptedAll trees) := by
  induction trees generalizing s units with
  | nil => exact ⟨s, by rwa [acceptedAll, List.append_nil]⟩
  | cons tree rest ih =>
    obtain ⟨name, root⟩ := tree
    obtain ⟨hgrammar, hmodule⟩ := htrees (name, root) List.mem_cons_self
    have hparser : Parser.Grammatical fun _ _ _ => .ok root := Parser.holds_of_constant hgrammar
    have hrooted : Parser.Rooted fun _ _ _ => .ok root := Parser.holds_of_constant hmodule
    have hrest := fun tree htree => htrees tree (List.mem_cons_of_mem _ htree)
    rw [acceptedAll, ← List.append_assoc]
    apply ih _ hrest
    cases hresult : compileSource (fun _ _ _ => .ok root) [] name none s with
    | ok product t =>
      rw [after_ok hresult, accepted, hresult]
      exact .accepted hs hparser hrooted rfl hresult
    | error e t =>
      rw [after_error hresult, accepted, hresult, List.append_nil]
      exact .refused hs hparser hrooted hresult

theorem exists_yields {trees : List (String × Node)}
    (htrees : ∀ tree ∈ trees, tree.2.grammatical = true ∧ tree.2.tag = .module) :
    ∃ s : Session, s.Yields ((start {} .empty).acceptedAll trees) :=
  yields_acceptedAll (.start {} .empty) htrees

/-- The prototype of the program that a unit knows under the name of an import. -/
def link? (units : List CompiledUnit) (k : Nat) (target : Import) : Option Address := do
  let unit ← units[k]?
  let q ← unit.scope.exported? target.owner target.program
  units.zipIdx.findSome? fun (other, k') => (other.symbols.idxOf? q).map fun i => ⟨k', i⟩

theorem binds_of_link? (k : Nat) (target : Import) (address : Address)
    (h : link? units k target = some address) :
    (linked units).Binds k target address := by
  obtain ⟨unit, hunit, h⟩ := Option.bind_eq_some_iff.mp h
  obtain ⟨q, hq, h⟩ := Option.bind_eq_some_iff.mp h
  obtain ⟨⟨other, k'⟩, hother, h⟩ := List.exists_of_findSome?_eq_some h
  obtain ⟨i, hi, rfl⟩ := Option.map_eq_some_iff.mp h
  obtain ⟨hlt, hget, -⟩ := List.idxOf?_eq_some_iff.mp hi
  have hsymbol : other.symbols[i]? = some q := by rw [List.getElem?_eq_getElem hlt, hget]
  exact ⟨unit, other, hunit, List.mk_mem_zipIdx_iff_getElem?.mp hother, .compiled hq hsymbol⟩

/-- The configuration a number of steps after a program was started. -/
def evaluate (units : List CompiledUnit) (address : Address) (arguments : List Value)
    (steps : Nat) : Option Configuration :=
  ((linked units).enter? address arguments).bind ((linked units).run? (link? units) steps)

theorem reaches_of_evaluate {address : Address} {arguments : List Value}
    {steps : Nat} {c : Configuration} (harguments : Admits units address arguments)
    (h : evaluate units address arguments steps = some c) :
    (linked units).Reaches (Admits units) c := by
  obtain ⟨first, hfirst, hrun⟩ := Option.bind_eq_some_iff.mp h
  exact Image.reaches_of_run? binds_of_link? (Image.reaches_of_enter? harguments hfirst) hrun

/-! ### Two sessions -/

open Build

/-- A module with a program that has a parameter of any usage and a result, and a module that calls
it. -/
def clockModules : List (String × Node) :=
  [("CLOCK.cbl", Build.module "CLOCK" [
      program "NOW" [
        leaf .exportMark,
        node .dataDivision [node .linkageSection [
          field 1 "STAMP" [leaf (.usage .any)], field 1 "TICKS" [leaf (.usage .comp2)]]],
        procedure ["STAMP"] ["TICKS"] []]]),
    ("REPORT.cbl", Build.module "REPORT" [
      program "MAIN" [
        node .dataDivision [
          node .workingStorageSection [
            field 1 "COUNT" [leaf (.usage .comp2), leaf (.numberLiteral "5")]],
          node .linkageSection [field 1 "TITLE" [leaf (.usage .display)]]],
        procedure ["TITLE"] [] [
          call "NOW" (some "CLOCK") [leaf (.callUsingId "TITLE" false)] ["COUNT"]]]])]

/-- The report is run. When the clock has returned, its result is in the field that it is stored in,
and the title has been through a parameter of any usage. -/
theorem clockModules_hold_declared_usages :
    let units := (start {} .empty).acceptedAll clockModules
    (∀ unit ∈ units, unit.confined = true) ∧
      ∃ (s : Session) (c : Configuration) (program : Program), s.Yields units ∧
      (linked units).Reaches (Admits units) c ∧ programAt? units ⟨1, 0⟩ = some program ∧
      c.Holds program.layout ⟨1, 0⟩ "COUNT" (.value (.comp2 0)) ∧
      c.Holds program.layout ⟨1, 0⟩ "TITLE" (.value (.display "SALES")) ∧
      (∃ v, Entry.value (.comp2 0) = .value v ∧
        (program.usageOf "COUNT" = .any ∨ program.usageOf "COUNT" = v.usage)) ∧
      ∃ v, Entry.value (.display "SALES") = .value v ∧
        (program.usageOf "TITLE" = .any ∨ program.usageOf "TITLE" = v.usage) := by
  intro units
  obtain ⟨s, hs⟩ : ∃ s : Session, s.Yields units := exists_yields (by decide +kernel)
  have hconfined : ∀ unit ∈ units, unit.confined = true := by decide +kernel
  have hfields : (programAt? units ⟨1, 0⟩).map (fun program =>
      (program.layout.working, program.usings, program.usageOf "TITLE")) =
        some (["COUNT"], ["TITLE"], .display) := by
    decide +kernel
  have hruns : (evaluate units ⟨1, 0⟩ [.display "SALES"] 7).map (fun c =>
      (c.storage ⟨1, 0⟩, c.activations.map fun a => (a.home, a.usings))) =
      some ([.comp2 0], [(⟨1, 0⟩, [.display "SALES"])]) := by
    decide +kernel
  obtain ⟨program, hprogram, hfields⟩ := Option.map_eq_some_iff.mp hfields
  obtain ⟨hworking, hfields⟩ := Prod.mk.inj hfields
  obtain ⟨husings, htitle⟩ := Prod.mk.inj hfields
  obtain ⟨c, hc, hheld⟩ := Option.map_eq_some_iff.mp hruns
  obtain ⟨hstorage, hactivations⟩ := Prod.mk.inj hheld
  obtain ⟨a, hrunning, ha⟩ := List.map_eq_singleton_iff.mp hactivations
  obtain ⟨hhome, harguments⟩ := Prod.mk.inj ha
  have hadmits : Admits units ⟨1, 0⟩ [.display "SALES"] := by
    refine ⟨program, hprogram, ?_⟩
    rw [husings]
    exact .cons (Or.inr htitle) .nil
  have hreaches := reaches_of_evaluate hadmits hc
  have hcount : c.Holds program.layout ⟨1, 0⟩ "COUNT" (.value (.comp2 0)) :=
    .working (show program.layout.working[0]? = _ by rw [hworking]; rfl) (by rw [hstorage]; rfl)
  have htitled : c.Holds program.layout ⟨1, 0⟩ "TITLE" (.value (.display "SALES")) :=
    .parameter (by rw [hrunning]; exact List.mem_singleton_self a) hhome
      (show program.usings[0]? = _ by rw [husings]; rfl) (by rw [harguments]; rfl)
  exact ⟨hconfined, s, c, program, hs, hreaches, hprogram, hcount, htitled,
    fields_hold_declared_usages hs hconfined hreaches hprogram hcount,
    fields_hold_declared_usages hs hconfined hreaches hprogram htitled⟩

/-- A program with a result of some usage, and one that stores it in a COMP-2 field. -/
def storeModule (result : Usage) : Node :=
  Build.module "STORE" [
    program "QUERY" [
      node .dataDivision [node .linkageSection [field 1 "RESULT" [leaf (.usage result)]]],
      procedure [] ["RESULT"] []],
    program "MAIN" [
      node .dataDivision [
        node .workingStorageSection [field 1 "COUNT" [leaf (.usage .comp2)]]],
      procedure [] [] [call "QUERY" none [] ["COUNT"]]]]

/-- A result that is declared ANY is accepted for a COMP-2 field, which holds a string
afterwards. -/
theorem any_result_in_comp2_field :
    let units := (start {} .empty).acceptedAll [("STORE.cbl", storeModule .any)]
    ∃ (s : Session) (c : Configuration) (program : Program), s.Yields units ∧
      (linked units).Reaches (Admits units) c ∧ programAt? units ⟨0, 1⟩ = some program ∧
      program.usageOf "COUNT" = .comp2 ∧
      c.Holds program.layout ⟨0, 1⟩ "COUNT" (.value (.display "")) := by
  intro units
  obtain ⟨s, hs⟩ : ∃ s : Session, s.Yields units := exists_yields (by decide +kernel)
  have hfields : (programAt? units ⟨0, 1⟩).map (fun program =>
      (program.layout.working, program.usings, program.usageOf "COUNT")) =
        some (["COUNT"], [], .comp2) := by
    decide +kernel
  have hruns : (evaluate units ⟨0, 1⟩ [] 5).map (·.storage ⟨0, 1⟩) = some [.display ""] := by
    decide +kernel
  obtain ⟨program, hprogram, hfields⟩ := Option.map_eq_some_iff.mp hfields
  obtain ⟨hworking, hfields⟩ := Prod.mk.inj hfields
  obtain ⟨husings, hcount⟩ := Prod.mk.inj hfields
  obtain ⟨c, hc, hheld⟩ := Option.map_eq_some_iff.mp hruns
  have hadmits : Admits units ⟨0, 1⟩ [] := ⟨program, hprogram, husings ▸ .nil⟩
  refine ⟨s, c, program, hs, reaches_of_evaluate hadmits hc, hprogram, hcount, ?_⟩
  exact .working (show program.layout.working[0]? = _ by rw [hworking]; rfl) (by rw [hheld]; rfl)

end Session

end CobolCompiler
