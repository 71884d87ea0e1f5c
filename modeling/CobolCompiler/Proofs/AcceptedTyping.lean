import CobolCompiler.Proofs.Safety
import CobolCompiler.Proofs.TypedTranslation

/-!
# Accepted programs are typed

What the checks of calls establish, as rules of types: the programs of a file whose calls are all
right are typed (`CheckedFile.typed`), if results that are declared ANY are kept in check.

The checks themselves do not see to that. A result can go to any field if it is declared ANY, as if
a result were a parameter that takes the value of the field. So it is a condition on the statements
that such a result goes to a field which can hold it (`Statement.confined`).
-/

namespace CobolCompiler

open Machine Machine.Typing Translation Syntax Generation

/-! ### Signatures -/

/-- The signature of a program that the scope knows. -/
def Globals.signatureOf (g : Globals) (q : ProgramId) : Signature where
  usings := (g.program q).usings.toList.map fun f => (g.field f).usage
  results := (g.program q).returnings.toList.map fun f => (g.field f).usage

/-- What callers in a file know about a callable. -/
def signatureIn (g : Globals) (programs : List Program) : Machine.Callable → Option Signature
  | .proto i => programs[i]?.map fun program => program.heading.signature
  | .imported target => (g.exported? target.owner target.program).map g.signatureOf

/-- What callers in a file know about the program that a name stands for. -/
def calleeSignatureIn (g : Globals) (programs : List Program) (callee : Callee) :
    Option Signature :=
  signatureIn g programs (callableOf (programs.map (·.name)) callee)

namespace Syntax

/-- A result that is declared ANY goes to a field which can hold strings, whatever its program was
called with. -/
def Program.confinesAny (program : Program) (name : String) (result : Usage) : Bool :=
  result != .any || program.usageOf name == .display ||
    (program.usageOf name == .any && !program.usings.contains name)

/-- All results of a statement do. -/
def Statement.confined (program : Program) (signature? : Callee → Option Signature) :
    Statement → Bool
  | .call callee _ returnings =>
    (signature? callee).all fun signature =>
      (returnings.zip signature.results).all fun pair => program.confinesAny pair.1 pair.2
  | _ => true

def Program.confined (program : Program) (signature? : Callee → Option Signature) : Bool :=
  program.statements.all (Statement.confined program signature?)

end Syntax

namespace Generation

/-! ### Fields -/

/-- A field begins with a value of its usage, and with a string if that is ANY. -/
theorem usage_initialValue {field : CobolCompiler.Field} {v : Value}
    (h : initialValue? field = some v) :
    v.usage = settle field.type := by
  unfold initialValue? at h
  cases htype : field.type with
  | comp2 =>
    rw [htype] at h
    dsimp only at h
    split at h
    · next text _ =>
      obtain rfl := Option.some.inj h
      -- even where the literal cannot be read, the field begins with a number
      cases hfloat : floatValue? text with
      | none => rfl
      | some w =>
        obtain ⟨numeral, -, rfl⟩ := Option.map_eq_some_iff.mp hfloat
        rfl
    · obtain rfl := Option.some.inj h
      rfl
  | comp4 =>
    rw [htype] at h
    obtain ⟨c, -, rfl⟩ := Option.map_eq_some_iff.mp h
    rfl
  | display =>
    rw [htype] at h
    dsimp only at h
    split at h
    · obtain rfl := Option.some.inj h
      rfl
    · obtain rfl := Option.some.inj h
      rfl
  | any =>
    rw [htype] at h
    obtain rfl := Option.some.inj h
    rfl

namespace Describes

variable {g : Globals} {p : ProgramId} {program : Program} (h : Describes g p program)

include h

theorem mem_fields {f : FieldId} (hf : f ∈ (g.program p).fields.toList) :
    Declaration.fieldSyntax g f ∈ program.working ++ program.linkage := by
  rw [← h.working_eq, ← h.linkage_eq, ← List.map_append]
  apply List.mem_map_of_mem
  exact (List.filter_append_perm (isWorking g) (g.program p).fields.toList).mem_iff.mpr hf

theorem usageOf_eq {f : FieldId} (hf : f ∈ (g.program p).fields.toList) :
    program.usageOf (g.field f).name = (g.field f).usage :=
  program.usageOf_of_mem h.wellNamed (h.mem_fields hf)

/-- The scope and the syntax agree on what callers know. -/
theorem signature_heading : program.heading.signature = g.signatureOf p := by
  have husage : ∀ fs : List FieldId, (∀ f ∈ fs, f ∈ (g.program p).fields.toList) →
      (fs.map fun f => (g.field f).name).map program.usageOf = fs.map fun f =>
      (g.field f).usage := by
    intro fs hfs
    rw [List.map_map]
    exact List.map_congr_left fun f hf => h.usageOf_eq (hfs f hf)
  have husings := husage _ fun f hf => (h.signature f (List.mem_append_left _ hf)).1
  have hreturnings := husage _ fun f hf => (h.signature f (List.mem_append_right _ hf)).1
  show Signature.mk (program.usings.map program.usageOf) (program.returnings.map program.usageOf) =
    _
  rw [← h.usings_eq, ← h.returnings_eq, husings, hreturnings]
  rfl

/-- Fields begin with values of their usages. -/
theorem usage_initial (hconsistent : g.Consistent) :
    ∀ field ∈ program.working ++ program.linkage, field.initial.usage = settle field.usage := by
  intro field hfield
  rw [← h.working_eq, ← h.linkage_eq, ← List.map_append] at hfield
  obtain ⟨f, hf, rfl⟩ := List.mem_map.mp hfield
  have hmem := (List.filter_append_perm (isWorking g) (g.program p).fields.toList).mem_iff.mp hf
  have hvalue := h.initial f hmem
  show (Declaration.fieldSyntax g f).initial.usage = settle (g.field f).usage
  rw [← hconsistent.field_type f]
  exact usage_initialValue hvalue

end Describes

/-! ### Calls -/

section file

variable {programs : List Program} {m : ModuleShape} {run : Run} {chunk : ChunkId}

namespace CheckedFile

variable (h : CheckedFile programs m run chunk)

include h

/-- The number of a program in the scope and its syntax. -/
theorem exists_symbol {i : Nat} {program : Program} (hi : programs[i]? = some program) :
    ∃ q, (run.globals.chunk chunk).programs.toList[i]? = some q ∧ Describes run.globals q program ∧
      (run.globals.program q).name = program.name := by
  obtain ⟨hlt, rfl⟩ := List.getElem?_eq_some_iff.mp hi
  have hlt' : i < (run.globals.chunk chunk).programs.toList.length := by
    rw [h.numbers.length_eq]
    exact hlt
  exact ⟨_, List.getElem?_eq_getElem hlt', h.numbers.get hlt' hlt⟩

/-- The signature under which a call knows its callee is that of the program which the name stands
for. -/
theorem calleeSignatureIn_eq {callee : Callee} {q : ProgramId}
    (hnames : Names run.globals chunk callee q) :
    calleeSignatureIn run.globals programs callee = some (run.globals.signatureOf q) := by
  cases hnames with
  | own hmem hname =>
    obtain ⟨program, hprogram, hdescribes, hsame⟩ := exists_of_forall₂_left h.numbers hmem
    obtain ⟨i, hi, rfl⟩ := List.getElem_of_mem hprogram
    have hindex : (programs.map (·.name)).idxOf programs[i].name = i := by
      have hat := h.distinct.idxOf_getElem i (by simpa using hi)
      rwa [List.getElem_map] at hat
    show (programs[(programs.map (·.name)).idxOf _]?.map fun program => program.heading.signature) =
      _
    rw [← hname, hsame, hindex, List.getElem?_eq_getElem hi, ← hdescribes.signature_heading]
    rfl
  | @exported owner program module q howner hprogram =>
    show (run.globals.exported? owner program).map run.globals.signatureOf = _
    rw [Globals.exported?_of_entries howner hprogram]
    rfl

/-- Signatures say what interfaces say, and the usages of results. -/
theorem interfaceIn_of_signature {callee : Callee} {signature : Signature}
    (hsignature : calleeSignatureIn run.globals programs callee = some signature) :
    interfaceIn run.globals programs callee = ⟨signature.usings, signature.results.length⟩ := by
  have hinterface : ∀ q, run.globals.interfaceOf q =
      ⟨(run.globals.signatureOf q).usings, (run.globals.signatureOf q).results.length⟩ := by
    intro q
    show _ = Interface.mk _ (List.length (List.map _ _))
    rw [List.length_map, Array.length_toList]
    rfl
  obtain ⟨module?, name⟩ := callee
  cases module? with
  | none =>
    obtain ⟨program, hprogram, rfl⟩ := Option.map_eq_some_iff.mp hsignature
    obtain ⟨q, hq, hdescribes, hname⟩ := h.exists_symbol hprogram
    have hnamed : program.name = name := by
      have hlt : (programs.map (·.name)).idxOf name < (programs.map (·.name)).length := by
        simpa using (List.getElem?_eq_some_iff.mp hprogram).1
      have hat := List.getElem_idxOf hlt
      rw [List.getElem_map] at hat
      rw [← hat, (List.getElem?_eq_some_iff.mp hprogram).2]
    have hnames : Names run.globals chunk ⟨none, name⟩ q :=
      .own (List.mem_of_getElem? hq) (hname.trans hnamed)
    rw [h.interfaceIn_eq hnames, hinterface, hdescribes.signature_heading]
  | some owner =>
    obtain ⟨q, hq, rfl⟩ := Option.map_eq_some_iff.mp hsignature
    rw [interfaceIn, show run.globals.exported? owner name = some q from hq]
    exact hinterface q

end CheckedFile

variable (h : CheckedFile programs m run chunk) {shape : ProgramShape} {p : ProgramId}
  {program : Program} (hprogram : ProgramAt (envOf run) chunk shape p program)

include h hprogram

omit h in
theorem usageOf_hasField {name : String} {f : FieldId} (hf : run.globals.HasField p name f) :
    program.usageOf name = (run.globals.field f).usage := by
  obtain ⟨hmem, rfl⟩ := hf
  exact hprogram.describes.usageOf_eq hmem

omit h hprogram in
/-- The arguments of a call that is right are typed, if arguments that fit are. -/
theorem typed_callArguments {c : Node} {q : ProgramId} (hcall : CallAt (envOf run) chunk p c q)
    (harguments : ∀ a ∈ c.arguments, ∀ param, Fits run.globals chunk p (Argument.ofNode a) param →
      (Argument.ofNode a).Typed program (calleeSignatureIn run.globals programs) param) :
    ∀ pair ∈ (c.arguments.map Argument.ofNode).zip (run.globals.signatureOf q).usings,
      pair.1.Typed program (calleeSignatureIn run.globals programs) pair.2 := by
  intro pair hpair
  rw [Globals.signatureOf, List.zip_map] at hpair
  obtain ⟨⟨a, f⟩, hmem, rfl⟩ := List.mem_map.mp hpair
  apply harguments a (List.of_mem_zip hmem).1
  have hsite : (Argument.ofNode a, f) ∈
      (Call.ofNode c).arguments.zip (run.globals.program q).usings.toList := by
    rw [Call.ofNode, List.zip_map_left]
    exact List.mem_map.mpr ⟨(a, f), hmem, rfl⟩
  exact hcall.wellFormed.fits _ hsite

/-- An argument that fits is typed, if all calls in it are right. -/
theorem typed_argument {a : Node} (ha : IsArgument a)
    (hready : ∀ n ∈ a.nodes, CallSite.Ready (envOf run).globals chunk p (envOf run).bindings n)
    {param : Usage} (hfits : Fits run.globals chunk p (Argument.ofNode a) param) :
    (Argument.ofNode a).Typed program (calleeSignatureIn run.globals programs) param := by
  -- what fits says nothing about the arguments of a nested call: these come from the check of that
  -- call itself
  induction ha generalizing param with
  | field id location name byContent =>
    cases hfits with
    | field hf hparam =>
      apply Argument.Typed.field
      rw [usageOf_hasField hprogram hf]
      exact Usage.accepts_iff.mpr hparam
  | number id location text =>
    cases hfits with
    | number hparam =>
      apply Argument.Typed.number
      rintro rfl
      simp at hparam
  | string id location text =>
    cases hfits with
    | string hparam =>
      apply Argument.Typed.string
      rcases List.mem_pair.mp hparam with rfl | rfl <;> rfl
  | @call id location callee usings arguments hcallee husings harguments ih =>
    have hisCall := (IsArgument.call id location hcallee husings harguments).isCall rfl
    obtain ⟨q, hcall⟩ := exists_callAt hisCall hready
    have harguments_eq : (⟨id, .callExpression, location, callee :: usings⟩ : Node).arguments =
        arguments := by
      have heq := arguments_call id .callExpression location hcallee husings
        (.absent : Under .callReturnings [] [])
      rwa [List.append_nil] at heq
    have htyped := typed_callArguments hcall fun a ha param => by
      have hmem := Node.argument_mem_nodes ha
      rw [harguments_eq] at ha
      exact ih a ha fun n hn => hready n (Node.nodes_trans hmem hn)
    rw [Argument.ofNode_callExpression rfl] at hfits ⊢
    cases hfits with
    | @call _ _ q' first _ hnames hfirst hparam =>
      -- the name stands for one program, so both programs have the signature of the call
      have hsame :=
        (h.calleeSignatureIn_eq hnames).symm.trans (h.calleeSignatureIn_eq hcall.wellFormed.callee)
      rw [Option.some.injEq] at hsame
      have hresult : (run.globals.signatureOf q).results.head? =
          some (run.globals.field first).usage := by
        rw [← hsame, Globals.signatureOf, List.head?_map, List.head?_eq_getElem?,
          Array.getElem?_toList, hfirst]
        rfl
      exact .call (h.calleeSignatureIn_eq hcall.wellFormed.callee) hresult
        (Usage.accepts_iff.mpr hparam) htyped

omit h in
/-- Results that fit and are confined can be stored. -/
theorem stores_of_accepts {c : Node} {q : ProgramId} (hcall : CallAt (envOf run) chunk p c q)
    (hconfined : ∀ pair ∈ (Call.ofNode c).returnings.zip (run.globals.signatureOf q).results,
      program.confinesAny pair.1 pair.2 = true) :
    ∀ pair ∈ (Call.ofNode c).returnings.zip (run.globals.signatureOf q).results,
      program.Stores pair.1 pair.2 := by
  intro pair hpair
  have hconfined' := hconfined pair hpair
  rw [Globals.signatureOf, List.zip_map_right] at hpair
  obtain ⟨⟨name, result⟩, hmem, rfl⟩ := List.mem_map.mp hpair
  have hname : name ∈ (Call.ofNode c).names := List.mem_append_right _ (List.of_mem_zip hmem).1
  obtain ⟨f, hf⟩ := hcall.wellFormed.fields name hname
  have haccepts : (run.globals.field result).usage = .any ∨
      (run.globals.field result).usage = (run.globals.field f).usage :=
    hcall.wellFormed.accepts _ hmem f hf
  show program.Stores name (run.globals.field result).usage
  unfold Program.Stores
  by_cases hany : (run.globals.field result).usage = .any
  · rw [if_pos hany]
    simpa [Program.confinesAny, hany] using hconfined'
  · rw [if_neg hany, usageOf_hasField hprogram hf]
    exact (haccepts.resolve_left hany).symm

/-- A statement in which all calls are right and results are confined is typed. -/
theorem typed_statement {s : Node} (hs : IsStatement s) (hdisplay : s.tag ≠ .displayStatement)
    (hready : ∀ n ∈ s.nodes, CallSite.Ready (envOf run).globals chunk p (envOf run).bindings n)
    (hconfined : (Statement.ofNode s).confined program (calleeSignatureIn run.globals programs) =
      true) :
    (Statement.ofNode s).Typed program (calleeSignatureIn run.globals programs) := by
  cases hs with
  | display => exact absurd rfl hdisplay
  | goback => exact .goback
  | call id location hcallee husings harguments hreturnings htargets =>
    have hisCall :=
      (IsStatement.call id location hcallee husings harguments hreturnings htargets).isCall rfl
    obtain ⟨q, hcall⟩ := exists_callAt hisCall hready
    have hsignature := h.calleeSignatureIn_eq hcall.wellFormed.callee
    refine .call hsignature (typed_callArguments hcall ?_) (stores_of_accepts hprogram hcall ?_)
    · intro a ha param
      exact typed_argument h hprogram (hisCall.areArguments a ha) fun n hn =>
        hready n (Node.nodes_trans (Node.argument_mem_nodes ha) hn)
    · intro pair hpair
      have hall : ((calleeSignatureIn run.globals programs (Callee.ofNode _)).all fun signature =>
          (List.zip _ signature.results).all fun pair => program.confinesAny pair.1 pair.2) =
            true := hconfined
      rw [show calleeSignatureIn run.globals programs (Callee.ofNode _) = _ from hsignature] at hall
      exact List.all_eq_true.mp hall pair hpair

end file

/-- Lowering brings no results with it. -/
theorem confined_lowered {program : Program} {signature? : Callee → Option Signature}
    (h : program.confined signature? = true) :
    ∀ statement ∈ program.statements.flatMap Statement.lowered,
      statement.confined program signature? = true := by
  intro statement hstatement
  obtain ⟨source, hsource, hlowered⟩ := List.mem_flatMap.mp hstatement
  have hconfined := List.all_eq_true.mp h source hsource
  cases source with
  | display operands =>
    obtain ⟨operand, -, rfl⟩ := List.mem_map.mp hlowered
    show ((signature? .display).all fun signature => ([] : List (String × Usage)).all _) = true
    cases signature? .display <;> rfl
  | call | goback =>
    obtain rfl := List.mem_singleton.mp hlowered
    exact hconfined

/-- The programs of a checked file are typed. -/
theorem CheckedFile.typed {programs : List Program} {m : ModuleShape} {run : Run} {chunk : ChunkId}
    (h : CheckedFile programs m run chunk) {program : Program} (hmem : program ∈ programs)
    (hconfined : program.confined (calleeSignatureIn run.globals programs) = true) :
    program.Typed (calleeSignatureIn run.globals programs) := by
  obtain ⟨shape, -, p, hprogram⟩ := exists_of_forall₂_right h.shapes hmem
  refine ⟨hprogram.describes.usage_initial h.consistent, ?_⟩
  intro statement hstatement
  have hlowered := confined_lowered hconfined statement hstatement
  rw [← hprogram.statements_eq] at hstatement
  obtain ⟨s, hs, rfl⟩ := List.mem_map.mp hstatement
  apply typed_statement h hprogram (shape.areStatements s hs) (hprogram.noDisplay s hs) _ hlowered
  exact fun n hn => hprogram.ready n (List.mem_flatMap.mpr ⟨s, hs, hn⟩)

/-- What is generated from a file has the headings of its programs. -/
theorem Generated.prototypesTyped {policy : FractionPolicy} {before : ModuleShape}
    {globals : Globals} {product : Module} (h : Generated policy before globals product)
    (hconfined : ∀ program ∈ programsOf policy before,
      program.confined (calleeSignatureIn globals (programsOf policy before)) = true) :
    List.Forall₂ (fun program prototype =>
      PrototypeTyped product (signatureIn globals (programsOf policy before)) program.heading
        prototype)
      (programsOf policy before) product.prototypes.toList := by
  have hcompiled := h.compiled
  obtain ⟨m, run, chunk, g, hfile, rfl, -, -, -⟩ := h
  have hprototypes :=
    (List.forall₂_and_left _ _).mpr ⟨fun program hmem => hmem, hcompiled.prototypes⟩
  apply hprototypes.imp
  intro program prototype hprototype
  obtain ⟨hmem, hprogram⟩ := hprototype
  have htyped := hfile.typed hmem (hconfined program hmem)
  constructor
  · have hworking : program.heading.working = program.working.map (·.usage) := by
      show (program.working.map (·.name)).map program.usageOf = _
      rw [List.map_map]
      apply List.map_congr_left
      intro field hfield
      exact program.usageOf_of_mem hprogram.wellNamed (List.mem_append_left _ hfield)
    rw [hprogram.fields_eq, hworking, List.map_map, List.map_map]
    apply List.map_congr_left
    intro field hfield
    exact htyped.initial field (List.mem_append_left _ hfield)
  · intro usages htakes
    exact typedCode_program hprogram.wellNamed htyped hcompiled.distinct
      (fun callee signature hsignature => hfile.interfaceIn_of_signature hsignature)
      hprogram.code htakes

end Generation

end CobolCompiler
