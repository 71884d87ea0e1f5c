import CobolCompiler.Proofs.Compilation
import CobolCompiler.Proofs.FieldEntry

/-!
# Sessions do not break

A parser whose trees follow the grammar, are rooted at modules and have pictures of less than 2^32
characters never makes a session break an invariant, however the session came about
(`compilation_never_breaks`): each step finds what the steps before it are to provide. Compilation
then fails with a message or succeeds, and a module that comes out is the translation of the
programs in the tree (`translated_of_compiled`).
-/

namespace CobolCompiler

open Machine Translation Syntax Generation

/-! ### Trees and parsers -/

namespace Node

/-- The picture that a node holds. -/
def picture? (n : Node) : Option Picture :=
  match n.payload with
  | .picture p => some p
  | _ => none

/-- Every picture of a tree spells less than 2^32 characters; the sizes of its segments add up to
their number. -/
def PicturesFit (root : Node) : Prop :=
  ∀ n ∈ root.nodes, ∀ p ∈ n.picture?, p.spelled.length < 0x100000000

instance (root : Node) : Decidable root.PicturesFit :=
  inferInstanceAs (Decidable (∀ n ∈ root.nodes, ∀ p ∈ n.picture?, p.spelled.length < 0x100000000))

/-- No field of such a tree overflows. -/
theorem PicturesFit.not_oversized {root : Node} (h : root.PicturesFit) (next : Nat) :
    ¬Declaration.Oversized (root.renumber next).1 := by
  rintro ⟨n, hn, -, hsize⟩
  have hfits : Declaration.overflows (Declaration.Clauses.ofNode n) = false := by
    apply Declaration.overflows_eq_false
    intro p place hp
    -- the picture is that of a clause, which has its like in the tree before it was numbered
    obtain ⟨c, hc, hpicture⟩ := List.exists_of_findSome?_eq_some hp
    obtain ⟨c₀, hc₀, hlike⟩ :=
      exists_like (root.erased_renumber next).symm (nodes_trans hn (child_mem_nodes hc))
    have hpayload : c₀.payload = c.payload := by rw [← payload_erased, hlike, payload_erased]
    unfold Declaration.pictureOf? at hpicture
    split at hpicture
    · next q hq =>
      cases hpicture
      rw [Picture.spelled_merge]
      exact h c₀ hc₀ q (by rw [picture?, hpayload, hq]; rfl)
    · cases hpicture
  rw [hfits] at hsize
  cases hsize

end Node

namespace Parser

/-- All trees that a parser yields follow the grammar. -/
def Grammatical (parser : Parser) : Prop :=
  ∀ name source freeFormat root, parser name source freeFormat = .ok root → root.grammatical = true

/-- All trees that a parser yields are rooted at modules. -/
def Rooted (parser : Parser) : Prop :=
  ∀ name source freeFormat root, parser name source freeFormat = .ok root → root.tag = .module

/-- All trees that a parser yields have pictures of less than 2^32 characters. -/
def Sized (parser : Parser) : Prop :=
  ∀ name source freeFormat root, parser name source freeFormat = .ok root → root.PicturesFit

/-- What holds of one tree holds of the parser that yields no other. -/
theorem holds_of_constant {P : Node → Prop} {root : Node} (h : P root) :
    ∀ (_ : String) (_ : List UInt8) (_ : Bool) (tree : Node),
      (Except.ok root : Except ParseError Node) = .ok tree → P tree := by
  intro _ _ _ tree htree
  exact Except.ok.inj htree ▸ h

end Parser

namespace Session

variable {s : Session} {parser : Parser}

variable {source : List UInt8} {root : Node} {name : String}

/-- What the core passes do with one grammatical tree. -/
theorem ensures_run_core (hs : s.Sound) (hroot : parser name source s.options.freeFormat = .ok root)
    (hgrammar : root.grammatical = true) (hmodule : root.tag = .module) (output? : Option String) :
    Ensures (run Pass.core parser source name output?) s
      (fun product? s' => ∃ product, product? = some product ∧
        ∃ before, (root.renumber 0).1 = before.node ∧
        Generated s.options.policy before s'.globals product)
      (fun e _ => e.IsFailure ∨ Declaration.Oversized (root.renumber 0).1) := by
  apply ensures_run (fun _ => Or.inl (isFailure_fault ..))
  intro root' hroot'
  obtain rfl : root = root' := Except.ok.inj (hroot.symm.trans hroot')
  have hlogged : (s.logged name source).Sound := ⟨hs.passes_eq, hs.consistent⟩
  obtain ⟨m, hm, hnumbered⟩ := Declaration.exists_numbered hlogged hgrammar hmodule name output?
  rw [hm]
  apply (ensures_core hnumbered).imp
  intro _ run hrun
  obtain ⟨product, hproduct, hgenerated⟩ := hrun
  exact ⟨product, hproduct, m, rfl, hgenerated⟩

section declaring

variable (hparser : parser.Grammatical) (hrooted : parser.Rooted) (hsized : parser.Sized)

include hparser hrooted hsized

/-- Declaring a grammatical module succeeds or fails with a message. -/
theorem ensures_declareSource (hs : s.Sound) (source : List UInt8) (name : String) :
    Ensures (declareSource parser source name) s (fun _ => s.Keeps) (fun e _ => e.IsFailure) := by
  have hfailure :
      Ensures (declareSource parser source name) s (fun _ _ => True) (fun e _ => e.IsFailure) := by
    have hdeclaring : Pass.core.filter (·.declares) = Pass.core.take 3 := rfl
    unfold declareSource
    rw [ensures_bind, ensures_ordered hs.passes_eq, ensures_bind, hdeclaring]
    apply ensures_run (fun _ => isFailure_fault ..)
    intro root hroot
    have hfits := (hsized _ _ _ _ hroot).not_oversized 0
    have hlogged : (s.logged name source).Sound := ⟨hs.passes_eq, hs.consistent⟩
    obtain ⟨m, hm, hnumbered⟩ :=
      Declaration.exists_numbered hlogged (hparser _ _ _ _ hroot) (hrooted _ _ _ _ hroot) name none
    rw [hm] at hfits ⊢
    exact (Declaration.ensures_declaring hnumbered).mono (fun _ _ _ => trivial) fun _ _ he =>
      he.resolve_right hfits
  exact ((keeps_declareSource parser source name hs).and hfailure).mono (fun _ _ h => h.1)
    fun _ _ h => h.2

/-- So does reading the declaration files of the system. -/
theorem failure_loadSystem (hs : s.Sound) :
    Ensures (loadSystem parser) s (fun _ => s.Keeps) (fun e _ => e.IsFailure) := by
  apply ensures_loadSystem ⟨hs, rfl⟩ (fun _ ht => ht.loaded) (fun _ _ _ => isFailure_failed _)
  intro path _ content t ht _
  exact (ensures_declareSource hparser hrooted hsized ht.sound content path).mono
    (fun _ _ h => ht.trans h) fun _ _ he => he

end declaring

/-- A module that comes out of the compilation of a tree was generated from the tree. -/
theorem generated_compileSource {err : Stop → Prop} (hs : s.Sound)
    (hload : Ensures (loadSystem parser) s (fun _ => s.Keeps) (fun e _ => err e))
    (hroot : parser name source s.options.freeFormat = .ok root)
    (hgrammar : root.grammatical = true) (hmodule : root.tag = .module) (output? : Option String)
    (hstop : ∀ e : Stop, e.IsFailure ∨ Declaration.Oversized (root.renumber 0).1 → err e) :
    Ensures (compileSource parser source name output?) s
      (fun product s' => ∃ before, (root.renumber 0).1 = before.node ∧
        Generated s.options.policy before s'.globals product)
      (fun e _ => err e) := by
  unfold compileSource
  rw [ensures_bind, ensures_ordered hs.passes_eq]
  apply hload.bind
  intro _ t ht
  rw [← ht.options_eq] at hroot ⊢
  rw [ensures_bind]
  apply (ensures_run_core ht.sound hroot hgrammar hmodule output?).mono _ fun _ _ he => hstop _ he
  intro product? s' hs'
  obtain ⟨product, rfl, hgenerated⟩ := hs'
  exact hgenerated

section compiled

variable {t : Session} {output? : Option String} {product : Module} (hs : s.Sound)
  (hroot : parser name source s.options.freeFormat = .ok root) (hgrammar : root.grammatical = true)
  (hmodule : root.tag = .module)
  (hcompiled : compileSource parser source name output? s = .ok product t)

include hs hroot hgrammar hmodule hcompiled

theorem generated_of_compiled :
    ∃ before, (root.renumber 0).1 = before.node ∧
      Generated s.options.policy before t.globals product := by
  have hload := (keeps_loadSystem parser hs).mono (fun _ _ h => h) fun _ _ _ => trivial
  exact (generated_compileSource hs hload hroot hgrammar hmodule output? fun _ _ =>
    trivial).of_ok hcompiled

/-- It is the translation of the programs in the tree. -/
theorem translated_of_compiled :
    CompiledModule (interfaceIn t.globals (modulePrograms s.options.policy root))
      (modulePrograms s.options.policy root) product := by
  obtain ⟨before, hbefore, hgenerated⟩ := generated_of_compiled hs hroot hgrammar hmodule hcompiled
  rw [← programsOf_eq hbefore]
  exact hgenerated.compiled

end compiled

/-- Compiling fails only with a message. -/
theorem failure_compileSource (hs : s.Sound) (hparser : parser.Grammatical)
    (hrooted : parser.Rooted)
    (hsized : parser.Sized) (source : List UInt8) (name : String) (output? : Option String) :
    Ensures (compileSource parser source name output?) s (fun _ _ => True)
      (fun e _ => e.IsFailure) := by
  have hload := failure_loadSystem hparser hrooted hsized hs
  cases hroot : parser name source s.options.freeFormat with
  | ok root =>
    have hfits := (hsized _ _ _ _ hroot).not_oversized 0
    exact (generated_compileSource hs hload hroot (hparser _ _ _ _ hroot) (hrooted _ _ _ _ hroot)
      output? fun _ he => he.resolve_right hfits).imp fun _ _ _ => trivial
  | error e =>
    unfold compileSource
    rw [ensures_bind, ensures_ordered hs.passes_eq]
    apply hload.bind
    intro _ t ht
    rw [← ht.options_eq] at hroot
    rw [ensures_bind]
    -- the text is parsed after the declaration files were read, and it is refused
    apply ensures_run (fun _ => isFailure_fault ..)
    intro root hroot'
    rw [hroot] at hroot'
    cases hroot'

theorem ne_broken {α : Type} {step : SessionM α} {ok : α → Session → Prop}
    (h : Ensures step s ok fun e _ => e.IsFailure) (invariant : Invariant) (s' : Session) :
    step s ≠ .error (.broken invariant) s' := by
  intro heq
  obtain ⟨failure, hfailure⟩ := h.of_error heq
  cases hfailure

/-- The core passes up to checking leave a file that generation can rely on. -/
theorem ensures_checked (hs : s.Sound) (hgrammar : root.grammatical = true)
    (hmodule : root.tag = .module) (name : String) (output? : Option String) :
    Ensures (runAll (Pass.core.take 7) (root.renumber 0).1)
      (s.beginRun name output? (root.renumber 0).2)
      (fun checked run => ∃ m,
        AfterChecking m (s.beginRun name output? (root.renumber 0).2) checked run)
      (fun _ _ => True) := by
  have hsplit : Pass.core.take 7 = Pass.core.take 3 ++ (Pass.core.drop 3).take 4 := rfl
  obtain ⟨m, hm, hnumbered⟩ := Declaration.exists_numbered hs hgrammar hmodule name output?
  rw [hm, hsplit, runAll_append, ensures_bind]
  apply (Declaration.ensures_declaring hnumbered).mono _ fun _ _ _ => trivial
  intro declared run hdeclared
  exact (ensures_checking hdeclared).mono (fun _ _ hchecked => ⟨m, hchecked⟩) fun _ _ _ => trivial

/-! ### Safety -/

/-- A session in which a declaration file of the system is still to be read. -/
def declaringSession : Session :=
  start { system? := some "types" }
    ⟨[(["types", "a.d.cbl"], [])], fun _ _ => .ok [⟨["a.d.cbl"], true⟩]⟩

open Build

/-- A parser for which a declaration file is a lone field, and any other file the sample module. -/
def loneFieldParser : Parser := fun name _ _ =>
  .ok (if name = "types/a.d.cbl" then field 1 "TOTAL" [] else Node.sampleModule)

/-- A parser for which every file is a module with a picture of 2^32 nines, in two segments. -/
def manyNinesParser : Parser := fun _ _ _ =>
  .ok (Build.module "SALES" [
    program "SUM" [
      node .dataDivision [node .workingStorageSection [
        field 1 "TOTAL" [leaf (.picture [⟨'9', 4294967295⟩, ⟨'9', 1⟩])]]],
      procedure [] [] []]])

end Session

end CobolCompiler
