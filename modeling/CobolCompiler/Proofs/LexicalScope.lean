import CobolCompiler.Proofs.Scope
import Mathlib.Logic.Relation

/-!
# Lexical scope

What a name stands for in a scope depends on this scope and on those around it, and on nothing else.
So a change to the global scope is felt in the scopes that it writes to and inside these, and only
for the name that it defines (`resolution_lexically_isolated`). This holds of every global scope
that was built up by adding modules, chunks, programs and fields and by defining names, in any order
and with names that may be taken already.

`Defines` says what a change may do to the scopes that are there: they stay, each inside the same
scope as before, and only one name may get a new meaning, in certain scopes. Each change is made up
of small ones, and `Defines` is shown of these.
-/

namespace CobolCompiler

/-- What differs after a change that is made on a condition differs because of the change. -/
theorem and_ne_of_ite_ne {α β : Type} {c : Prop} [Decidable c] (f : α → β) {x y : α}
    (h : f (if c then x else y) ≠ f y) : c ∧ f x ≠ f y := by
  by_cases hc : c
  · rw [if_pos hc] at h
    exact ⟨hc, h⟩
  · rw [if_neg hc] at h
    exact absurd rfl h

/-- Defining a name changes what this name stands for, and no other. -/
theorem Table.eq_of_get?_define_ne {t : Table} {name other : String} {symbol : Symbol}
    (h : (t.define name symbol).get? other ≠ t.get? other) : name = other := by
  by_cases hname : name = other
  · exact hname
  · rw [Table.get?_define, if_neg hname] at h
    exact absurd rfl h

namespace ProgramScope

theorem eq_of_member?_define_ne {p : ProgramScope} {name other : String} {symbol : Symbol}
    (h : (p.define name symbol).member? other ≠ p.member? other) : name = other := by
  by_cases hname : name = other
  · exact hname
  · have htable : ∀ t : Table, (t.define name symbol).get? other = t.get? other := by
      intro t
      rw [Table.get?_define, if_neg hname]
    refine absurd ?_ h
    unfold define member?
    split <;> simp only [htable]

theorem owner_define (p : ProgramScope) (name : String) (symbol : Symbol) :
    (p.define name symbol).owner = p.owner := by
  unfold define
  split <;> rfl

end ProgramScope

namespace Globals

/-! ### Scopes inside scopes -/

/-- A scope exists. -/
def HasScope (g : Globals) : ScopeId → Prop
  | .global => True
  | .module m => m.index < g.modules.size
  | .chunk c => c.index < g.chunks.size
  | .program p => p.index < g.programs.size

instance (g : Globals) : (s : ScopeId) → Decidable (g.HasScope s)
  | .global => isTrue trivial
  | .module m => inferInstanceAs (Decidable (m.index < g.modules.size))
  | .chunk c => inferInstanceAs (Decidable (c.index < g.chunks.size))
  | .program p => inferInstanceAs (Decidable (p.index < g.programs.size))

/-- A scope is another one or lies inside it. -/
def Within (g : Globals) (inner outer : ScopeId) : Prop :=
  Relation.ReflTransGen (fun s t => g.enclosing? s = some t) inner outer

/-- The scope around a scope exists. -/
def Rooted (g : Globals) : Prop :=
  ∀ s t, g.HasScope s → g.enclosing? s = some t → g.HasScope t

/-- From a scope outwards there is an end: programs lie in chunks, chunks in modules, and modules in
the global scope. -/
theorem outwardInduction {P : ScopeId → Prop} (g : Globals)
    (outward : ∀ s, (∀ t, g.enclosing? s = some t → P t) → P s) (s : ScopeId) : P s := by
  -- from the outside in, so that the scope around each one is done before it
  have hglobal : P .global := by
    apply outward
    intro t ht
    cases ht
  have hmodule : ∀ m, P (.module m) := by
    intro m
    apply outward
    intro t ht
    obtain rfl := Option.some.inj ht
    exact hglobal
  have hchunk : ∀ c, P (.chunk c) := by
    intro c
    apply outward
    intro t ht
    obtain rfl := Option.some.inj ht
    exact hmodule _
  cases s with
  | global => exact hglobal
  | module m => exact hmodule m
  | chunk c => exact hchunk c
  | program p =>
    apply outward
    intro t ht
    obtain rfl := Option.some.inj ht
    exact hchunk _

/-- A name that a scope does not know is looked up in the scope around it. -/
theorem resolve?_eq (g : Globals) (s : ScopeId) (name : String) :
    g.resolve? s name = (g.member? s name).or ((g.enclosing? s).bind (g.resolve? · name)) := by
  rw [resolve?, chain_eq, List.findSome?_cons]
  cases g.member? s name with
  | some symbol => rfl
  | none =>
    cases g.enclosing? s with
    | none => rfl
    | some t => rfl

theorem resolve?_program (g : Globals) (p : ProgramId) (name : String) :
    g.resolve? (.program p) name =
      ((g.program p).working.get? name).or (((g.program p).linkage.get? name).or
        (((g.chunk (g.program p).owner).table.get? name).or
          (((g.module (g.chunk (g.program p).owner).owner).table.get? name).or
            (g.table.get? name)))) := by
  have hglobal : g.resolve? .global name = g.table.get? name := by
    rw [resolve?_eq]
    exact Option.or_none
  have hmodule :
      ∀ m, g.resolve? (.module m) name = ((g.module m).table.get? name).or (g.table.get? name) := by
    intro m
    rw [resolve?_eq, ← hglobal]
    rfl
  have hchunk : ∀ c, g.resolve? (.chunk c) name = ((g.chunk c).table.get? name).or
      (((g.module (g.chunk c).owner).table.get? name).or (g.table.get? name)) := by
    intro c
    rw [resolve?_eq, ← hmodule]
    rfl
  -- The two sections of a program are looked through one after the other.
  have hmember : g.member? (.program p) name =
      ((g.program p).working.get? name).or ((g.program p).linkage.get? name) := by
    show ((g.program p).working.get? name <|> (g.program p).linkage.get? name) = _
    rw [Option.orElse_eq_orElse, Option.orElse_eq_or]
  rw [resolve?_eq, hmember, Option.or_assoc, ← hchunk]
  rfl

/-! ### What a change may do -/

/-- A change defines at most one name, and this in some scopes only. What was there stays in its
place, and what is new is put into a place that exists. A change has to account for what it writes
to; the rest is as before. -/
structure Defines (g g' : Globals) (name : String) (homes : List ScopeId) : Prop where
  modules_le : g.modules.size ≤ g'.modules.size := by exact Nat.le_refl _
  chunks_le : g.chunks.size ≤ g'.chunks.size := by exact Nat.le_refl _
  programs_le : g.programs.size ≤ g'.programs.size := by exact Nat.le_refl _
  chunk_owner : ∀ c, c.index < g.chunks.size → (g'.chunk c).owner = (g.chunk c).owner := by
    exact fun _ _ => rfl
  program_owner : ∀ p, p.index < g.programs.size → (g'.program p).owner = (g.program p).owner := by
    exact fun _ _ => rfl
  new_chunk : ∀ c, c.index < g'.chunks.size → ¬c.index < g.chunks.size →
      (g'.chunk c).owner.index < g'.modules.size := by
    exact fun _ hlt hnew => absurd hlt hnew
  new_program : ∀ p, p.index < g'.programs.size → ¬p.index < g.programs.size →
      (g'.program p).owner.index < g'.chunks.size := by
    exact fun _ hlt hnew => absurd hlt hnew
  global_changed : ∀ other, g'.table.get? other ≠ g.table.get? other → name = other ∧
    .global ∈ homes := by
    exact fun _ hne => absurd rfl hne
  module_changed : ∀ m other, m.index < g.modules.size →
    (g'.module m).table.get? other ≠ (g.module m).table.get? other →
    name = other ∧ .module m ∈ homes := by
    exact fun _ _ _ hne => absurd rfl hne
  chunk_changed : ∀ c other, c.index < g.chunks.size →
    (g'.chunk c).table.get? other ≠ (g.chunk c).table.get? other →
    name = other ∧ .chunk c ∈ homes := by
    exact fun _ _ _ hne => absurd rfl hne
  program_changed : ∀ p other, p.index < g.programs.size →
    (g'.program p).member? other ≠ (g.program p).member? other →
    name = other ∧ .program p ∈ homes := by
    exact fun _ _ _ hne => absurd rfl hne

namespace Defines

variable {g g' : Globals} {name : String} {homes : List ScopeId} (h : Defines g g' name homes)
include h

variable {s : ScopeId}

theorem kept (hs : g.HasScope s) : g'.HasScope s := by
  cases s with
  | global => trivial
  | module m => exact Nat.lt_of_lt_of_le hs h.modules_le
  | chunk c => exact Nat.lt_of_lt_of_le hs h.chunks_le
  | program p => exact Nat.lt_of_lt_of_le hs h.programs_le

theorem enclosing_eq (hs : g.HasScope s) : g'.enclosing? s = g.enclosing? s := by
  cases s with
  | global => rfl
  | module m => rfl
  | chunk c => rw [enclosing?, enclosing?, h.chunk_owner c hs]
  | program p => rw [enclosing?, enclosing?, h.program_owner p hs]

theorem changed {other : String} (hs : g.HasScope s)
    (hne : g'.member? s other ≠ g.member? s other) :
    name = other ∧ s ∈ homes := by
  cases s with
  | global => exact h.global_changed other hne
  | module m => exact h.module_changed m other hs hne
  | chunk c => exact h.chunk_changed c other hs hne
  | program p => exact h.program_changed p other hs hne

/-- One change keeps the scopes inside each other. -/
theorem rooted (hg : g.Rooted) : g'.Rooted := by
  intro s t hs ht
  by_cases hold : g.HasScope s
  · rw [h.enclosing_eq hold] at ht
    exact h.kept (hg s t hold ht)
  · cases s with
    | global => cases ht
    | module m =>
      obtain rfl := Option.some.inj ht
      trivial
    | chunk c =>
      obtain rfl := Option.some.inj ht
      exact h.new_chunk c hs hold
    | program p =>
      obtain rfl := Option.some.inj ht
      exact h.new_program p hs hold

/-- What a name stands for changes only for the name that was defined, and only in the scopes where
it was defined and inside these. -/
theorem of_resolve?_ne (hg : g.Rooted) {other : String} (hs : g.HasScope s)
    (hne : g'.resolve? s other ≠ g.resolve? s other) :
    name = other ∧ ∃ home ∈ homes, g.Within s home := by
  induction s using g.outwardInduction with
  | outward s ih =>
    by_cases hmember : g'.member? s other = g.member? s other
    · -- The scope itself is as before, so the difference comes from further out.
      rw [resolve?_eq, resolve?_eq g, hmember, h.enclosing_eq hs] at hne
      cases hout : g.enclosing? s with
      | none =>
        rw [hout] at hne
        exact absurd rfl hne
      | some t =>
        have hdiffers : g'.resolve? t other ≠ g.resolve? t other := by
          intro heq
          apply hne
          rw [hout, Option.bind_some, Option.bind_some, heq]
        obtain ⟨hname, home, hhome, hwithin⟩ := ih t hout (hg s t hs hout) hdiffers
        exact ⟨hname, home, hhome, .head hout hwithin⟩
    · obtain ⟨hname, hhome⟩ := h.changed hs hmember
      exact ⟨hname, s, hhome, .refl⟩

end Defines

/-! ### The changes -/

/-- A change to the global scope. -/
inductive Change
  | addModule (name : String)
  | addChunk (owner : ModuleId) (name : String)
  | addProgram (program : ProgramScope)
  | addField (owner : ProgramId) (field : Field)
  | define (scope : ScopeId) (name : String) (symbol : Symbol)

namespace Change

/-- The global scope after a change. -/
def apply (g : Globals) : Change → Globals
  | addModule name => (g.addModule name).2
  | addChunk owner name => (g.addChunk owner name).2
  | addProgram program => (g.addProgram program).2
  | addField owner field => (g.addField owner field).2
  | define scope name symbol => g.defineIn scope name symbol

/-- What a change writes to exists. -/
def Valid (g : Globals) : Change → Prop
  | addModule _ => True
  | addChunk owner _ => g.HasScope (.module owner)
  | addProgram program => g.HasScope (.chunk program.owner)
  | addField owner _ => g.HasScope (.program owner)
  | define scope _ _ => g.HasScope scope

instance (g : Globals) : (change : Change) → Decidable (change.Valid g)
  | addModule _ => isTrue trivial
  | addChunk owner _ => inferInstanceAs (Decidable (g.HasScope (.module owner)))
  | addProgram program => inferInstanceAs (Decidable (g.HasScope (.chunk program.owner)))
  | addField owner _ => inferInstanceAs (Decidable (g.HasScope (.program owner)))
  | define scope _ _ => inferInstanceAs (Decidable (g.HasScope scope))

/-- The name that a change defines. -/
def name : Change → String
  | addModule name => name
  | addChunk _ name => name
  | addProgram program => program.name
  | addField _ field => field.name
  | define _ name _ => name

/-- The scopes in which a change defines its name. -/
def homes (g : Globals) : Change → List ScopeId
  | addModule _ => [.global]
  | addChunk owner _ => [.module owner]
  | addProgram program =>
    .chunk program.owner :: if program.exported then [.module (g.chunk program.owner).owner] else []
  | addField owner _ => [.program owner]
  | define scope _ _ => [scope]

end Change

section changes

variable (g : Globals)

theorem defines_addModule (name : String) : Defines g (g.addModule name).2 name [.global] := by
  unfold addModule
  split
  · exact {}
  · have hmodule : ∀ m : ModuleId, m.index < g.modules.size →
        (g.modules.push ⟨name, #[], Table.empty⟩).getD m.index default = g.module m := by
      intro m hm
      rw [getD_push, if_neg (Nat.ne_of_lt hm)]
      rfl
    exact {
      modules_le := by simp
      global_changed := fun other hne => ⟨Table.eq_of_get?_define_ne hne, by simp⟩
      module_changed := fun m other hm hne =>
        absurd (congrArg (fun scope => scope.table.get? other) (hmodule m hm)) hne }

theorem defines_addChunk {owner : ModuleId} (howner : owner.index < g.modules.size)
    (name : String) :
    Defines g (g.addChunk owner name).2 name [.module owner] where
  modules_le := by simp
  chunks_le := by simp
  chunk_owner := by
    intro c hc
    rw [addChunk_chunk, if_neg (Nat.ne_of_lt hc)]
  new_chunk := by
    intro c hc hnew
    rw [addChunk_size_chunks] at hc
    rw [addChunk_chunk, if_pos (by omega), addChunk_size_modules]
    exact howner
  module_changed := by
    intro m other hm hne
    rw [addChunk_module] at hne
    obtain ⟨hcond, hdefined⟩ :=
      and_ne_of_ite_ne (fun scope : ModuleScope => scope.table.get? other) hne
    rw [← ModuleId.eq_of_index hcond.1]
    exact ⟨Table.eq_of_get?_define_ne hdefined, by simp⟩
  chunk_changed := by
    intro c other hc hne
    rw [addChunk_chunk, if_neg (Nat.ne_of_lt hc)] at hne
    exact absurd rfl hne

theorem defines_addProgram {p : ProgramScope} (howner : p.owner.index < g.chunks.size) :
    Defines g (g.addProgram p).2 p.name ((Change.addProgram p).homes g) where
  modules_le := by simp
  chunks_le := by simp
  programs_le := by simp
  chunk_owner := by
    intro c hc
    rw [addProgram_chunk]
    split <;> rfl
  program_owner := by
    intro q hq
    rw [addProgram_program_of_lt hq]
  new_chunk := by
    intro c hc hnew
    rw [addProgram_size_chunks] at hc
    exact absurd hc hnew
  new_program := by
    intro q hq hnew
    rw [addProgram_size_programs] at hq
    rw [addProgram_program, if_pos (by omega), addProgram_size_chunks]
    exact howner
  global_changed := by
    intro other hne
    rw [addProgram_table] at hne
    exact absurd rfl hne
  module_changed := by
    intro m other hm hne
    rw [addProgram_module] at hne
    -- only an exported program gets an entry in the table of its module
    obtain ⟨hcond, hdefined⟩ :=
      and_ne_of_ite_ne (fun scope : ModuleScope => scope.table.get? other) hne
    rw [← ModuleId.eq_of_index hcond.2.1]
    exact ⟨Table.eq_of_get?_define_ne hdefined, by simp [Change.homes, hcond.1]⟩
  chunk_changed := by
    intro c other hc hne
    rw [addProgram_chunk] at hne
    obtain ⟨hcond, hdefined⟩ :=
      and_ne_of_ite_ne (fun scope : ChunkScope => scope.table.get? other) hne
    rw [← ChunkId.eq_of_index hcond.1]
    exact ⟨Table.eq_of_get?_define_ne hdefined, List.mem_cons_self⟩
  program_changed := by
    intro q other hq hne
    rw [addProgram_program_of_lt hq] at hne
    exact absurd rfl hne

theorem defines_modifyProgram (id : ProgramId) {name : String} (f : ProgramScope → ProgramScope)
    (howner : ∀ p, (f p).owner = p.owner)
    (hf : ∀ p other, (f p).member? other ≠ p.member? other → name = other) :
    Defines g (g.modifyProgram id f) name [.program id] := by
  have hsize : (g.modifyProgram id f).programs.size = g.programs.size := Array.size_modify
  refine { programs_le := Nat.le_of_eq hsize.symm, program_owner := ?_, new_program := ?_
           program_changed := ?_ }
  · intro p hp
    rw [program_modifyProgram]
    split
    · exact howner _
    · rfl
  · intro p hp hnew
    exact absurd (hsize ▸ hp) hnew
  · intro p other hp hne
    rw [program_modifyProgram] at hne
    obtain ⟨hcond, hdefined⟩ :=
      and_ne_of_ite_ne (fun scope : ProgramScope => scope.member? other) hne
    rw [← ProgramId.eq_of_index hcond.1]
    exact ⟨hf _ other hdefined, by simp⟩

/-- Fields are looked up through their programs only. -/
theorem defines_addField (owner : ProgramId) (field : Field) :
    Defines g (g.addField owner field).2 field.name [.program owner] :=
  let enter (p : ProgramScope) := p.define field.name (.field ⟨g.fields.size⟩ field.home)
  { defines_modifyProgram g owner
      (fun p => { enter p with fields := (enter p).fields.push ⟨g.fields.size⟩ })
      (fun _ => ProgramScope.owner_define _ _ _)
      fun _ _ hne => ProgramScope.eq_of_member?_define_ne hne with }

theorem defines_defineIn (scope : ScopeId) (name : String) (symbol : Symbol) :
    Defines g (g.defineIn scope name symbol) name [scope] := by
  cases scope with
  | global => exact { global_changed := fun other hne => ⟨Table.eq_of_get?_define_ne hne, by simp⟩ }
  | module id =>
    have hmodule : ∀ m, (g.defineIn (.module id) name symbol).module m =
        if id.index = m.index ∧ m.index < g.modules.size then
          { g.module m with table := (g.module m).table.define name symbol }
        else g.module m := fun m => getD_modify _ _ _ _ _
    refine { modules_le := Nat.le_of_eq Array.size_modify.symm, module_changed := ?_ }
    intro m other hm hne
    rw [hmodule] at hne
    obtain ⟨hcond, hdefined⟩ :=
      and_ne_of_ite_ne (fun scope : ModuleScope => scope.table.get? other) hne
    rw [← ModuleId.eq_of_index hcond.1]
    exact ⟨Table.eq_of_get?_define_ne hdefined, by simp⟩
  | chunk id =>
    have hchunk : ∀ c, (g.defineIn (.chunk id) name symbol).chunk c =
        if id.index = c.index ∧ c.index < g.chunks.size then
          { g.chunk c with table := (g.chunk c).table.define name symbol }
        else g.chunk c := fun c => getD_modify _ _ _ _ _
    have hsize : (g.defineIn (.chunk id) name symbol).chunks.size = g.chunks.size :=
      Array.size_modify
    refine { chunks_le := Nat.le_of_eq hsize.symm, chunk_owner := ?_, new_chunk := ?_
             chunk_changed := ?_ }
    · intro c hc
      rw [hchunk]
      split <;> rfl
    · intro c hc hnew
      exact absurd (hsize ▸ hc) hnew
    · intro c other hc hne
      rw [hchunk] at hne
      obtain ⟨hcond, hdefined⟩ :=
        and_ne_of_ite_ne (fun scope : ChunkScope => scope.table.get? other) hne
      rw [← ChunkId.eq_of_index hcond.1]
      exact ⟨Table.eq_of_get?_define_ne hdefined, by simp⟩
  | program id =>
    exact defines_modifyProgram g id _ (fun _ => ProgramScope.owner_define _ _ _)
      fun _ _ hne => ProgramScope.eq_of_member?_define_ne hne

/-- Every change that is valid defines its name in its homes and does nothing else to the scopes
that are there. -/
theorem Change.Valid.defines {g : Globals} {change : Change} (h : change.Valid g) :
    Defines g (change.apply g) change.name (change.homes g) := by
  cases change with
  | addModule name => exact defines_addModule g name
  | addChunk owner name => exact defines_addChunk g h name
  | addProgram program => exact defines_addProgram g h
  | addField owner field => exact defines_addField g owner field
  | define scope name symbol => exact defines_defineIn g scope name symbol

end changes

/-! ### Scopes that were built up -/

/-- A global scope that came about by changes, each of them valid when it was made. -/
inductive Built : Globals → Prop
  | initial : Built initial
  | change {g : Globals} (h : Built g) (change : Change) (hchange : change.Valid g) :
      Built (change.apply g)

theorem Built.rooted {g : Globals} (h : g.Built) : g.Rooted := by
  induction h with
  | initial =>
    intro s t hs ht
    cases s with
    | global => cases ht
    | module m =>
      obtain rfl := Option.some.inj ht
      trivial
    | chunk c => exact absurd hs (Nat.not_lt_zero _)
    | program p => exact absurd hs (Nat.not_lt_zero _)
  | change h change hchange ih => exact hchange.defines.rooted ih

/-- Looking up names is lexically isolated. If a change makes a name stand for something else in a
scope that was there before, then it defined this name, and in this scope or in one around it. In a
program a name stands for what the innermost table has that knows the name. -/
theorem resolution_lexically_isolated {g : Globals} (hg : g.Built) :
    (∀ (change : Change) (s : ScopeId) (name : String), change.Valid g → g.HasScope s →
      (change.apply g).resolve? s name ≠ g.resolve? s name →
        change.name = name ∧ ∃ home ∈ change.homes g, g.Within s home) ∧
    ∀ (p : ProgramId) (name : String), g.resolve? (.program p) name =
      ((g.program p).working.get? name).or (((g.program p).linkage.get? name).or
        (((g.chunk (g.program p).owner).table.get? name).or
          (((g.module (g.chunk (g.program p).owner).owner).table.get? name).or
            (g.table.get? name)))) := by
  refine ⟨?_, ?_⟩
  · intro change s name hchange hs hne
    exact hchange.defines.of_resolve?_ne hg.rooted hs hne
  · exact g.resolve?_program

/-- A module of two chunks, with a program in the first one. -/
def sampleScope : Globals :=
  [Change.addModule "M", .addChunk ⟨0⟩ "m.cbl", .addChunk ⟨0⟩ "n.cbl",
    .addProgram (.declare "P" ⟨0⟩ false Location.none)].foldl Change.apply initial

theorem sampleScope_built : sampleScope.Built := by
  have hmodule := Built.initial.change (.addModule "M") trivial
  have hfirst := hmodule.change (.addChunk ⟨0⟩ "m.cbl") (by decide +kernel)
  have hsecond := hfirst.change (.addChunk ⟨0⟩ "n.cbl") (by decide +kernel)
  exact hsecond.change (.addProgram (.declare "P" ⟨0⟩ false Location.none)) (by decide +kernel)

/-- A program that the second chunk exports is seen from the program of the first one, as their
module knows it. -/
theorem sampleScope_export_isolated :
    let change := Change.addProgram (.declare "Q" ⟨1⟩ true Location.none)
    change.Valid sampleScope ∧ sampleScope.HasScope (.program ⟨0⟩) ∧
      (change.apply sampleScope).resolve? (.program ⟨0⟩) "Q" ≠
        sampleScope.resolve? (.program ⟨0⟩) "Q" ∧
      change.name = "Q" ∧
      ∃ home ∈ change.homes sampleScope, sampleScope.Within (.program ⟨0⟩) home := by
  intro change
  have hvalid : change.Valid sampleScope := by decide +kernel
  have hscope : sampleScope.HasScope (.program ⟨0⟩) := by decide +kernel
  have hne : (change.apply sampleScope).resolve? (.program ⟨0⟩) "Q" ≠
      sampleScope.resolve? (.program ⟨0⟩) "Q" := by
    decide +kernel
  exact ⟨hvalid, hscope, hne,
    (resolution_lexically_isolated sampleScope_built).1 change (.program ⟨0⟩) "Q" hvalid hscope hne⟩

end Globals

end CobolCompiler
