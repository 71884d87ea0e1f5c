import CobolCompiler.Proofs.Emission
import CobolCompiler.Proofs.LeftAlone

/-!
# The constant pool

The constants of a module stand in a list, and a pool finds the index of each. These are two
structures, which are changed one after the other; while a module is generated they are in step
(`InStep`).

* Interning a value gives the index that it has, or adds it, or finds no room
  (`InStep.ensures_intern_iff`).
* `Interns` records what a step interns and which indices it is given, and `Since` what was interned
  since a module was begun.
* So the constants are the interned values in the order of first use, and indices stand for their
  values (`Pools`).
-/

namespace CobolCompiler.Generation

open Machine

variable {α β : Type} {g : Generator} {env : Env}

/-- What interning changes: the pool and the constants of the module. -/
def poolOf (g : Generator) : Std.TreeMap Value UInt16 × Array Value :=
  (g.pool, g.assembler.built.constants)

variable {log : List (Value × UInt16)} {step : GenM α} {g' : Generator}

/-- Both are part of the ground. -/
theorem pool_of_ground {g : Generator} (h : ground g' = ground g) : poolOf g' = poolOf g :=
  congrArg (fun ground => (ground.2.1, ground.1.2)) h

theorem leaves_pool (h : Leaves ground step) : Leaves poolOf step :=
  h.comp fun ground => (ground.2.1, ground.1.2)

theorem Quiet.leaves_pool (h : Quiet step) : Leaves poolOf step :=
  Generation.leaves_pool (leaves_ground h.leaves)

/-! ### Pool and constants in step -/

/-- The pool finds just the constants of the module, and these are distinct. -/
structure InStep (g : Generator) : Prop where
  nodup : g.assembler.built.constants.toList.Nodup
  size_le : g.assembler.built.constants.size ≤ Assembler.room
  pool_iff : ∀ (v : Value) (i : UInt16), g.pool[v]? = some i ↔
    g.assembler.built.constants[i.toNat]? = some v

theorem InStep.of_pool_eq (h : InStep g) (heq : poolOf g' = poolOf g) : InStep g' := by
  obtain ⟨hpool, hconstants⟩ := Prod.ext_iff.mp heq
  change g'.pool = g.pool at hpool
  change g'.assembler.built.constants = g.assembler.built.constants at hconstants
  exact ⟨hconstants ▸ h.nodup, hconstants ▸ h.size_le,
    fun v i => by rw [hpool, hconstants]; exact h.pool_iff v i⟩

/-- The generator with a new constant. -/
def withConstant (g : Generator) (v : Value) : Generator :=
  { g with
    assembler := { g.assembler with
      built := { g.assembler.built with constants := g.assembler.built.constants.push v } }
    pool := g.pool.insert v (UInt16.ofNat g.assembler.built.constants.size) }

@[simp] theorem constants_withConstant (g : Generator) (v : Value) :
    (withConstant g v).assembler.built.constants = g.assembler.built.constants.push v := rfl

namespace InStep

variable (h : InStep g) {v : Value}

include h

theorem pool_eq_none_iff : g.pool[v]? = none ↔ v ∉ g.assembler.built.constants.toList := by
  constructor
  · intro hnone hmem
    obtain ⟨k, hk⟩ := List.getElem?_of_mem hmem
    rw [Array.getElem?_toList] at hk
    have hlt : k < g.assembler.built.constants.size := (Array.getElem?_eq_some_iff.mp hk).1
    have hindex : (UInt16.ofNat k).toNat = k :=
      UInt16.toNat_ofNat_of_lt' (Nat.lt_of_lt_of_le hlt h.size_le)
    rw [← hindex, ← h.pool_iff, hnone] at hk
    cases hk
  · intro hnot
    cases hpool : g.pool[v]? with
    | none => rfl
    | some i =>
      exact absurd (Array.mem_toList_iff.mpr (Array.mem_of_getElem? ((h.pool_iff v i).mp hpool)))
        hnot

/-- Two indices of one constant are the same. -/
theorem index_unique {i j : UInt16} (hi : g.assembler.built.constants[i.toNat]? = some v)
    (hj : g.assembler.built.constants[j.toNat]? = some v) : i = j := by
  rw [← h.pool_iff] at hi hj
  exact Option.some.inj (hi.symm.trans hj)

/-- A new constant gets the next index, in the pool as in the list. -/
theorem withConstant (hnew : v ∉ g.assembler.built.constants.toList)
    (hroom : g.assembler.built.constants.size < Assembler.room) : InStep (withConstant g v) where
  nodup := by
    rw [constants_withConstant, Array.toList_push, List.nodup_append]
    refine ⟨h.nodup, List.nodup_singleton v, ?_⟩
    intro w hw _ hv heq
    exact hnew (List.mem_singleton.mp hv ▸ heq ▸ hw)
  size_le := by
    rw [constants_withConstant, Array.size_push]
    exact hroom
  pool_iff := by
    intro w i
    have hindex := UInt16.toNat_ofNat_of_lt' hroom
    rw [constants_withConstant, Array.getElem?_push]
    change (g.pool.insert v (UInt16.ofNat g.assembler.built.constants.size))[w]? = some i ↔ _
    rw [Std.TreeMap.getElem?_insert]
    by_cases heq : v = w
    · subst heq
      have hold : g.assembler.built.constants[i.toNat]? ≠ some v := fun hi =>
        hnew (Array.mem_toList_iff.mpr (Array.mem_of_getElem? hi))
      by_cases hi : i.toNat = g.assembler.built.constants.size
      · have hsame : UInt16.ofNat g.assembler.built.constants.size = i :=
          UInt16.toNat_inj.mp (hindex.trans hi.symm)
        simp [hi, hsame]
      · have hother : UInt16.ofNat g.assembler.built.constants.size ≠ i :=
          fun hsame => hi (hsame ▸ hindex)
        simp [hi, hother, hold]
    · rw [if_neg (by simpa using heq), h.pool_iff]
      by_cases hi : i.toNat = g.assembler.built.constants.size
      · simp [hi, heq]
      · simp [hi]

/-- Interning a value answers with its index if it is a constant, and adds it otherwise, if there is
room. -/
theorem ensures_intern_iff {ok : UInt16 → Generator → Prop} {err : Stop → Generator → Prop} :
    Ensures (intern v) g ok err ↔
      (∀ i : UInt16, g.assembler.built.constants[i.toNat]? = some v → ok i g) ∧
      (v ∉ g.assembler.built.constants.toList →
        (g.assembler.built.constants.size < Assembler.room →
          ok (UInt16.ofNat g.assembler.built.constants.size) (Generation.withConstant g v)) ∧
        (Assembler.room ≤ g.assembler.built.constants.size → err (limit .tooManyConstants) g)) := by
  unfold intern
  rw [ensures_bind, ensures_get]
  cases hpool : g.pool[v]? with
  | some i =>
    have hi := (h.pool_iff v i).mp hpool
    have hmem : v ∈ g.assembler.built.constants.toList :=
      Array.mem_toList_iff.mpr (Array.mem_of_getElem? hi)
    rw [ensures_pure]
    refine ⟨fun hok => ⟨fun j hj => h.index_unique hi hj ▸ hok, fun hnot => absurd hmem hnot⟩,
      fun hok => hok.1 i hi⟩
  | none =>
    have hnot := h.pool_eq_none_iff.mp hpool
    have hold : ∀ i : UInt16, g.assembler.built.constants[i.toNat]? ≠ some v := fun i hi =>
      hnot (Array.mem_toList_iff.mpr (Array.mem_of_getElem? hi))
    simp only [ensures_bind, ensures_modify, ensures_pure, ensures_assemble, Assembler.addConstant,
      Assembler.ensures_append]
    exact ⟨fun hok => ⟨fun i hi => absurd hi (hold i), fun _ => hok⟩, fun hok => hok.2 hnot⟩

end InStep

/-! ### What is interned -/

/-- What a step interns, with the indices that it is given, whether it answers or stops. A step that
leaves the pool alone in every state interns nothing, and neither does one that has no room for its
value. -/
inductive Interns : {α : Type} → GenM α → Generator → List (Value × UInt16) → Prop
  | still {α : Type} {step : GenM α} {g : Generator} (h : Leaves poolOf step) : Interns step g []
  | intern {v : Value} {i : UInt16} {g g' : Generator} (hok : intern v g = .ok i g') :
      Interns (intern v) g [(v, i)]
  | full {v : Value} {e : Stop} {g g' : Generator} (hstop : intern v g = .error e g') :
      Interns (intern v) g []
  | stop {α β : Type} {step : GenM β} {next : β → GenM α} {e : Stop} {g g' : Generator}
      {log : List (Value × UInt16)}
      (h : Interns step g log) (hstop : step g = .error e g') : Interns (step >>= next) g log
  | bind {α β : Type} {step : GenM β} {next : β → GenM α} {b : β} {g g' : Generator}
      {log log' : List (Value × UInt16)} (h : Interns step g log) (hok : step g = .ok b g')
      (hnext : Interns (next b) g' log') : Interns (step >>= next) g (log ++ log')

/-- Begun in a state of one kind, a step that answers interns just these values, and leaves a state
of another kind. -/
def Uses (pre post : Generator → Prop) (values : List Value) (step : GenM α) : Prop :=
  ∀ g, pre g → Ensures step g (fun _ g' => post g' ∧ ∃ log : List (Value × UInt16),
    log.map Prod.fst = values ∧ Interns step g log) (fun _ _ => True)

section uses

variable {pre mid post : Generator → Prop}

theorem uses_still {step : GenM α} (h : Leaves poolOf step)
    (hpost : ∀ g, pre g → Ensures step g (fun _ => post) (fun _ _ => True)) :
    Uses pre post [] step := by
  intro g hg
  rw [ensures_iff]
  exact ⟨fun a g' hok => ⟨(hpost g hg).of_ok hok, [], rfl, .still h⟩, fun _ _ _ => trivial⟩

theorem uses_pure (a : α) : Uses pre pre [] (pure a : GenM α) :=
  uses_still (leaves_pure a) fun _ hg => hg

theorem Uses.bind {step : GenM β} {next : β → GenM α} {values more : List Value}
    (h : Uses pre mid values step) (hnext : ∀ b, Uses mid post more (next b)) :
    Uses pre post (values ++ more) (step >>= next) := by
  intro g hg
  rw [ensures_iff]
  refine ⟨?_, fun _ _ _ => trivial⟩
  intro a g₂ hok
  obtain ⟨b, g₁, hstep, hrest⟩ := exists_of_bind_eq_ok hok
  obtain ⟨hmid, log, rfl, hlog⟩ := (h g hg).of_ok hstep
  obtain ⟨hpost, log', rfl, hlog'⟩ := (hnext b g₁ hmid).of_ok hrest
  exact ⟨hpost, log ++ log', List.map_append, .bind hlog hstep hlog'⟩

/-- A change of the state that does not concern the pool may come before. -/
theorem Uses.after_modify {f : Generator → Generator} {next : GenM α} {values : List Value}
    (h : Uses mid post values next)
    (hpool : ∀ g, poolOf (f g) = poolOf g) (hmid : ∀ g, pre g → mid (f g)) :
    Uses pre post values (modify f >>= fun _ => next) :=
  (uses_still (leaves_modify hpool) hmid).bind fun _ => h

/-- A loop uses what its rounds use. -/
theorem uses_foldlM {f : β → α → GenM β} {values : α → List Value} {items : List α}
    (h : ∀ b, ∀ item ∈ items, Uses pre pre (values item) (f b item)) (b : β) :
    Uses pre pre (items.flatMap values) (items.foldlM f b) := by
  induction items generalizing b with
  | nil => exact uses_pure b
  | cons item rest ih =>
    rw [List.foldlM_cons, List.flatMap_cons]
    apply (h b item List.mem_cons_self).bind
    intro b'
    exact ih (fun c other hother => h c other (List.mem_cons_of_mem item hother)) b'

theorem uses_walkAll {v : Visitor Stop Generator} {values : β → List Value} {node : β → Node}
    {items : List β} (h : ∀ item ∈ items, Uses pre pre (values item) (v.walk (node item))) :
    Uses pre pre (items.flatMap values) (v.walkAll (items.map node)) := by
  induction items with
  | nil => exact uses_pure ()
  | cons item rest ih =>
    rw [List.map_cons, List.flatMap_cons, Visitor.walkAll_cons]
    apply (h item List.mem_cons_self).bind
    intro _
    exact ih fun other hother => h other (List.mem_cons_of_mem item hother)

/-- A walk over nodes at which nothing is interned. -/
theorem uses_walk_nil {v : Visitor Stop Generator} {n : Node}
    (h : ∀ m ∈ n.nodes, Uses pre pre [] (v.enter m) ∧ Uses pre pre [] (v.leave m)) :
    Uses pre pre [] (v.walk n) := by
  induction n using Node.induction_on with
  | node id payload location children ih =>
    obtain ⟨henter, hleave⟩ := h _ (Node.self_mem_nodes _)
    have hchildren : Uses pre pre [] (v.walkAll children) := by
      have hwalks :
          Uses pre pre (children.flatMap fun _ => []) (v.walkAll (children.map fun c => c)) :=
        uses_walkAll fun c hc => ih c hc fun m hm => h m (Node.mem_nodes_of_child hc hm)
      rwa [List.flatMap_eq_nil_iff.mpr fun _ _ => rfl, List.map_id'] at hwalks
    rw [Visitor.walk_mk]
    exact henter.bind fun _ => hchildren.bind fun _ => hleave

end uses

/-- The constants are the values that were interned, in the order of first use, and the indices that
were given out stand for their values. -/
structure Logged (log : List (Value × UInt16)) (g : Generator) : Prop where
  inStep : InStep g
  constants_eq : g.assembler.built.constants.toList = (log.map Prod.fst).eraseDups
  denotes : ∀ entry ∈ log, g.assembler.built.constants[entry.2.toNat]? = some entry.1

theorem Logged.of_pool_eq (h : Logged log g) (heq : poolOf g' = poolOf g) :
    Logged log g' := by
  have hconstants : g'.assembler.built.constants = g.assembler.built.constants :=
    congrArg Prod.snd heq
  exact ⟨h.inStep.of_pool_eq heq, hconstants ▸ h.constants_eq, hconstants ▸ h.denotes⟩

/-- A value that is interned is added to the log with its index. -/
theorem Logged.intern (h : Logged log g) (v : Value) :
    Ensures (intern v) g (fun i => Logged (log ++ [(v, i)])) (fun _ => Logged log) := by
  have hlog (i : UInt16) : ((log ++ [(v, i)]).map Prod.fst).eraseDups =
      if v ∈ g.assembler.built.constants.toList then g.assembler.built.constants.toList
      else g.assembler.built.constants.toList ++ [v] := by
    rw [List.map_append, List.map_singleton, Assembler.eraseDups_concat, h.constants_eq]
  rw [h.inStep.ensures_intern_iff]
  constructor
  · -- a known value leaves the pool as it is
    intro i hi
    have hmem : v ∈ g.assembler.built.constants.toList :=
      Array.mem_toList_iff.mpr (Array.mem_of_getElem? hi)
    refine ⟨h.inStep, by rw [hlog, if_pos hmem], ?_⟩
    intro entry hentry
    rcases List.mem_append.mp hentry with hentry | hentry
    · exact h.denotes entry hentry
    · rw [List.mem_singleton.mp hentry]
      exact hi
  · intro hnew
    refine ⟨fun hroom => ⟨h.inStep.withConstant hnew hroom, ?_, ?_⟩, fun _ => h⟩
    · rw [hlog, if_neg hnew, constants_withConstant, Array.toList_push]
    · intro entry hentry
      rw [constants_withConstant]
      rcases List.mem_append.mp hentry with hentry | hentry
      · -- what was there before keeps its index
        exact getElem?_of_grown (by simp) (h.denotes entry hentry)
      · rw [List.mem_singleton.mp hentry]
        simp only [UInt16.toNat_ofNat_of_lt' hroom]
        exact Array.getElem?_push_size

/-- So the log of a module can be continued by whatever a step interns. -/
theorem Interns.logged {log' : List (Value × UInt16)} (h : Interns step g log')
    (hg : Logged log g) :
    Logged (log ++ log') (stateOf (step g)) := by
  induction h generalizing log with
  | still hleaves =>
    rw [List.append_nil]
    exact holds_stateOf
      ((hleaves _).mono (fun _ _ heq => hg.of_pool_eq heq) fun _ _ heq => hg.of_pool_eq heq)
  | intern hok =>
    rw [hok]
    exact (hg.intern _).of_ok hok
  | full hstop =>
    rw [hstop, List.append_nil]
    exact (hg.intern _).of_error hstop
  | stop _ hstop ih =>
    have hstopped := ih hg
    rw [hstop] at hstopped
    rw [bind_apply, hstop]
    exact hstopped
  | bind _ hok _ ih ihnext =>
    have hanswered := ih hg
    rw [hok] at hanswered
    rw [bind_apply, hok, ← List.append_assoc]
    exact ihnext hanswered

/-- Of a step that changes the ground by interning only, it can be said what it interns. -/
theorem Grounded.exists_interns {names : List (Option String)} (h : Grounded names step) :
    ∀ g, ∃ log, Interns step g log := by
  refine h.holds (P := fun step => ∀ g, ∃ log, Interns step g log) ?_ ?_ ?_
  · intro _ _ hleaves g
    exact ⟨[], .still (leaves_pool hleaves)⟩
  · intro value g
    cases hresult : Generation.intern value g with
    | ok i g' => exact ⟨_, .intern hresult⟩
    | error e g' => exact ⟨[], .full hresult⟩
  · intro _ _ step next ih ihnext g
    obtain ⟨log, hlog⟩ := ih g
    cases hresult : step g with
    | ok b g' =>
      obtain ⟨log', hlog'⟩ := ihnext b g'
      exact ⟨log ++ log', .bind hlog hresult hlog'⟩
    | error e g' => exact ⟨log, .stop hlog hresult⟩

/-- The constants of a module are those of a log: pairwise distinct, in the order of first use, and
with indices that stand for them. -/
structure Pools (log : List (Value × UInt16)) (m : Module) : Prop where
  nodup : m.constants.toList.Nodup
  constants_eq : m.constants.toList = (log.map Prod.fst).eraseDups
  denotes : ∀ entry ∈ log, m.constants[entry.2.toNat]? = some entry.1
  index_eq_iff : ∀ entry ∈ log, ∀ other ∈ log, entry.2 = other.2 ↔ entry.1 = other.1

theorem Logged.pools (h : Logged log g) : Pools log g.assembler.built where
  nodup := h.inStep.nodup
  constants_eq := h.constants_eq
  denotes := h.denotes
  index_eq_iff := by
    intro entry hentry other hother
    have hvalue := h.denotes entry hentry
    have hvalue' := h.denotes other hother
    constructor
    · intro hindex
      rw [hindex, hvalue'] at hvalue
      exact (Option.some.inj hvalue).symm
    · intro heq
      rw [heq] at hvalue
      exact h.inStep.index_unique hvalue hvalue'

/-- When a module begins, nothing has been interned. -/
theorem logged_beginModule (n : Node) :
    Ensures (beginModule env n) g (fun _ g' => Logged [] g' ∧ g'.started = true)
      (fun _ g' => Logged [] g' ∧ g'.started = true) := by
  have hindex (programs : List ProgramId) : Leaves ground (indexPrograms programs) := by
    refine leaves_forM (fun item => ?_) _
    obtain ⟨program, index⟩ := item
    by_cases hroom : index < Assembler.room
    · simp only [hroom, if_true]
      exact leaves_modify fun _ => rfl
    · simp only [hroom, if_false]
      exact leaves_throw _
  have hempty : Logged [] { g with
      assembler := ⟨Module.empty n.name, none⟩, pool := ∅, prototypes := ∅, started := true } := by
    refine ⟨⟨List.nodup_nil, Nat.zero_le _, ?_⟩, rfl, by simp⟩
    intro v i
    change (∅ : Std.TreeMap Value UInt16)[v]? = some i ↔ (#[] : Array Value)[i.toNat]? = some v
    simp
  unfold beginModule
  simp only [ensures_bind, ensures_assemble, ensures_modify, ensures_require]
  refine ⟨fun chunk _ => ?_, fun _ => ⟨hempty, trivial⟩⟩
  have hkept : ∀ {g₁ g₂ : Generator}, ground g₂ = ground g₁ → Logged [] g₁ → g₁.started = true →
      Logged [] g₂ ∧ g₂.started = true := fun heq hlogged hstarted =>
    ⟨hlogged.of_pool_eq (pool_of_ground heq),
      (congrArg (fun ground => ground.2.2) heq).trans hstarted⟩
  exact (hindex _ _).mono (fun _ _ heq => hkept heq hempty rfl) fun _ _ heq => hkept heq hempty rfl

/-- What was interned since the module under construction was begun, and with which indices. The
steps since then need not have answered, so they may belong to several compilations. -/
inductive Since : List (Value × UInt16) → Generator → Prop
  | begun (env : Env) (n : Node) (g : Generator) : Since [] (stateOf (beginModule env n g))
  | step {α : Type} {step : GenM α} {log log' : List (Value × UInt16)} {g : Generator}
      (h : Since log g) (hstep : Interns step g log') : Since (log ++ log') (stateOf (step g))

theorem Since.logged (h : Since log g) : Logged log g := by
  induction h with
  | begun env n g => exact (holds_stateOf (logged_beginModule n)).1
  | step _ hstep ih => exact hstep.logged ih

end CobolCompiler.Generation
