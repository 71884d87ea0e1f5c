import CobolCompiler.Proofs.CallRules
import CobolCompiler.Proofs.Declaring
import Mathlib.Data.List.Nodup

/-!
# Calls are accepted if they obey the rules

The passes that resolve and check calls succeed exactly if every call is well-formed. Each pass is a
loop over nodes, and each step of it writes under the identities of a node's own parts; as
identities are unique, what a step found out stays true to the end (`ensures_forM_local`).

* `ensures_resolve`: all names are bound, or one of them cannot be.
* `ensures_argumentTypes`: all arguments have the type that `typeOf?` gives, or one has none.
* `ensures_check`: all calls agree with the signatures, or one does not.
-/

namespace CobolCompiler

/-! ### What is known about a node -/

namespace Bindings

/-- All that is known under an identity. -/
def known (b : Bindings) (id : Nat) :
    Option FieldId × Option ProgramId × Option ArgumentType × Option Usage :=
  (b.fields[id]?, b.callees[id]?, b.types[id]?, b.params[id]?)

/-- Nothing was learned but about nodes of some identities. -/
structure AgreeOff (ids : List Nat) (b b' : Bindings) : Prop where
  programs_eq : b'.programs = b.programs
  known_eq : ∀ id ∉ ids, b'.known id = b.known id

theorem AgreeOff.refl (ids : List Nat) (b : Bindings) : AgreeOff ids b b :=
  ⟨rfl, fun _ _ => rfl⟩

theorem AgreeOff.trans {ids ids' : List Nat} {b b' b'' : Bindings} (h : AgreeOff ids b b')
    (h' : AgreeOff ids' b' b'') : AgreeOff (ids ++ ids') b b'' where
  programs_eq := h'.programs_eq.trans h.programs_eq
  known_eq := by
    intro id hid
    rw [List.mem_append, not_or] at hid
    rw [h'.known_eq id hid.2, h.known_eq id hid.1]

variable (b : Bindings) (n : Node)

theorem known_node : b.known n.id = (b.field? n, b.callee? n, b.type? n, b.param? n) := rfl

theorem agreeOff_bindField (f : FieldId) : AgreeOff [n.id] b (b.bindField n f) := by
  refine ⟨rfl, fun id hid => ?_⟩
  rw [List.mem_singleton] at hid
  simp [known, bindField, Std.TreeMap.getElem?_insert, Ne.symm hid]

theorem agreeOff_bindCallee (q : ProgramId) : AgreeOff [n.id] b (b.bindCallee n q) := by
  refine ⟨rfl, fun id hid => ?_⟩
  rw [List.mem_singleton] at hid
  simp [known, bindCallee, Std.TreeMap.getElem?_insert, Ne.symm hid]

theorem agreeOff_setType (type : ArgumentType) : AgreeOff [n.id] b (b.setType n type) := by
  refine ⟨rfl, fun id hid => ?_⟩
  rw [List.mem_singleton] at hid
  simp [known, setType, Std.TreeMap.getElem?_insert, Ne.symm hid]

theorem agreeOff_setParam (usage : Usage) : AgreeOff [n.id] b (b.setParam n usage) := by
  refine ⟨rfl, fun id hid => ?_⟩
  rw [List.mem_singleton] at hid
  simp [known, setParam, Std.TreeMap.getElem?_insert, Ne.symm hid]

end Bindings

open Bindings (AgreeOff)

/-- A loop in which each step writes under identities of its own. What a step establishes about the
bindings under these identities holds at the end of the loop. -/
theorem ensures_forM_local {α σ : Type} {f : α → EStateM Stop σ PUnit} {items : List α} {s : σ}
    (view : σ → Bindings) (key : α → List Nat) (I : σ → Prop) (P : Bindings → α → Prop)
    (err : α → Stop → Prop) (hkeys : (items.flatMap key).Nodup) (hs : I s)
    (hlocal : ∀ a b b' ids, P b a → AgreeOff ids b b' → (∀ id ∈ key a, id ∉ ids) → P b' a)
    (hstep : ∀ a ∈ items, ∀ t, I t → Ensures (f a) t (fun _ t' =>
      I t' ∧ P (view t') a ∧ AgreeOff (key a) (view t) (view t')) (fun e _ => err a e)) :
    Ensures (items.forM f) s
      (fun _ t => I t ∧ (∀ a ∈ items, P (view t) a) ∧
        AgreeOff (items.flatMap key) (view s) (view t))
      (fun e _ => ∃ a ∈ items, err a e) := by
  refine ensures_forM
    (fun done t => I t ∧ (∀ a ∈ done, P (view t) a) ∧ AgreeOff (done.flatMap key) (view s) (view t))
    ⟨hs, by simp, .refl _ _⟩ ?_
  rintro done a rest t hsplit ⟨ht, hdone, hagree⟩
  have ha : a ∈ items := by rw [hsplit]; simp
  refine (hstep a ha t ht).mono ?_ fun e _ he => ⟨a, ha, he⟩
  rintro _ t' ⟨ht', hP, hagree'⟩
  rw [hsplit, List.flatMap_append, List.flatMap_cons] at hkeys
  refine ⟨ht', fun c hc => ?_, ?_⟩
  · rcases List.mem_append.mp hc with hc | hc
    · -- the step writes under identities of its own, so what was established before still holds
      refine hlocal c _ _ _ (hdone c hc) hagree' fun id hid hmem => ?_
      have hdisjoint := (List.nodup_append.mp hkeys).2.2 id (List.mem_flatMap.mpr ⟨c, hc, hid⟩) id
        (List.mem_append_left _ hmem)
      exact hdisjoint rfl
    · rw [List.mem_singleton.mp hc]
      exact hP
  · rw [List.flatMap_append, List.flatMap_singleton]
    exact hagree.trans hagree'

/-! ### Identities of arguments -/

namespace Node

/-- The nodes of a tree are its root and the children of its nodes. -/
theorem perm_children (n : Node) : (n :: n.nodes.flatMap (·.children)).Perm n.nodes := by
  induction n using induction_on with
  | node id payload location children ih =>
    rw [nodes_eq]
    refine List.Perm.cons _ ?_
    rw [List.flatMap_cons]
    change (children ++ (children.flatMap nodes).flatMap (·.children)).Perm (children.flatMap nodes)
    clear id payload location
    induction children with
    | nil => exact .refl _
    | cons c rest ihrest =>
      rw [List.flatMap_cons, List.flatMap_append]
      have hc := ih c List.mem_cons_self
      have hrest := ihrest fun d hd => ih d (List.mem_cons_of_mem c hd)
      refine (List.Perm.cons c (List.perm_append_comm_assoc rest _ _)).trans ?_
      exact hc.append hrest

/-- The identities of the nodes under a heading of arguments. -/
def usingsIds (n : Node) : List Nat :=
  if n.is .callUsings then n.children.map (·.id) else []

theorem map_id_arguments (n : Node) : n.arguments.map (·.id) = n.children.flatMap usingsIds := by
  rw [arguments, childrenOf]
  induction n.children with
  | nil => rfl
  | cons c rest ih =>
    rw [List.flatMap_cons, ← ih, List.filter_cons, usingsIds]
    split
    · rw [List.flatMap_cons, List.map_append]
    · rfl

/-- In a tree with unique identities no node is an argument twice. -/
theorem UniqueIds.nodup_usingsIds {n : Node} (h : n.UniqueIds) :
    (n.nodes.flatMap usingsIds).Nodup := by
  have hperm := n.perm_children.map (·.id)
  have hchildren : ((n.nodes.flatMap (·.children)).map (·.id)).Nodup := by
    have hnodup := hperm.nodup_iff.mpr h
    rw [List.map_cons] at hnodup
    exact hnodup.of_cons
  refine hchildren.sublist ?_
  generalize n.nodes = ns
  induction ns with
  | nil => exact .refl _
  | cons m rest ih =>
    rw [List.flatMap_cons, List.flatMap_cons, List.map_append]
    refine List.Sublist.append ?_ ih
    unfold usingsIds
    split
    · exact .refl _
    · exact List.nil_sublist _

theorem UniqueIds.nodup_arguments {n : Node} (h : n.UniqueIds) :
    (n.nodes.flatMap fun c => c.arguments.map (·.id)).Nodup := by
  have heq : (n.nodes.flatMap fun c => c.arguments.map (·.id)) =
      (n.nodes.flatMap (·.children)).flatMap usingsIds := by
    rw [List.flatMap_assoc]
    exact List.flatMap_congr fun c _ => c.map_id_arguments
  have hperm := n.perm_children.flatMap_right usingsIds
  have hnodup := hperm.nodup_iff.mpr h.nodup_usingsIds
  rw [List.flatMap_cons] at hnodup
  rw [heq]
  exact (List.nodup_append.mp hnodup).2.1

end Node

namespace CallSite

open Syntax

variable {a : Node} {b b' : Bindings} {g : Globals} {n : Node} {s : State}

/-! ### Names -/

/-- What the call passes rely on: the programs of the file are found by their names, and the scope
is consistent. -/
structure Env.Of (env : Env) (chunk : ChunkId) : Prop where
  chunk?_eq : env.chunk? = some chunk
  own : ∀ name q, env.globals.chunkProgram? chunk name = some q ↔
    q ∈ (env.globals.chunk chunk).programs.toList ∧ (env.globals.program q).name = name
  consistent : env.globals.Consistent

variable {env : Env} {chunk : ChunkId} {p : ProgramId}

variable {q : ProgramId}

/-- A name stands for one program at most. -/
theorem names_unique (henv : env.Of chunk) {callee : Callee} {q' : ProgramId}
    (h : Names env.globals chunk callee q) (h' : Names env.globals chunk callee q') : q = q' := by
  cases h with
  | own hmem hname =>
    cases h' with
    | own hmem' hname' =>
      have hq := (henv.own _ q).mpr ⟨hmem, hname⟩
      have hq' := (henv.own _ q').mpr ⟨hmem', hname'⟩
      exact Option.some.inj (hq.symm.trans hq')
  | exported howner hprogram =>
    cases h' with
    | exported howner' hprogram' =>
      obtain rfl : _ = _ := Symbol.module.inj (Option.some.inj (howner.symm.trans howner'))
      exact Symbol.program.inj (Option.some.inj (hprogram.symm.trans hprogram'))

/-- Resolving a name finds the program it stands for, or fails because there is none. -/
theorem ensures_resolveCallee {σ : Type} (henv : env.Of chunk) (n : Node) (s : σ) :
    Ensures (resolveCallee env n) s (fun q t => Names env.globals chunk (Callee.ofNode n) q ∧ t = s)
      (fun e _ => e.IsFailure ∧ ∀ q, ¬Names env.globals chunk (Callee.ofNode n) q) := by
  unfold resolveCallee Callee.ofNode
  generalize calleeName n = name
  obtain ⟨module?, program, location⟩ := name
  cases module? with
  | none =>
    simp only [henv.chunk?_eq, ensures_bind, ensures_require_some]
    cases hfound : env.globals.chunkProgram? chunk program with
    | none =>
      refine ⟨isFailure_fault .., fun q hq => ?_⟩
      -- a program of that name would have been found
      cases hq with
      | own hmem hname =>
        rw [(henv.own _ q).mpr ⟨hmem, hname⟩] at hfound
        cases hfound
    | some q =>
      obtain ⟨hmem, hname⟩ := (henv.own _ q).mp hfound
      exact ⟨.own hmem hname, rfl⟩
  | some owner =>
    obtain ⟨owner, ownerLocation⟩ := owner
    cases hmodule : env.globals.module? owner with
    | none =>
      simp only [hmodule, ensures_throw]
      refine ⟨isFailure_fault .., fun q hq => ?_⟩
      cases hq with
      | exported howner hprogram =>
        rw [Globals.module?_eq_some_iff.mpr howner] at hmodule
        cases hmodule
    | some m =>
      simp only [hmodule]
      cases hfound : env.globals.moduleProgram? m program with
      | none =>
        refine ⟨isFailure_fault .., fun q hq => ?_⟩
        cases hq with
        | exported howner hprogram =>
          obtain rfl :=
            Option.some.inj (hmodule.symm.trans (Globals.module?_eq_some_iff.mpr howner))
          rw [Globals.moduleProgram?_eq_some_iff.mpr hprogram] at hfound
          cases hfound
      | some q =>
        exact ⟨.exported (Globals.module?_eq_some_iff.mp hmodule)
          (Globals.moduleProgram?_eq_some_iff.mp hfound), rfl⟩

/-! ### Resolution -/

/-- The names that a call writes to are those of its syntax. -/
theorem map_writtenNames (n : Node) : (writtenNames n).map (·.1) = (Call.ofNode n).written := by
  rw [writtenNames, List.map_append, List.map_filterMap, List.map_filterMap, Call.written,
    Call.ofNode, List.filterMap_map]
  congr 1
  · refine List.filterMap_congr fun a _ => ?_
    obtain ⟨id, payload, location, children⟩ := a
    cases payload with
    | callUsingId name byContent =>
      cases byContent <;> simp [Argument.ofNode, Argument.referenceName?]
    | _ => simp [Argument.ofNode, Argument.referenceName?]
  · refine List.filterMap_congr fun t _ => ?_
    obtain ⟨id, payload, location, children⟩ := t
    cases payload <;> simp [targetName?]

theorem repeated?_eq_none_iff (seen : Std.TreeMap String Location)
    (items : List (String × Location)) :
    repeated? seen items = none ↔ (items.map (·.1)).Nodup ∧ ∀ item ∈ items,
      seen[item.1]? = none := by
  induction items generalizing seen with
  | nil => simp [repeated?]
  | cons item rest ih =>
    obtain ⟨name, location⟩ := item
    simp only [repeated?, List.map_cons, List.nodup_cons, List.forall_mem_cons]
    cases hseen : seen[name]? with
    | some before => simp
    | none =>
      simp only [ih, true_and]
      -- a name not seen before and not seen so far is not repeated
      have hinsert (item : String × Location) :
          (seen.insert name location)[item.1]? = none ↔ name ≠ item.1 ∧ seen[item.1]? = none := by
        rw [Std.TreeMap.getElem?_insert]
        by_cases heq : name = item.1 <;> simp [heq]
      simp only [hinsert, List.mem_map, not_exists, not_and]
      constructor
      · rintro ⟨hnodup, hrest⟩
        exact ⟨⟨fun x hx heq => (hrest x hx).1 heq.symm, hnodup⟩, fun x hx => (hrest x hx).2⟩
      · rintro ⟨⟨hnot, hnodup⟩, hrest⟩
        exact ⟨hnodup, fun x hx => ⟨fun heq => hnot x hx heq.symm, hrest x hx⟩⟩

/-- What is bound at a node of a program. -/
def Resolved (g : Globals) (chunk : ChunkId) (p : ProgramId) (b : Bindings) (n : Node) : Prop :=
  match n.payload with
  | .callStatement | .callExpression =>
    (∃ q, Names g chunk (Callee.ofNode n) q ∧ b.callee? n = some q) ∧ (Call.ofNode n).written.Nodup
  | .callUsingId name _ | .callReturningId name => ∃ f, g.HasField p name f ∧ b.field? n = some f
  | _ => True

theorem resolved_of_eq (h : Resolved g chunk p b n) (hfield : b'.field? n = b.field? n)
    (hcallee : b'.callee? n = b.callee? n) : Resolved g chunk p b' n := by
  unfold Resolved at h ⊢
  rw [hfield, hcallee]
  exact h

theorem resolved_congr (h : Resolved g chunk p b n) (hknown : b'.known n.id = b.known n.id) :
    Resolved g chunk p b' n := by
  simp only [Bindings.known_node, Prod.mk.injEq] at hknown
  exact resolved_of_eq h hknown.1 hknown.2.1

/-- The fields of a program are found by their names. -/
def FindsFields (g : Globals) (p : ProgramId) : Prop :=
  ∀ name f, (g.program p).field? name = some f ↔ g.HasField p name f

/-- What a step of resolution guarantees: the node is resolved, or it cannot be. -/
def StepResolves (env : Env) (chunk : ChunkId) (p : ProgramId) (n : Node)
    (step : EStateM Stop State Unit) (s : State) : Prop :=
  Ensures step s
    (fun _ s' => s'.program? = s.program? ∧ Resolved env.globals chunk p s'.bindings n ∧
      AgreeOff [n.id] s.bindings s'.bindings)
    (fun e _ => e.IsFailure ∧ ∀ b, ¬Resolved env.globals chunk p b n)

theorem ensures_resolveCall (henv : env.Of chunk)
    (hn : n.payload = .callStatement ∨ n.payload = .callExpression)
    (s : State) : StepResolves env chunk p n (resolveCall env n) s := by
  have hresolved (b : Bindings) : Resolved env.globals chunk p b n ↔
      (∃ q, Names env.globals chunk (Callee.ofNode n) q ∧ b.callee? n = some q) ∧
      (Call.ofNode n).written.Nodup := by
    unfold Resolved
    rcases hn with hn | hn <;> rw [hn]
  have hnone : repeated? ∅ (writtenNames n) = none ↔ (Call.ofNode n).written.Nodup := by
    rw [repeated?_eq_none_iff, map_writtenNames]
    simp
  unfold StepResolves resolveCall
  simp only [ensures_bind, hresolved]
  refine (ensures_resolveCallee henv n s).mono ?_ ?_
  · rintro q _ ⟨hq, rfl⟩
    rw [ensures_modify]
    cases hrepeated : repeated? ∅ (writtenNames n) with
    | none =>
      refine ⟨rfl, ⟨⟨q, hq, ?_⟩, hnone.mp hrepeated⟩, Bindings.agreeOff_bindCallee ..⟩
      simp [Bindings.callee?_bindCallee]
    | some found =>
      refine ⟨isFailure_fault .., fun b hb => ?_⟩
      rw [hnone.mpr hb.2] at hrepeated
      cases hrepeated
  · rintro e _ ⟨he, hnames⟩
    exact ⟨he, fun b hb => by obtain ⟨⟨q, hq, -⟩, -⟩ := hb; exact hnames q hq⟩

theorem ensures_resolveField (hfields : FindsFields env.globals p) {name : String}
    (hn : n.payload = .callReturningId name ∨ ∃ byContent, n.payload = .callUsingId name byContent)
    (hs : s.program? = some p) : StepResolves env chunk p n (resolveField env name n) s := by
  have hresolved (b : Bindings) : Resolved env.globals chunk p b n ↔
      ∃ f, env.globals.HasField p name f ∧ b.field? n = some f := by
    unfold Resolved
    rcases hn with hn | ⟨byContent, hn⟩ <;> rw [hn]
  unfold StepResolves resolveField
  simp only [ensures_bind, ensures_get, hs, Option.bind_some, hresolved]
  cases hfound : (env.globals.program p).field? name with
  | none =>
    refine ⟨isFailure_fault .., fun b hb => ?_⟩
    obtain ⟨f, hf, -⟩ := hb
    rw [(hfields name f).mpr hf] at hfound
    cases hfound
  | some f =>
    refine ⟨hs, ⟨f, (hfields name f).mp hfound, ?_⟩, Bindings.agreeOff_bindField ..⟩
    simp [Bindings.field?_bindField]

/-- Entering any node below a program resolves it. -/
theorem ensures_enter_resolver (henv : env.Of chunk) (hfields : FindsFields env.globals p)
    (hn : n.tag ≠ .program)
    (hs : s.program? = some p) : StepResolves env chunk p n ((resolver env).enter n) s := by
  have hnothing (htrue : ∀ b, Resolved env.globals chunk p b n) :
      StepResolves env chunk p n (pure ()) s :=
    ⟨rfl, htrue _, .refl _ _⟩
  cases hpayload : n.payload with
  | program => exact absurd (congrArg Payload.tag hpayload) hn
  | callStatement =>
    simp only [resolver, hpayload]
    exact ensures_resolveCall henv (Or.inl hpayload) s
  | callExpression =>
    simp only [resolver, hpayload]
    exact ensures_resolveCall henv (Or.inr hpayload) s
  | callUsingId name byContent =>
    simp only [resolver, hpayload]
    exact ensures_resolveField hfields (Or.inr ⟨byContent, hpayload⟩) hs
  | callReturningId name =>
    simp only [resolver, hpayload]
    exact ensures_resolveField hfields (Or.inl hpayload) hs
  | _ =>
    simp only [resolver, hpayload]
    exact hnothing fun b => by simp [Resolved, hpayload]

theorem resolver_inert (env : Env) :
    (resolver env).InertOn (.identifier :: .procedureDivision :: Tag.frameTags) := by
  intro n hn
  obtain ⟨id, payload, location, children⟩ := n
  cases payload <;> first | exact ⟨rfl, rfl⟩ | simp [Node.tag, Payload.tag, Tag.frameTags] at hn

theorem walkAll_resolver (env : Env) (shape : ProgramShape) :
    (resolver env).walkAll shape.statements = shape.nodes.forM (resolver env).enter := by
  refine Visitor.walkAll_eq_forM_nodes fun statement hstatement => Visitor.walk_eq_forM fun n hn =>
    ?_
  have htag := ProgramShape.tag_ne_program (List.mem_flatMap.mpr ⟨statement, hstatement, hn⟩)
  obtain ⟨id, payload, location, children⟩ := n
  cases payload <;> first | rfl | exact absurd rfl htag

/-- Walking a program resolves all of its calls. -/
theorem ensures_walk_resolver (henv : env.Of chunk) (hfields : FindsFields env.globals p)
    {shape : ProgramShape}
    (hids : (shape.nodes.map (·.id)).Nodup) (hs : s.bindings.programs[shape.frame.id]? = some p) :
    Ensures ((resolver env).walk shape.node) s
      (fun _ s' => (∀ n ∈ shape.nodes, Resolved env.globals chunk p s'.bindings n) ∧
        AgreeOff (shape.nodes.map (·.id)) s.bindings s'.bindings)
      (fun e _ => e.IsFailure ∧ ∃ n ∈ shape.nodes, ∀ b, ¬Resolved env.globals chunk p b n) := by
  have henter : (resolver env).enter shape.node = modify fun s =>
      { s with program? := s.bindings.program? shape.node } :=
    rfl
  have hleave : (resolver env).leave shape.node = modify fun s => { s with program? := none } := rfl
  have hkeys : (shape.nodes.flatMap fun n => [n.id]) = shape.nodes.map (·.id) :=
    List.flatMap_pure_eq_map ..
  rw [Visitor.walk_program shape fun n hn => resolver_inert env n (List.mem_cons_of_mem _ hn),
    henter, hleave, walkAll_resolver]
  simp only [ensures_bind, ensures_modify]
  -- the walk is a loop over nodes, each of which is bound under its own identity
  refine (ensures_forM_local State.bindings (fun n => [n.id]) (fun t => t.program? = some p)
    (fun b n => Resolved env.globals chunk p b n) (fun n e =>
      e.IsFailure ∧ ∀ b, ¬Resolved env.globals chunk p b n) (by rwa [hkeys]) hs ?_ ?_).mono ?_ ?_
  · intro n b b' ids hn hagree hid
    exact resolved_congr hn (hagree.known_eq n.id (hid n.id List.mem_cons_self))
  · intro n hn t ht
    refine (ensures_enter_resolver henv hfields (ProgramShape.tag_ne_program hn) ht).imp ?_
    rintro _ t' ⟨hprogram, hresolved⟩
    exact ⟨hprogram.trans ht, hresolved⟩
  · rintro _ t ⟨-, hresolved, hagree⟩
    rw [hkeys] at hagree
    exact ⟨hresolved, hagree⟩
  · rintro e _ ⟨n, hn, he, hunresolved⟩
    exact ⟨he, n, hn, hunresolved⟩

/-- A program of the file, with the procedure that has its calls. -/
structure Calling (g : Globals) (b : Bindings) (p : ProgramId) (shape : ProgramShape) : Prop where
  bound : b.programs[shape.frame.id]? = some p
  fields : FindsFields g p

/-- The identities of the procedures of a module are unique. -/
theorem nodup_procedures {m : ModuleShape} (h : m.node.UniqueIds) :
    (m.programs.flatMap fun shape => shape.nodes.map (·.id)).Nodup := by
  have hprogram (shape : ProgramShape) : (shape.nodes.map (·.id)).Sublist shape.node.ids := by
    have heq : shape.nodes.map (·.id) = Node.allIds shape.statements := List.map_flatMap
    rw [heq, Node.ids_eq, shape.children_node, Node.allIds_append, Node.allIds_cons, Node.ids_eq,
      shape.children_procedure, Node.allIds_append]
    refine List.Sublist.cons _ ((List.Sublist.trans ?_ (List.sublist_append_left _ _)).trans
      (List.sublist_append_right _ _))
    exact List.Sublist.cons _ (List.sublist_append_right _ _)
  refine h.sublist ?_
  rw [Node.ids_eq]
  refine List.Sublist.cons _ ?_
  change List.Sublist _ (Node.allIds (m.name :: m.programs.map ProgramShape.node))
  rw [Node.allIds_cons]
  refine List.Sublist.trans ?_ (List.sublist_append_right _ _)
  induction m.programs with
  | nil => exact .refl _
  | cons shape rest ih =>
    rw [List.flatMap_cons, List.map_cons, Node.allIds_cons]
    exact (hprogram shape).append ih

/-- Resolution binds all names of a module, or one of them cannot be bound. -/
theorem ensures_visit_resolver (henv : env.Of chunk) {m : ModuleShape} (hids : m.node.UniqueIds)
    (hcalling : ∀ shape ∈ m.programs, ∃ p, Calling env.globals s.bindings p shape) :
    Ensures ((resolver env).visit m.node) s
      (fun _ s' => s'.bindings.programs = s.bindings.programs ∧ ∀ shape ∈ m.programs, ∀ p,
        s.bindings.programs[shape.frame.id]? = some p →
          ∀ n ∈ shape.nodes, Resolved env.globals chunk p s'.bindings n)
      (fun e _ => e.IsFailure ∧ ∃ shape ∈ m.programs, ∃ p,
        s.bindings.programs[shape.frame.id]? = some p ∧
        ∃ n ∈ shape.nodes, ∀ b, ¬Resolved env.globals chunk p b n) := by
  have henter : (resolver env).enter m.node = pure () := rfl
  have hkeys := nodup_procedures hids
  rw [Visitor.visit_module m (fun n hn => resolver_inert env n (by simp_all)) rfl rfl, henter,
    pure_bind]
  -- no two programs write under the same identity
  refine (ensures_forM_local State.bindings (fun shape : ProgramShape => shape.nodes.map (·.id))
    (fun t => t.bindings.programs = s.bindings.programs)
    (fun b shape => ∀ p, s.bindings.programs[shape.frame.id]? = some p →
      ∀ n ∈ shape.nodes, Resolved env.globals chunk p b n)
    (fun shape e => e.IsFailure ∧ ∃ p, s.bindings.programs[shape.frame.id]? = some p ∧
      ∃ n ∈ shape.nodes, ∀ b, ¬Resolved env.globals chunk p b n) hkeys rfl ?_ ?_).mono ?_ ?_
  · intro shape b b' ids hresolved hagree hid p hp n hn
    exact resolved_congr (hresolved p hp n hn)
      (hagree.known_eq n.id (hid n.id (List.mem_map_of_mem hn)))
  · intro shape hshape t ht
    obtain ⟨p, hp⟩ := hcalling shape hshape
    have hnodup := (List.nodup_flatMap.mp hkeys).1 shape hshape
    refine (ensures_walk_resolver henv hp.fields hnodup (by rw [ht]; exact hp.bound)).mono ?_ ?_
    · rintro _ t' ⟨hresolved, hagree⟩
      refine ⟨hagree.programs_eq.trans ht, fun q hq => ?_, hagree⟩
      obtain rfl := Option.some.inj (hp.bound.symm.trans hq)
      exact hresolved
    · rintro e _ ⟨he, hunresolved⟩
      exact ⟨he, p, hp.bound, hunresolved⟩
  · rintro _ t ⟨hprograms, hresolved, -⟩
    exact ⟨hprograms, hresolved⟩
  · rintro e _ ⟨shape, hshape, he, hunresolved⟩
    exact ⟨he, shape, hshape, hunresolved⟩

/-! ### Argument types -/

/-- The type that an argument has, as far as names are bound. -/
def typeOf? (g : Globals) (b : Bindings) (a : Node) : Option ArgumentType :=
  match a.payload with
  | .callUsingId _ _ => (b.field? a).map fun f => .usage (g.field f).type
  | .numberLiteral _ => some .numericLiteral
  | .stringLiteral _ => some (.usage .display)
  | .callExpression =>
    (b.callee? a).bind fun q => (g.program q).returnings[0]?.map fun first =>
      .usage (g.field first).type
  | _ => none

/-- An argument whose names are bound. -/
structure BoundArgument (b : Bindings) (a : Node) : Prop where
  isArgument : IsArgument a
  field : ∀ name byContent, a.payload = .callUsingId name byContent → ∃ f, b.field? a = some f
  callee : a.payload = .callExpression → ∃ q, b.callee? a = some q

theorem ensures_argumentType (h : BoundArgument b a) :
    Ensures (argumentType env a) b (fun t b' => typeOf? env.globals b a = some t ∧ b' = b)
      (fun e _ => e.IsFailure ∧ typeOf? env.globals b a = none) := by
  unfold argumentType typeOf?
  rcases h with ⟨isArgument, hfield, hcallee⟩
  cases isArgument with
  | field id location name byContent =>
    obtain ⟨f, hf⟩ := hfield name byContent rfl
    simp only [hf, ensures_bind, ensures_get, ensures_require_some]
    exact ⟨rfl, rfl⟩
  | number | string => simp
  | call id location hid husings harguments =>
    obtain ⟨q, hq⟩ := hcallee rfl
    simp only [hq, ensures_bind, ensures_get, ensures_require_some, Option.bind_some]
    cases (env.globals.program q).returnings[0]? <;> simp

/-- Only the types differ. -/
def SameButTypes (b b' : Bindings) : Prop :=
  b' = { b with types := b'.types }

theorem SameButTypes.typeOf?_eq (h : SameButTypes b b') (g : Globals) (a : Node) :
    typeOf? g b' a = typeOf? g b a := by
  rw [h]
  rfl

/-- The type of an argument is noted, and it is the type that it has. -/
def Typed (g : Globals) (b b' : Bindings) (a : Node) : Prop :=
  ∃ t, typeOf? g b a = some t ∧ b'.type? a = some t

theorem typed_congr {b b' b'' : Bindings} (h : Typed g b b' a)
    (hknown : b''.known a.id = b'.known a.id) :
    Typed g b b'' a := by
  simp only [Bindings.known_node, Prod.mk.injEq] at hknown
  obtain ⟨t, ht, htype⟩ := h
  exact ⟨t, ht, hknown.2.2.1.trans htype⟩

theorem ensures_noteType {b c : Bindings} (h : BoundArgument b a) (hc : SameButTypes b c) :
    Ensures (noteType env a) c
      (fun _ c' => SameButTypes b c' ∧ Typed env.globals b c' a ∧ AgreeOff [a.id] c c')
      (fun e _ => e.IsFailure ∧ typeOf? env.globals b a = none) := by
  have hbound : BoundArgument c a := by
    rw [hc]
    exact ⟨h.isArgument, h.field, h.callee⟩
  unfold noteType
  rw [ensures_bind]
  refine (ensures_argumentType hbound).mono ?_ ?_
  · rintro t _ ⟨ht, rfl⟩
    rw [hc.typeOf?_eq] at ht
    refine ⟨?_, ⟨t, ht, ?_⟩, Bindings.agreeOff_setType ..⟩
    · rw [hc]
      rfl
    · exact (Bindings.type?_setType ..).trans (if_pos rfl)
  · rintro e _ ⟨he, hnone⟩
    rw [hc.typeOf?_eq] at hnone
    exact ⟨he, hnone⟩

/-- The walk that notes types. -/
def typer (env : Env) : Visitor Stop Bindings where
  enter := fun n =>
    match n.payload with
    | .callUsings => n.children.forM (noteType env)
    | _ => pure ()

theorem argumentTypes_eq (root : Node) : argumentTypes root = (do
    let run ← get
    onPart (·.bindings) (fun bindings run => { run with bindings })
      ((typer (Env.ofRun run)).visit root)
    pure root) := rfl

theorem usingsIds_of_payload (h : n.payload = .callUsings) :
    n.usingsIds = n.children.map (·.id) := by
  simp [Node.usingsIds, Node.is, Node.tag, h, Payload.tag]

/-- All arguments of a tree are given their types, or one has none. -/
theorem ensures_visit_typer {root : Node} (hids : root.UniqueIds)
    (hbound : ∀ n ∈ root.nodes, n.payload = .callUsings → ∀ a ∈ n.children, BoundArgument b a) :
    Ensures ((typer env).visit root) b
      (fun _ b' => SameButTypes b b' ∧
        ∀ n ∈ root.nodes, n.payload = .callUsings → ∀ a ∈ n.children, Typed env.globals b b' a)
      (fun e _ => e.IsFailure ∧
        ∃ n ∈ root.nodes, n.payload = .callUsings ∧ ∃ a ∈ n.children,
          typeOf? env.globals b a = none) := by
  have hkeys := hids.nodup_usingsIds
  have hwalk : (typer env).visit root = root.nodes.forM (typer env).enter := by
    rw [Visitor.visit, ← Visitor.walk_eq_forM fun _ _ => rfl]
    exact bind_pure_unit
  rw [hwalk]
  refine (ensures_forM_local id Node.usingsIds (SameButTypes b)
    (fun c n => n.payload = .callUsings → ∀ a ∈ n.children, Typed env.globals b c a) (fun n e =>
      e.IsFailure ∧ n.payload = .callUsings ∧ ∃ a ∈ n.children, typeOf? env.globals b a = none)
    hkeys (show SameButTypes b b from rfl) ?_ ?_).mono ?_ ?_
  · intro n c c' ids htyped hagree hid hn a ha
    refine typed_congr (htyped hn a ha) (hagree.known_eq a.id (hid a.id ?_))
    rw [usingsIds_of_payload hn]
    exact List.mem_map_of_mem ha
  · intro n hn c hc
    -- only the headings of arguments have something to be noted
    by_cases hpayload : n.payload = .callUsings
    · have henter : (typer env).enter n = n.children.forM (noteType env) := by
        simp only [typer, hpayload]
      have hids : (n.children.flatMap fun a => [a.id]) = n.usingsIds := by
        rw [usingsIds_of_payload hpayload]
        exact List.flatMap_pure_eq_map ..
      rw [henter]
      refine (ensures_forM_local id (fun a => [a.id]) (SameButTypes b) (fun c a => Typed env.globals
        b c a) (fun a e => e.IsFailure ∧ typeOf? env.globals b a = none) ?_ hc ?_ ?_).mono ?_ ?_
      · rw [hids]
        exact (List.nodup_flatMap.mp hkeys).1 n hn
      · intro a c c' ids htyped hagree hid
        exact typed_congr htyped (hagree.known_eq a.id (hid a.id List.mem_cons_self))
      · intro a ha c hc
        exact ensures_noteType (hbound n hn hpayload a ha) hc
      · rintro _ c' ⟨hc', htyped, hagree⟩
        rw [hids] at hagree
        exact ⟨hc', fun _ => htyped, hagree⟩
      · rintro e _ ⟨a, ha, he, hnone⟩
        exact ⟨he, hpayload, a, ha, hnone⟩
    · have henter : (typer env).enter n = pure () := by
        simp only [typer]
      rw [henter]
      exact ⟨hc, fun h => absurd h hpayload, .refl _ _⟩
  · rintro _ c ⟨hc, htyped, -⟩
    exact ⟨hc, htyped⟩
  · rintro e _ ⟨n, hn, he, hnone⟩
    exact ⟨he, n, hn, hnone⟩

/-! ### Signatures -/

/-- A call agrees with the signature of the program it calls. -/
structure Agrees (g : Globals) (b : Bindings) (c : Node) (q : ProgramId) : Prop where
  usings_length : c.arguments.length = (g.program q).usings.size
  returnings_le : (if c.is .callExpression then 1 else c.returnings.length) ≤
    (g.program q).returnings.size
  fits : ∀ pair ∈ c.arguments.zip (g.program q).usings.toList,
    ∃ t, b.type? pair.1 = some t ∧ t.fits (g.field pair.2).type = true
  accepts : ∀ pair ∈ c.returnings.zip (g.program q).returnings.toList,
    ∃ f, b.field? pair.1 = some f ∧ (g.field pair.2).type.accepts (g.field f).type = true

/-- A loop of checks succeeds if all of them do. -/
theorem ensures_forM_checks {α σ : Type} {f : α → EStateM Stop σ PUnit}
    {Q : α → Prop} {items : List α} {s : σ} (hstep : ∀ a ∈ items, Ensures (f a) s (fun _ t =>
      t = s ∧ Q a) (fun e _ => e.IsFailure ∧ ¬Q a)) :
    Ensures (items.forM f) s (fun _ t => t = s ∧ ∀ a ∈ items, Q a)
      (fun e _ => e.IsFailure ∧ ¬∀ a ∈ items, Q a) := by
  refine ensures_forM (fun done t => t = s ∧ ∀ a ∈ done, Q a) ⟨rfl, by simp⟩ ?_
  rintro done a rest t hsplit ⟨rfl, hdone⟩
  have ha : a ∈ items := by rw [hsplit]; simp
  refine (hstep a ha).mono ?_ ?_
  · rintro _ _ ⟨rfl, hQ⟩
    refine ⟨rfl, fun c hc => ?_⟩
    rcases List.mem_append.mp hc with hc | hc
    · exact hdone c hc
    · rw [List.mem_singleton.mp hc]
      exact hQ
  · rintro e _ ⟨he, hQ⟩
    exact ⟨he, fun hall => hQ (hall a ha)⟩

theorem map_pairs (g : Globals) (nodes : List Node) (fields : Array FieldId) :
    (pairs g nodes fields).map (·.2) = (nodes.zip fields.toList).map fun pair =>
      (pair.1, g.field pair.2) := by
  conv_rhs => rw [← List.zipIdx_map_fst 0 (nodes.zip fields.toList)]
  rw [pairs, List.map_map, List.map_map]
  rfl

theorem forall_pairs {nodes : List Node} {fields : Array FieldId} (Q : Node → Field → Prop) :
    (∀ x ∈ pairs g nodes fields, Q x.2.1 x.2.2) ↔ ∀ pair ∈ nodes.zip fields.toList,
      Q pair.1 (g.field pair.2) := by
  have hmap :=
    List.forall_mem_map (P := fun y => Q y.1 y.2) (f := fun x => x.2) (l := pairs g nodes fields)
  rw [map_pairs, List.forall_mem_map] at hmap
  exact hmap.symm

theorem ensures_checkArgument (env : Env) (home : String) (position : Nat) (param : Field)
    {t : ArgumentType} (ht : b.type? a = some t) :
    Ensures (checkArgument env home position a param) b
      (fun _ b' => b' = b ∧ ∃ t, b.type? a = some t ∧ t.fits param.type = true)
      (fun e _ => e.IsFailure ∧ ¬∃ t, b.type? a = some t ∧ t.fits param.type = true) := by
  unfold checkArgument
  simp only [ensures_bind, ensures_get, ensures_require_some, ht, Option.some.injEq,
    exists_eq_left']
  cases t.fits param.type <;> simp

theorem ensures_checkReturning (env : Env) (home : String) (position : Nat) (declared : Field)
    {target : Node} {f : FieldId} (hf : b.field? target = some f) :
    Ensures (checkReturning env home position target declared) b
      (fun _ b' => b' = b ∧
        ∃ f, b.field? target = some f ∧ declared.type.accepts (env.globals.field f).type = true)
      (fun e _ => e.IsFailure ∧
        ¬∃ f, b.field? target = some f ∧
          declared.type.accepts (env.globals.field f).type = true) := by
  unfold checkReturning
  simp only [ensures_bind, ensures_get, ensures_require_some, hf, Option.some.injEq,
    exists_eq_left']
  cases declared.type.accepts (env.globals.field f).type <;> simp

/-- The arguments are checked one by one. -/
theorem ensures_checkArguments (env : Env) (home : String) {arguments : List Node}
    (htypes : ∀ a ∈ arguments, ∃ t, b.type? a = some t) (usings : Array FieldId) :
    Ensures
      ((pairs env.globals arguments usings).forM fun x => checkArgument env home x.1 x.2.1 x.2.2) b
      (fun _ b' => b' = b ∧ ∀ pair ∈ arguments.zip usings.toList,
        ∃ t, b.type? pair.1 = some t ∧ t.fits (env.globals.field pair.2).type = true)
      (fun e _ => e.IsFailure ∧ ¬∀ pair ∈ arguments.zip usings.toList,
        ∃ t, b.type? pair.1 = some t ∧ t.fits (env.globals.field pair.2).type = true) := by
  rw [← forall_pairs fun a param => ∃ t, b.type? a = some t ∧ t.fits param.type = true]
  refine ensures_forM_checks fun x hx => ?_
  have hknown : ∀ x ∈ pairs env.globals arguments usings, ∃ t, b.type? x.2.1 = some t :=
    (forall_pairs fun a _ => ∃ t, b.type? a = some t).mpr fun pair hpair =>
      htypes pair.1 (List.of_mem_zip hpair).1
  obtain ⟨t, ht⟩ := hknown x hx
  exact ensures_checkArgument env home x.1 x.2.2 ht

/-- The fields that take results are checked one by one. -/
theorem ensures_checkReturnings (env : Env) (home : String) {targets : List Node}
    (htargets : ∀ t ∈ targets, ∃ f, b.field? t = some f) (returnings : Array FieldId) :
    Ensures ((pairs env.globals targets returnings).forM fun x =>
      checkReturning env home x.1 x.2.1 x.2.2) b
      (fun _ b' => b' = b ∧ ∀ pair ∈ targets.zip returnings.toList,
        ∃ f, b.field? pair.1 = some f ∧
          (env.globals.field pair.2).type.accepts (env.globals.field f).type = true)
      (fun e _ => e.IsFailure ∧ ¬∀ pair ∈ targets.zip returnings.toList,
        ∃ f, b.field? pair.1 = some f ∧
          (env.globals.field pair.2).type.accepts (env.globals.field f).type = true) := by
  rw [← forall_pairs fun t declared => ∃ f, b.field? t = some f ∧
    declared.type.accepts (env.globals.field f).type = true]
  refine ensures_forM_checks fun x hx => ?_
  have hknown : ∀ x ∈ pairs env.globals targets returnings, ∃ f, b.field? x.2.1 = some f :=
    (forall_pairs fun t _ => ∃ f, b.field? t = some f).mpr fun pair hpair =>
      htargets pair.1 (List.of_mem_zip hpair).1
  obtain ⟨f, hf⟩ := hknown x hx
  exact ensures_checkReturning env home x.1 x.2.2 hf

/-- Only the parameters differ. -/
def SameButParams (b b' : Bindings) : Prop :=
  b' = { b with params := b'.params }

/-- The arguments of a call know the usages of the parameters that take them. -/
def Passed (g : Globals) (b : Bindings) (c : Node) (q : ProgramId) : Prop :=
  ∀ pair ∈ c.arguments.zip (g.program q).usings.toList, b.param? pair.1 = some (g.field pair.2).type

/-- A call whose parts are all known. -/
structure KnownCall (b : Bindings) (c : Node) (q : ProgramId) : Prop where
  callee : b.callee? c = some q
  types : ∀ a ∈ c.arguments, ∃ t, b.type? a = some t
  targets : ∀ t ∈ c.returnings, ∃ f, b.field? t = some f

/-- The parameters of a call are noted for its arguments. -/
theorem ensures_setParams {c : Node} (hids : (c.arguments.map (·.id)).Nodup)
    (hlength : c.arguments.length = (env.globals.program q).usings.size) (hb : SameButParams b b')
    {err : Stop → Bindings → Prop} :
    Ensures ((pairs env.globals c.arguments (env.globals.program q).usings).forM fun x =>
        modify (·.setParam x.2.1 x.2.2.type)) b'
      (fun _ b'' => SameButParams b b'' ∧ Passed env.globals b'' c q ∧
        AgreeOff (c.arguments.map (·.id)) b' b'')
      err := by
  -- parameters are noted under the identities of the arguments, and there are as many of both
  have hkeys :
      ((pairs env.globals c.arguments (env.globals.program q).usings).flatMap fun x => [x.2.1.id]) =
      c.arguments.map (·.id) := by
    have hfirst : (c.arguments.zip (env.globals.program q).usings.toList).map Prod.fst =
        c.arguments :=
      List.map_fst_zip (by simp [hlength])
    calc
      (pairs env.globals c.arguments (env.globals.program q).usings).flatMap (fun x => [x.2.1.id])
      _ = ((pairs env.globals c.arguments (env.globals.program q).usings).map (·.2)).map
          (·.1.id) := by
        rw [List.map_map]
        exact List.flatMap_pure_eq_map ..
      _ = ((c.arguments.zip (env.globals.program q).usings.toList).map Prod.fst).map (·.id) := by
        rw [map_pairs, List.map_map, List.map_map]
        rfl
      _ = c.arguments.map (·.id) := by rw [hfirst]
  refine (ensures_forM_local id (fun x => [x.2.1.id]) (SameButParams b) (fun b x =>
    b.param? x.2.1 = some x.2.2.type) (fun _ _ => False) (by rwa [hkeys]) hb ?_ ?_).mono ?_ ?_
  · intro x b₁ b₂ ids hx hagree hid
    have hknown := hagree.known_eq x.2.1.id (hid _ List.mem_cons_self)
    simp only [Bindings.known_node, Prod.mk.injEq] at hknown
    exact hknown.2.2.2.trans hx
  · intro x hx b₁ hb₁
    refine ⟨?_, ?_, Bindings.agreeOff_setParam ..⟩
    · rw [hb₁]
      rfl
    · exact (Bindings.param?_setParam ..).trans (if_pos rfl)
  · rintro _ b'' ⟨hsame, hpassed, hagree⟩
    rw [hkeys] at hagree
    exact ⟨hsame, (forall_pairs fun a param => b''.param? a = some param.type).mp hpassed, hagree⟩
  · rintro e _ ⟨_, _, hfalse⟩
    exact hfalse.elim

/-- Checking a call compares it with the signature, and notes the parameters if it agrees. -/
theorem ensures_checkCall {c : Node} (hids : (c.arguments.map (·.id)).Nodup)
    (hknown : KnownCall b c q) (hb : SameButParams b b') :
    Ensures (checkCall env c) b'
      (fun _ b'' => SameButParams b b'' ∧ (Agrees env.globals b c q ∧ Passed env.globals b'' c q) ∧
        AgreeOff (c.arguments.map (·.id)) b' b'')
      (fun e _ => e.IsFailure ∧ ¬Agrees env.globals b c q) := by
  have hsame : (∀ n, b'.callee? n = b.callee? n) ∧ (∀ n, b'.type? n = b.type? n) ∧
      ∀ n, b'.field? n = b.field? n := by
    rw [hb]
    exact ⟨fun _ => rfl, fun _ => rfl, fun _ => rfl⟩
  obtain ⟨hcallee, htype, hfield⟩ := hsame
  unfold checkCall
  simp only [ensures_bind, ensures_get, ensures_require_some, hcallee, hknown.callee]
  -- four comparisons, in the order of the pass; where one fails, the call does not agree
  by_cases hlength : c.arguments.length = (env.globals.program q).usings.size
  swap
  · rw [if_pos hlength]
    exact ⟨isFailure_fault .., fun h => hlength h.usings_length⟩
  rw [if_neg (not_not_intro hlength)]
  by_cases hle : (if c.is .callExpression then 1 else c.returnings.length) ≤
    (env.globals.program q).returnings.size
  swap
  · rw [if_pos (Nat.lt_of_not_le hle)]
    exact ⟨isFailure_fault .., fun h => hle h.returnings_le⟩
  rw [if_neg (Nat.not_lt.mpr hle)]
  simp only [ensures_bind]
  refine (ensures_checkArguments env _ (fun a ha => by rw [htype]; exact hknown.types a ha) _).mono
    ?_ ?_
  swap
  · rintro e _ ⟨he, hfits⟩
    simp only [htype] at hfits
    exact ⟨he, fun h => hfits h.fits⟩
  rintro _ _ ⟨rfl, hfits⟩
  refine (ensures_checkReturnings env _ (fun t ht => by rw [hfield]; exact hknown.targets t ht)
    _).mono ?_ ?_
  swap
  · rintro e _ ⟨he, haccepts⟩
    simp only [hfield] at haccepts
    exact ⟨he, fun h => haccepts h.accepts⟩
  rintro _ _ ⟨rfl, haccepts⟩
  simp only [htype] at hfits
  simp only [hfield] at haccepts
  refine (ensures_setParams hids hlength hb).imp ?_
  rintro _ b'' ⟨hsame, hpassed, hagree⟩
  exact ⟨hsame, ⟨⟨hlength, hle, hfits, haccepts⟩, hpassed⟩, hagree⟩

/-- The walk that checks calls. -/
def checker (env : Env) : Visitor Stop Bindings where
  enter := fun n =>
    match n.payload with
    | .callStatement | .callExpression => checkCall env n
    | _ => pure ()

theorem check_eq (root : Node) : check root = (do
    let run ← get
    onPart (·.bindings) (fun bindings run => { run with bindings })
      ((checker (Env.ofRun run)).visit root)
    pure root) := rfl

/-- All calls of a tree are checked, or one does not agree with the signature. -/
theorem ensures_visit_checker {root : Node} (hids : root.UniqueIds) (hknown : ∀ c ∈ root.nodes,
      c.payload = .callStatement ∨ c.payload = .callExpression → ∃ q, KnownCall b c q) :
    Ensures ((checker env).visit root) b
      (fun _ b' => SameButParams b b' ∧
        ∀ c ∈ root.nodes, c.payload = .callStatement ∨ c.payload = .callExpression →
          ∀ q, KnownCall b c q → Agrees env.globals b c q ∧ Passed env.globals b' c q)
      (fun e _ => e.IsFailure ∧ ∃ c ∈ root.nodes,
        (c.payload = .callStatement ∨ c.payload = .callExpression) ∧
        ∃ q, KnownCall b c q ∧ ¬Agrees env.globals b c q) := by
  have hkeys := hids.nodup_arguments
  have hwalk : (checker env).visit root = root.nodes.forM (checker env).enter := by
    rw [Visitor.visit, ← Visitor.walk_eq_forM fun _ _ => rfl]
    exact bind_pure_unit
  rw [hwalk]
  refine (ensures_forM_local id (fun c => c.arguments.map (·.id)) (SameButParams b)
    (fun b' c => c.payload = .callStatement ∨ c.payload = .callExpression → ∀ q, KnownCall b c q →
      Agrees env.globals b c q ∧ Passed env.globals b' c q)
    (fun c e => e.IsFailure ∧ (c.payload = .callStatement ∨ c.payload = .callExpression) ∧
      ∃ q, KnownCall b c q ∧ ¬Agrees env.globals b c q)
    hkeys (show SameButParams b b from rfl) ?_ ?_).mono ?_ ?_
  · intro c b₁ b₂ ids hc hagree hid hcall q hq
    refine ⟨(hc hcall q hq).1, fun pair hpair => ?_⟩
    have hmem := List.mem_map_of_mem (f := fun a : Node => a.id) (List.of_mem_zip hpair).1
    have hknown := hagree.known_eq pair.1.id (hid _ hmem)
    simp only [Bindings.known_node, Prod.mk.injEq] at hknown
    exact hknown.2.2.2.trans ((hc hcall q hq).2 pair hpair)
  · intro c hc b₁ hb₁
    by_cases hcall : c.payload = .callStatement ∨ c.payload = .callExpression
    · have henter : (checker env).enter c = checkCall env c := by
        rcases hcall with hcall | hcall <;> simp only [checker, hcall]
      obtain ⟨q, hq⟩ := hknown c hc hcall
      rw [henter]
      refine (ensures_checkCall ((List.nodup_flatMap.mp hkeys).1 c hc) hq hb₁).mono ?_ ?_
      · rintro _ b₂ ⟨hsame, hagrees, hagree⟩
        refine ⟨hsame, fun _ q' hq' => ?_, hagree⟩
        obtain rfl := Option.some.inj (hq.callee.symm.trans hq'.callee)
        exact hagrees
      · rintro e _ ⟨he, hdisagrees⟩
        exact ⟨he, hcall, q, hq, hdisagrees⟩
    · have henter : (checker env).enter c = pure () := by
        rw [not_or] at hcall
        simp only [checker]
        split
        · next heq => exact absurd heq hcall.1
        · next heq => exact absurd heq hcall.2
        · rfl
      rw [henter]
      exact ⟨hb₁, fun h => absurd h hcall, .refl _ _⟩
  · rintro _ b' ⟨hb', hchecked, -⟩
    exact ⟨hb', hchecked⟩
  · rintro e _ ⟨c, hc, he, hdisagrees⟩
    exact ⟨he, c, hc, hdisagrees⟩

end CallSite

end CobolCompiler
