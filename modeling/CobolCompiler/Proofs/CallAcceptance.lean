import CobolCompiler.Proofs.CallPasses

/-!
# Accepted calls are the well-formed ones

What the call passes find out node by node is put together to the rules for whole calls. If the
passes succeed, every call is well-formed and everything about it is known (`Ready`); if they stop,
it is with a failure, and some call is not well-formed (`ensures_callPasses`).
-/

namespace CobolCompiler.CallSite

open Syntax

variable {env : Env} {chunk : ChunkId} {p q : ProgramId} {b b' : Bindings} {shape : ProgramShape}
  {a c n : Node}
variable {before m : ModuleShape} {g : Globals} {name : String} {run : Run} {t : Node}

/-! ### Nodes of procedures -/

theorem mem_nodes_of_call (hc : c ∈ shape.nodes) (hn : n ∈ c.nodes) : n ∈ shape.nodes := by
  obtain ⟨s, hs, hc⟩ := List.mem_flatMap.mp hc
  exact List.mem_flatMap.mpr ⟨s, hs, Node.nodes_trans hc hn⟩

/-- A node of a procedure without DISPLAY is a site of one of its statements. -/
theorem exists_site (hdisplay : ∀ s ∈ shape.statements, s.tag ≠ .displayStatement)
    (hn : n ∈ shape.nodes) :
    ∃ s ∈ shape.statements, IsStatement s ∧ SiteOf s n := by
  obtain ⟨s, hs, hn⟩ := List.mem_flatMap.mp hn
  have hstatement := shape.areStatements s hs
  exact ⟨s, hs, hstatement, hstatement.site (hdisplay s hs) hn⟩

theorem payload_of_call_tag (h : n.tag = .callStatement ∨ n.tag = .callExpression) :
    n.payload = .callStatement ∨ n.payload = .callExpression := by
  obtain ⟨id, payload, location, children⟩ := n
  cases payload <;> simp [Node.tag, Payload.tag] at h ⊢

/-- Nodes of the kinds of calls are calls. -/
theorem isCall_of_tag (hdisplay : ∀ s ∈ shape.statements, s.tag ≠ .displayStatement)
    (hn : n ∈ shape.nodes)
    (htag : n.tag = .callStatement ∨ n.tag = .callExpression) : IsCall n := by
  obtain ⟨s, -, -, hsite⟩ := exists_site hdisplay hn
  exact hsite.call (payload_of_call_tag htag)

/-- What occurs in procedures only. -/
def procedureTags : List Tag :=
  [.callStatement, .callExpression, .callUsings]

theorem not_mem_frame {ns : List Node} (h : ∀ k ∈ ns, ∀ m ∈ k.nodes, m.tag ∈ Tag.frameTags)
    (htag : n.tag ∈ procedureTags) : ∀ k ∈ ns, n ∉ k.nodes := by
  intro k hk hn
  have hdisjoint : ∀ tag ∈ procedureTags, tag ∉ Tag.frameTags := by decide
  exact hdisjoint n.tag htag (h k hk n hn)

theorem mem_procedure (hn : n ∈ shape.node.nodes) (htag : n.tag ∈ procedureTags) :
    n ∈ shape.nodes := by
  rcases Node.mem_nodes.mp hn with rfl | ⟨k, hk, hn⟩
  · exact absurd htag (show Tag.program ∉ procedureTags by decide)
  rw [shape.children_node] at hk
  rcases List.mem_append.mp hk with hk | hk
  · exact absurd hn (not_mem_frame shape.tags_head htag k hk)
  rcases List.mem_cons.mp hk with rfl | hk
  · rcases Node.mem_nodes.mp hn with rfl | ⟨k, hk, hn⟩
    · exact absurd htag (show Tag.procedureDivision ∉ procedureTags by decide)
    rw [shape.children_procedure] at hk
    rcases List.mem_append.mp hk with hk | hk
    · exact absurd hn (not_mem_frame shape.tags_parameters htag k hk)
    · exact List.mem_flatMap.mpr ⟨k, hk, hn⟩
  · exact absurd hn (not_mem_frame shape.tags_ends htag k hk)

theorem exists_procedure (hn : n ∈ m.node.nodes) (htag : n.tag ∈ procedureTags) :
    ∃ shape ∈ m.programs, n ∈ shape.nodes := by
  rcases Node.mem_nodes.mp hn with rfl | ⟨k, hk, hn⟩
  · exact absurd htag (show Tag.module ∉ procedureTags by decide)
  rcases List.mem_cons.mp hk with rfl | hk
  · have hname : ∀ k ∈ [m.name], ∀ m ∈ k.nodes, m.tag ∈ Tag.frameTags := by
      simpa using m.isName.tags (by decide)
    exact absurd hn (not_mem_frame hname htag m.name (List.mem_singleton_self _))
  obtain ⟨shape, hshape, rfl⟩ := List.mem_map.mp hk
  exact ⟨shape, hshape, mem_procedure hn htag⟩

theorem mem_program (hn : n ∈ shape.nodes) : n ∈ shape.node.nodes := by
  obtain ⟨s, hs, hn⟩ := List.mem_flatMap.mp hn
  have hprocedure : n ∈ (shape.frame.procedure shape.statements).nodes := by
    refine Node.mem_nodes_of_child ?_ hn
    rw [shape.children_procedure]
    exact List.mem_append_right _ hs
  refine Node.mem_nodes_of_child ?_ hprocedure
  rw [shape.children_node]
  simp

theorem mem_module (hshape : shape ∈ m.programs) (hn : n ∈ shape.nodes) : n ∈ m.node.nodes :=
  Node.mem_nodes_of_child (List.mem_cons_of_mem _ (List.mem_map_of_mem hshape)) (mem_program hn)

/-! ### Arguments -/

theorem hasField_unique (hfields : FindsFields env.globals p) {f f' : FieldId}
    (h : env.globals.HasField p name f) (h' : env.globals.HasField p name f') : f = f' :=
  Option.some.inj (((hfields name f).mpr h).symm.trans ((hfields name f').mpr h'))

/-- The type of an argument fits a parameter if the argument does. -/
theorem fits_iff (henv : env.Of chunk) (hfields : FindsFields env.globals p) (ha : IsArgument a)
    (hresolved : Resolved env.globals chunk p b a) {t : ArgumentType}
    (ht : typeOf? env.globals b a = some t)
    (param : Usage) : t.fits param = true ↔ Fits env.globals chunk p (Argument.ofNode a) param := by
  cases ha with
  | field id location name byContent =>
    obtain ⟨f, hf, hbound⟩ := hresolved
    obtain rfl : ArgumentType.usage (env.globals.field f).type = t := by
      simpa [typeOf?, hbound] using ht
    rw [ArgumentType.fits, Usage.accepts_iff, henv.consistent.field_type]
    constructor
    · exact fun hparam => .field hf hparam
    · intro hfits
      cases hfits with
      | field hf' hparam =>
        -- a name stands for one field only
        obtain rfl := hasField_unique hfields hf hf'
        exact hparam
  | number id location text =>
    obtain rfl : ArgumentType.numericLiteral = t := by simpa [typeOf?] using ht
    constructor
    · intro hparam
      exact .number (by cases param <;> simp_all [ArgumentType.fits])
    · intro hfits
      cases hfits with
      | number hparam => cases param <;> simp_all [ArgumentType.fits]
  | string id location text =>
    obtain rfl : ArgumentType.usage .display = t := by simpa [typeOf?] using ht
    rw [ArgumentType.fits, Usage.accepts_iff]
    constructor
    · intro hparam
      exact .string (by simpa [or_comm] using hparam)
    · intro hfits
      cases hfits with
      | string hparam => simpa [or_comm] using hparam
  | call id location hcallee husings harguments =>
    obtain ⟨⟨q, hq, hbound⟩, -⟩ := hresolved
    simp only [typeOf?, hbound, Option.bind_some, Option.map_eq_some_iff] at ht
    obtain ⟨first, hfirst, rfl⟩ := ht
    rw [ArgumentType.fits, Usage.accepts_iff, henv.consistent.field_type,
      Argument.ofNode_callExpression rfl]
    constructor
    · exact fun hparam => .call hq hfirst hparam
    · intro hfits
      cases hfits with
      | call hq' hfirst' hparam =>
        obtain rfl := names_unique henv hq hq'
        obtain rfl := Option.some.inj (hfirst.symm.trans hfirst')
        exact hparam

/-! ### Calls -/

/-- The name of a field that takes a result. -/
def targetText (t : Node) : String :=
  (targetName? t).getD ""

theorem filterMap_targetName? {targets : List Node} (h : ∀ t ∈ targets, IsTarget t) :
    targets.filterMap targetName? = targets.map targetText := by
  induction targets with
  | nil => rfl
  | cons t rest ih =>
    have hname : targetName? t = some (targetText t) := by
      cases h t List.mem_cons_self
      rfl
    rw [List.filterMap_cons_some hname, List.map_cons,
      ih fun u hu => h u (List.mem_cons_of_mem t hu)]

theorem targetText_payload (h : IsTarget t) : t.payload = .callReturningId (targetText t) := by
  cases h
  rfl

theorem fieldName?_payload (ha : IsArgument a) (h : (Argument.ofNode a).fieldName? = some name) :
    ∃ byContent, a.payload = .callUsingId name byContent := by
  cases ha with
  | field id location name' byContent =>
    obtain rfl : name' = name := by simpa [Argument.ofNode, Argument.fieldName?] using h
    exact ⟨byContent, rfl⟩
  | number | string | call => simp [Argument.ofNode, Argument.fieldName?] at h

/-- The names in a call are those in its arguments and results. -/
theorem mem_names_iff (hc : IsCall c) (name : String) :
    name ∈ (Call.ofNode c).names ↔
      (∃ a ∈ c.arguments, ∃ byContent, a.payload = .callUsingId name byContent) ∨
        ∃ t ∈ c.returnings, t.payload = .callReturningId name := by
  rw [Call.names, Call.ofNode, filterMap_targetName? hc.areTargets, List.mem_append]
  refine or_congr ?_ ?_
  · rw [List.mem_filterMap]
    constructor
    · rintro ⟨argument, hmem, hname⟩
      obtain ⟨a, ha, rfl⟩ := List.mem_map.mp hmem
      exact ⟨a, ha, fieldName?_payload (hc.areArguments a ha) hname⟩
    · rintro ⟨a, ha, byContent, hpayload⟩
      refine ⟨_, List.mem_map_of_mem ha, ?_⟩
      obtain ⟨id, payload, location, children⟩ := a
      subst hpayload
      simp [Argument.ofNode, Argument.fieldName?]
  · rw [List.mem_map]
    constructor
    · rintro ⟨t, ht, rfl⟩
      exact ⟨t, ht, targetText_payload (hc.areTargets t ht)⟩
    · rintro ⟨t, ht, hpayload⟩
      refine ⟨t, ht, ?_⟩
      rw [targetText, targetName?, hpayload]
      rfl

theorem requested_ofNode (hc : IsCall c) :
    (Call.ofNode c).requested = if c.is .callExpression then 1 else c.returnings.length := by
  rw [Call.ofNode, filterMap_targetName? hc.areTargets, List.length_map]

/-- A call of which all parts are resolved and typed. -/
structure ResolvedCall (env : Env) (chunk : ChunkId) (p : ProgramId) (b b' : Bindings)
    (c : Node) : Prop where
  isCall : IsCall c
  resolved : ∀ n ∈ c.nodes, Resolved env.globals chunk p b n
  typed : ∀ a ∈ c.arguments, Typed env.globals b b' a
  field?_eq : ∀ n, b'.field? n = b.field? n

namespace ResolvedCall

variable (h : ResolvedCall env chunk p b b' c) (henv : env.Of chunk)
  (hfields : FindsFields env.globals p)

include h

theorem callee : (∃ q, Names env.globals chunk (Callee.ofNode c) q ∧ b.callee? c = some q) ∧
    (Call.ofNode c).written.Nodup := by
  have hself := h.resolved c c.self_mem_nodes
  unfold Resolved at hself
  rcases h.isCall.payload_eq with hpayload | hpayload <;> rw [hpayload] at hself <;> exact hself

theorem target (ht : t ∈ c.returnings) :
    ∃ f, env.globals.HasField p (targetText t) f ∧ b'.field? t = some f := by
  have htarget := h.resolved t (Node.returning_mem_nodes ht)
  unfold Resolved at htarget
  rw [targetText_payload (h.isCall.areTargets t ht)] at htarget
  rw [h.field?_eq]
  exact htarget

theorem hasField (hname : name ∈ (Call.ofNode c).names) : ∃ f, env.globals.HasField p name f := by
  have hresolved {n : Node} (hn : n ∈ c.nodes) (hpayload : n.payload = .callReturningId name ∨
      ∃ byContent, n.payload = .callUsingId name byContent) :
      ∃ f, env.globals.HasField p name f := by
    have hfound := h.resolved n hn
    unfold Resolved at hfound
    rcases hpayload with hpayload | ⟨byContent, hpayload⟩ <;> rw [hpayload] at hfound <;>
      exact hfound.imp fun _ => And.left
  rcases (mem_names_iff h.isCall name).mp hname with ⟨a, ha, hpayload⟩ | ⟨t, ht, hpayload⟩
  · exact hresolved (Node.argument_mem_nodes ha) (Or.inr hpayload)
  · exact hresolved (Node.returning_mem_nodes ht) (Or.inl hpayload)

include henv hfields

theorem argument_iff {a : Node} (ha : a ∈ c.arguments) (param : Field)
    (hparam : param.type = param.usage) :
    (∃ t, b'.type? a = some t ∧ t.fits param.type = true) ↔
      Fits env.globals chunk p (Argument.ofNode a) param.usage := by
  obtain ⟨t, ht, hbound⟩ := h.typed a ha
  have hargument := h.resolved a (Node.argument_mem_nodes ha)
  rw [hparam, ← fits_iff henv hfields (h.isCall.areArguments a ha) hargument ht]
  simp [hbound]

theorem target_iff (ht : t ∈ c.returnings) (declared : Field)
    (hdeclared : declared.type = declared.usage) :
    (∃ f, b'.field? t = some f ∧ declared.type.accepts (env.globals.field f).type = true) ↔
      ∀ f, env.globals.HasField p (targetText t) f →
        declared.usage = .any ∨ declared.usage = (env.globals.field f).usage := by
  obtain ⟨f, hf, hbound⟩ := h.target ht
  simp only [hbound, Option.some.injEq, exists_eq_left', Usage.accepts_iff,
    henv.consistent.field_type, hdeclared]
  constructor
  · intro haccepts f' hf'
    obtain rfl := hasField_unique hfields hf hf'
    exact haccepts
  · exact fun haccepts => haccepts f hf

/-- Such a call agrees with a signature if it is well-formed. -/
theorem agrees_iff (hq : b.callee? c = some q) :
    Agrees env.globals b' c q ↔ (Call.ofNode c).WellFormed env.globals chunk p q := by
  have htype := henv.consistent.field_type
  obtain ⟨⟨q', hnames, hq'⟩, hdistinct⟩ := h.callee
  obtain rfl := Option.some.inj (hq'.symm.trans hq)
  have harguments : (Call.ofNode c).arguments = c.arguments.map Argument.ofNode := rfl
  have hreturnings : (Call.ofNode c).returnings = c.returnings.map targetText :=
    filterMap_targetName? h.isCall.areTargets
  constructor
  · intro hagrees
    refine ⟨hnames, fun name hname => h.hasField hname, hdistinct, ?_, ?_, ?_, ?_⟩
    · rw [harguments, List.length_map]
      exact hagrees.usings_length
    · rw [requested_ofNode h.isCall]
      exact hagrees.returnings_le
    · rw [harguments, List.zip_map_left, List.forall_mem_map]
      intro pair hpair
      exact (h.argument_iff henv hfields (List.of_mem_zip hpair).1 _ (htype _)).mp
        (hagrees.fits pair hpair)
    · rw [hreturnings, List.zip_map_left, List.forall_mem_map]
      intro pair hpair
      exact (h.target_iff henv hfields (List.of_mem_zip hpair).1 _ (htype _)).mp
        (hagrees.accepts pair hpair)
  · intro hwell
    have hfits := hwell.fits
    have haccepts := hwell.accepts
    rw [harguments, List.zip_map_left, List.forall_mem_map] at hfits
    rw [hreturnings, List.zip_map_left, List.forall_mem_map] at haccepts
    refine ⟨?_, ?_, ?_, ?_⟩
    · have hlength := hwell.usings_length
      rwa [harguments, List.length_map] at hlength
    · have hle := hwell.returnings_le
      rwa [requested_ofNode h.isCall] at hle
    · intro pair hpair
      exact (h.argument_iff henv hfields (List.of_mem_zip hpair).1 _ (htype _)).mpr
        (hfits pair hpair)
    · intro pair hpair
      exact (h.target_iff henv hfields (List.of_mem_zip hpair).1 _ (htype _)).mpr
        (haccepts pair hpair)

end ResolvedCall

/-! ### Calls that are refused -/

/-- Some call of a procedure is not well-formed. -/
def IllFormed (g : Globals) (chunk : ChunkId) (p : ProgramId) (shape : ProgramShape) : Prop :=
  ∃ c ∈ shape.nodes, IsCall c ∧ ∀ q, ¬(Call.ofNode c).WellFormed g chunk p q

/-- A name that cannot be bound belongs to a call that is not well-formed. -/
theorem illFormed_of_unresolved (hdisplay : ∀ s ∈ shape.statements, s.tag ≠ .displayStatement)
    (hn : n ∈ shape.nodes) (h : ∀ b, ¬Resolved g chunk p b n) : IllFormed g chunk p shape := by
  obtain ⟨s, hs, hstatement, hsite⟩ := exists_site hdisplay hn
  have hmem {c : Node} (hc : c ∈ s.nodes) : c ∈ shape.nodes := List.mem_flatMap.mpr ⟨s, hs, hc⟩
  -- if the call were well-formed, it would be resolved by binding it to the program that it names
  have hcall (hpayload : n.payload = .callStatement ∨ n.payload = .callExpression) :
      IllFormed g chunk p shape := by
    refine ⟨n, hn, hsite.call hpayload, fun q hq => h (Bindings.empty.bindCallee n q) ?_⟩
    have hresolved : (∃ q', Names g chunk (Callee.ofNode n) q' ∧
        (Bindings.empty.bindCallee n q).callee? n = some q') ∧ (Call.ofNode n).written.Nodup :=
      ⟨⟨q, hq.callee, by simp [Bindings.callee?_bindCallee]⟩, hq.distinct⟩
    unfold Resolved
    rcases hpayload with hpayload | hpayload <;> rw [hpayload] <;> exact hresolved
  -- so would a name in it, by binding it to the field that it stands for
  have hname {name : String} {c : Node} (hc : c ∈ s.nodes) (hcall : IsCall c)
      (hnames : name ∈ (Call.ofNode c).names) (hpayload : n.payload = .callReturningId name ∨
        ∃ byContent, n.payload = .callUsingId name byContent) : IllFormed g chunk p shape := by
    refine ⟨c, hmem hc, hcall, fun q hq => ?_⟩
    obtain ⟨f, hf⟩ := hq.fields name hnames
    apply h (Bindings.empty.bindField n f)
    have hbound : (Bindings.empty.bindField n f).field? n = some f := by
      simp [Bindings.field?_bindField]
    unfold Resolved
    rcases hpayload with hpayload | ⟨byContent, hpayload⟩ <;> rw [hpayload] <;>
      exact ⟨f, hf, hbound⟩
  cases hpayload : n.payload with
  | callStatement => exact hcall (Or.inl hpayload)
  | callExpression => exact hcall (Or.inr hpayload)
  | callUsingId name byContent =>
    rcases hsite.argument name byContent hpayload with rfl | ⟨c, hc, hcall, hn⟩
    · cases hstatement <;> cases hpayload
    · exact hname hc hcall ((mem_names_iff hcall name).mpr (Or.inl ⟨n, hn, byContent, hpayload⟩))
        (Or.inr ⟨byContent, hpayload⟩)
  | callReturningId name =>
    obtain ⟨c, hc, hcall, hn⟩ := hsite.target name hpayload
    exact hname hc hcall ((mem_names_iff hcall name).mpr (Or.inr ⟨n, hn, hpayload⟩))
      (Or.inl hpayload)
  | _ => exact absurd (show Resolved g chunk p .empty n by simp [Resolved, hpayload]) (h .empty)

/-- An argument that has no type is a call that is not well-formed, as it asks for a result and
there is none. -/
theorem illFormed_of_untyped (henv : env.Of chunk) (ha : IsArgument a) (hmem : a ∈ shape.nodes)
    (hresolved : Resolved env.globals chunk p b a) (h : typeOf? env.globals b a = none) :
    IllFormed env.globals chunk p shape := by
  cases ha with
  | field id location name byContent =>
    obtain ⟨f, -, hbound⟩ := hresolved
    simp [typeOf?, hbound] at h
  | number | string => simp [typeOf?] at h
  | call id location hcallee husings harguments =>
    have hcall := (IsArgument.call id location hcallee husings harguments).isCall rfl
    obtain ⟨⟨q, hq, hbound⟩, -⟩ := hresolved
    simp only [typeOf?, hbound, Option.bind_some, Option.map_eq_none_iff,
      Array.getElem?_eq_none_iff] at h
    refine ⟨_, hmem, hcall, fun q' hq' => ?_⟩
    obtain rfl := names_unique henv hq hq'.callee
    have hle := hq'.returnings_le
    rw [requested_ofNode hcall] at hle
    simp only [Node.is, Node.tag, Payload.tag, decide_true, if_true] at hle
    omega

/-! ### The passes -/

/-- A file whose declarations have been entered and whose DISPLAY statements have been lowered. -/
structure Lowered (run : Run) (chunk : ChunkId) (m : ModuleShape) : Prop where
  env : (Env.ofRun run).Of chunk
  unique : m.node.UniqueIds
  noDisplay : ∀ shape ∈ m.programs, ∀ s ∈ shape.statements, s.tag ≠ .displayStatement
  calling : ∀ shape ∈ m.programs, ∃ p, Calling run.globals run.bindings p shape

/-- All that the call passes find out about a node: its names are bound, and a call is well-formed
and its arguments know their parameters. -/
structure Ready (g : Globals) (chunk : ChunkId) (p : ProgramId) (b : Bindings)
    (n : Node) : Prop where
  resolved : Resolved g chunk p b n
  call : IsCall n → ∀ q, b.callee? n = some q → (Call.ofNode n).WellFormed g chunk p q ∧
    Passed g b n q

theorem Ready.exists_callee (h : Ready g chunk p b n) (hn : IsCall n) :
    ∃ q, b.callee? n = some q := by
  have hresolved := h.resolved
  unfold Resolved at hresolved
  rcases hn.payload_eq with hpayload | hpayload <;> rw [hpayload] at hresolved <;>
    exact hresolved.1.imp fun _ => And.right

/-- What the call passes leave of a run: they change bindings and what resolution remembers. -/
structure AfterCalls (chunk : ChunkId) (m : ModuleShape) (run : Run) (root : Node)
    (run' : Run) : Prop where
  root_eq : root = m.node
  run_eq : ∃ calling?, run' = { run with
    bindings := run'.bindings, memory := { run.memory with calling? := calling? } }
  programs_eq : run'.bindings.programs = run.bindings.programs
  ready : ∀ shape ∈ m.programs, ∀ p, run.bindings.programs[shape.frame.id]? = some p →
    ∀ n ∈ shape.nodes, Ready run.globals chunk p run'.bindings n

/-- The passes that look at calls, in their order. -/
def callPasses (root : Node) : RunM Node := do
  let root ← resolve root
  let root ← argumentTypes root
  check root

theorem boundArgument_of_resolved (ha : IsArgument a) (h : Resolved g chunk p b a) :
    BoundArgument b a where
  isArgument := ha
  field := by
    intro name byContent hpayload
    unfold Resolved at h
    rw [hpayload] at h
    exact h.imp fun _ => And.right
  callee := by
    intro hpayload
    unfold Resolved at h
    rw [hpayload] at h
    exact h.1.imp fun _ => And.right

namespace Lowered

variable {run : Run} {m : ModuleShape}

/-- What is under a heading of arguments is the arguments of a call. -/
theorem exists_call (h : Lowered run chunk m) (hn : n ∈ m.node.nodes)
    (hpayload : n.payload = .callUsings) :
    ∃ shape ∈ m.programs, ∃ c ∈ shape.nodes, IsCall c ∧ n.children = c.arguments := by
  obtain ⟨shape, hshape, hmem⟩ :=
    exists_procedure hn (by simp [Node.tag, hpayload, Payload.tag, procedureTags])
  obtain ⟨s, hs, -, hsite⟩ := exists_site (h.noDisplay shape hshape) hmem
  obtain ⟨c, hc, hcall, hchildren⟩ := hsite.usings hpayload
  exact ⟨shape, hshape, c, List.mem_flatMap.mpr ⟨s, hs, hc⟩, hcall, hchildren⟩

/-- Nodes of the kinds of calls are calls. -/
theorem isCall (h : Lowered run chunk m) (hc : c ∈ m.node.nodes)
    (hpayload : c.payload = .callStatement ∨ c.payload = .callExpression) :
    ∃ shape ∈ m.programs, c ∈ shape.nodes ∧ IsCall c := by
  have htag : c.tag ∈ procedureTags := by
    rcases hpayload with hpayload | hpayload <;> simp [Node.tag, hpayload, Payload.tag,
      procedureTags]
  obtain ⟨shape, hshape, hmem⟩ := exists_procedure hc htag
  obtain ⟨s, hs, -, hsite⟩ := exists_site (h.noDisplay shape hshape) hmem
  exact ⟨shape, hshape, hmem, hsite.call hpayload⟩

/-- The arguments of a call lie under a heading. -/
theorem exists_usings (hshape : shape ∈ m.programs) (hc : c ∈ shape.nodes) (ha : a ∈ c.arguments) :
    ∃ n ∈ m.node.nodes, n.payload = .callUsings ∧ a ∈ n.children := by
  simp only [Node.arguments, Node.childrenOf, List.mem_flatMap, List.mem_filter] at ha
  obtain ⟨n, ⟨hn, htag⟩, ha⟩ := ha
  refine ⟨n, mem_module hshape (mem_nodes_of_call hc (Node.child_mem_nodes hn)), ?_, ha⟩
  obtain ⟨id, payload, location, children⟩ := n
  cases payload <;> simp [Node.is, Node.tag, Payload.tag] at htag ⊢

/-- Every name of the file is bound. -/
def AllResolved (run : Run) (chunk : ChunkId) (m : ModuleShape) (b : Bindings) : Prop :=
  ∀ shape ∈ m.programs, ∀ p, run.bindings.programs[shape.frame.id]? = some p →
    ∀ n ∈ shape.nodes, Resolved run.globals chunk p b n

/-- Every argument of the file has its type. -/
def AllTyped (run : Run) (m : ModuleShape) (b b' : Bindings) : Prop :=
  ∀ n ∈ m.node.nodes, n.payload = .callUsings → ∀ a ∈ n.children, Typed run.globals b b' a

/-- Some call of the file is not well-formed. -/
def SomeIllFormed (run : Run) (chunk : ChunkId) (m : ModuleShape) : Prop :=
  ∃ shape ∈ m.programs, ∃ p, run.bindings.programs[shape.frame.id]? = some p ∧
    IllFormed run.globals chunk p shape

/-- Resolution binds every name, or some call is not well-formed. -/
theorem ensures_resolver (h : Lowered run chunk m) (calling? : Option ProgramId) :
    Ensures ((resolver (Env.ofRun run)).visit m.node) ⟨run.bindings, calling?⟩
      (fun _ s => s.bindings.programs = run.bindings.programs ∧ AllResolved run chunk m s.bindings)
      (fun e _ => e.IsFailure ∧ SomeIllFormed run chunk m) := by
  refine (ensures_visit_resolver (s := ⟨run.bindings, calling?⟩) h.env h.unique h.calling).mono
    (fun _ _ hs => hs) ?_
  rintro e _ ⟨he, shape, hshape, p, hp, n, hn, hunresolved⟩
  exact ⟨he, shape, hshape, p, hp,
    illFormed_of_unresolved (h.noDisplay shape hshape) hn hunresolved⟩

/-- Once names are bound, every argument gets its type, or some call is not well-formed. -/
theorem ensures_typer (h : Lowered run chunk m) (hresolved : AllResolved run chunk m b) :
    Ensures ((typer (Env.ofRun run)).visit m.node) b
      (fun _ b' => SameButTypes b b' ∧ AllTyped run m b b')
        (fun e _ => e.IsFailure ∧ SomeIllFormed run chunk m) := by
  have hargument : ∀ n ∈ m.node.nodes, n.payload = .callUsings → ∀ a ∈ n.children,
      ∃ shape ∈ m.programs, ∃ p, run.bindings.programs[shape.frame.id]? = some p ∧ a ∈ shape.nodes ∧
      IsArgument a ∧ Resolved run.globals chunk p b a := by
    intro n hn hpayload a ha
    obtain ⟨shape, hshape, c, hc, hcall, hchildren⟩ := h.exists_call hn hpayload
    obtain ⟨p, hp⟩ := h.calling shape hshape
    rw [hchildren] at ha
    have hmem := mem_nodes_of_call hc (Node.argument_mem_nodes ha)
    exact ⟨shape, hshape, p, hp.bound, hmem, hcall.areArguments a ha,
      hresolved shape hshape p hp.bound a hmem⟩
  refine (ensures_visit_typer h.unique ?_).mono (fun _ _ hb => hb) ?_
  · intro n hn hpayload a ha
    obtain ⟨_, _, _, _, _, hargument, hresolved⟩ := hargument n hn hpayload a ha
    exact boundArgument_of_resolved hargument hresolved
  · rintro e _ ⟨he, n, hn, hpayload, a, ha, hnone⟩
    obtain ⟨shape, hshape, p, hp, hmem, hargument, hresolved⟩ := hargument n hn hpayload a ha
    exact ⟨he, shape, hshape, p, hp, illFormed_of_untyped h.env hargument hmem hresolved hnone⟩

theorem resolvedCall (hresolved : AllResolved run chunk m b) (htyped : AllTyped run m b b')
    (hsame : SameButTypes b b') (hshape : shape ∈ m.programs)
    (hp : run.bindings.programs[shape.frame.id]? = some p)
    (hc : c ∈ shape.nodes) (hcall : IsCall c) : ResolvedCall (Env.ofRun run) chunk p b b' c where
  isCall := hcall
  resolved := fun n hn => hresolved shape hshape p hp n (mem_nodes_of_call hc hn)
  typed := by
    intro a ha
    obtain ⟨n, hn, hpayload, ha⟩ := exists_usings hshape hc ha
    exact htyped n hn hpayload a ha
  field?_eq := by
    intro n
    rw [hsame]
    rfl

/-- Once types are known, every call is well-formed and passes its arguments to parameters, or some
call is not. -/
theorem ensures_checker (h : Lowered run chunk m) (hresolved : AllResolved run chunk m b)
    (htyped : AllTyped run m b b') (hsame : SameButTypes b b') :
    Ensures ((checker (Env.ofRun run)).visit m.node) b'
      (fun _ b'' => SameButParams b' b'' ∧ ∀ shape ∈ m.programs, ∀ p,
        run.bindings.programs[shape.frame.id]? = some p → ∀ c ∈ shape.nodes, IsCall c →
          ∀ q, b.callee? c = some q →
          (Call.ofNode c).WellFormed run.globals chunk p q ∧ Passed run.globals b'' c q)
      (fun e _ => e.IsFailure ∧ SomeIllFormed run chunk m) := by
  have hcallee : ∀ n, b'.callee? n = b.callee? n := by
    intro n
    rw [hsame]
    rfl
  -- what resolving and typing have noted is what the check looks up
  have hknown {c : Node} {p q : ProgramId} (hc : ResolvedCall (Env.ofRun run) chunk p b b' c)
      (hq : b.callee? c = some q) : KnownCall b' c q := by
    refine ⟨(hcallee c).trans hq, fun a ha => ?_, fun t ht => ?_⟩
    · obtain ⟨type, -, htype⟩ := hc.typed a ha
      exact ⟨type, htype⟩
    · obtain ⟨f, -, hf⟩ := hc.target ht
      exact ⟨f, hf⟩
  refine (ensures_visit_checker h.unique ?_).mono ?_ ?_
  · intro c hc hpayload
    obtain ⟨shape, hshape, hmem, hcall⟩ := h.isCall hc hpayload
    obtain ⟨p, hp⟩ := h.calling shape hshape
    have hcall := resolvedCall hresolved htyped hsame hshape hp.bound hmem hcall
    obtain ⟨⟨q, -, hq⟩, -⟩ := hcall.callee
    exact ⟨q, hknown hcall hq⟩
  · rintro _ b'' ⟨hsame', hchecked⟩
    refine ⟨hsame', fun shape hshape p hp c hc hcall q hq => ?_⟩
    obtain ⟨p', hp'⟩ := h.calling shape hshape
    obtain rfl := Option.some.inj (hp'.bound.symm.trans hp)
    have hresolvedCall := resolvedCall hresolved htyped hsame hshape hp hc hcall
    obtain ⟨hagrees, hpassed⟩ :=
      hchecked c (mem_module hshape hc) hcall.payload_eq q (hknown hresolvedCall hq)
    exact ⟨(hresolvedCall.agrees_iff h.env hp'.fields hq).mp hagrees, hpassed⟩
  · rintro e _ ⟨he, c, hc, hpayload, q, hq, hdisagrees⟩
    obtain ⟨shape, hshape, hmem, hcall⟩ := h.isCall hc hpayload
    obtain ⟨p, hp⟩ := h.calling shape hshape
    have hresolvedCall := resolvedCall hresolved htyped hsame hshape hp.bound hmem hcall
    obtain ⟨⟨q', hnames, hq'⟩, -⟩ := hresolvedCall.callee
    obtain rfl := Option.some.inj ((hcallee c ▸ hq.callee).symm.trans hq')
    refine ⟨he, shape, hshape, p, hp.bound, c, hmem, hcall, fun q' hwell => ?_⟩
    obtain rfl := names_unique h.env hnames hwell.callee
    exact hdisagrees ((hresolvedCall.agrees_iff h.env hp.fields hq').mpr hwell)

end Lowered

/-- The call passes succeed and know all about every call, or they fail and some call is not
well-formed. -/
theorem ensures_callPasses (h : Lowered run chunk m) :
    Ensures (callPasses m.node) run (AfterCalls chunk m run)
      (fun e _ => e.IsFailure ∧ Lowered.SomeIllFormed run chunk m) := by
  unfold callPasses resolve Pass.ofWalk
  simp only [ensures_bind, ensures_get, ensures_onPart, ensures_pure, argumentTypes_eq, check_eq]
  refine (h.ensures_resolver run.memory.calling?).imp ?_
  rintro _ ⟨b, calling?⟩ ⟨hprograms, hresolved⟩
  refine (h.ensures_typer hresolved).imp ?_
  rintro _ b' ⟨hsame, htyped⟩
  refine (h.ensures_checker hresolved htyped hsame).imp ?_
  rintro _ b'' ⟨hsame', hcalls⟩
  have hlearned : b''.programs = b.programs ∧ b''.fields = b.fields ∧ b''.callees = b.callees := by
    rw [hsame', hsame]
    exact ⟨rfl, rfl, rfl⟩
  obtain ⟨hsamePrograms, hsameFields, hsameCallees⟩ := hlearned
  have hfield : ∀ n, b''.field? n = b.field? n := fun n => by rw [Bindings.field?, hsameFields]; rfl
  have hcallee : ∀ n, b''.callee? n = b.callee? n :=
    fun n => by rw [Bindings.callee?, hsameCallees]; rfl
  refine ⟨rfl, ⟨calling?, rfl⟩, hsamePrograms.trans hprograms, fun shape hshape p hp n hn => ?_⟩
  refine ⟨resolved_of_eq (hresolved shape hshape p hp n hn) (hfield n) (hcallee n),
    fun hcall q hq => ?_⟩
  exact hcalls shape hshape p hp n hn hcall q ((hcallee n).symm.trans hq)

/-! ### Files -/

/-- A file of which the declarations are entered and the DISPLAY statements are lowered, with the
numbers of its programs. -/
structure LoweredFile (before m : ModuleShape) (run : Run) (chunk : ChunkId)
    (ps : List ProgramId) : Prop where
  lowers : LowersModule before m
  lowered : Lowered run chunk m
  declared : Declaration.DeclaredRun run chunk ps (m.programs.map (·.frame))
  sound : run.Sound

theorem LowersModule.frames_eq (h : LowersModule before m) :
    m.programs.map (·.frame) = before.programs.map (·.frame) := by
  have hprograms := h.programs
  generalize before.programs = shapes, m.programs = shapes' at hprograms ⊢
  induction hprograms with
  | nil => rfl
  | cons hshape _ ih => rw [List.map_cons, List.map_cons, ih, hshape.frame_eq]

/-- Lowering a declared file succeeds. -/
theorem ensures_lowering {root : Node} {start run : Run}
    (h : Declaration.AfterDeclaring m start root run) :
    Ensures (lowerDisplay root) run
      (fun root' run' => ∃ m' chunk ps, root' = m'.node ∧ LoweredFile m.dropEnds m' run' chunk ps ∧
        run' = { run with nextId := run'.nextId })
      (fun _ _ => False) := by
  obtain ⟨chunk, ps, hdeclared⟩ := h.declared
  have hroot := h.root_eq
  subst hroot
  refine (ensures_lowerDisplay m.dropEnds run h.unique h.free).imp ?_
  rintro _ run' ⟨m', rfl, hlowers, hunique, hrun'⟩
  have hglobals : run'.globals = run.globals := by rw [hrun']
  have hbindings : run'.bindings = run.bindings := by rw [hrun']
  have hchunk? : run'.chunk? = run.chunk? := by rw [hrun']
  have hoptions : run'.options = run.options := by rw [hrun']
  -- lowering keeps the frames of programs, so everything is still declared
  have hdeclared' : Declaration.DeclaredRun run' chunk ps (m'.programs.map (·.frame)) := by
    refine ⟨hchunk?.trans hdeclared.chunk?_eq, ?_⟩
    rw [hoptions, hglobals, hbindings, hlowers.frames_eq]
    exact hdeclared.module
  refine ⟨m', chunk, ps, rfl, ⟨hlowers, ⟨⟨?_, ?_, ?_⟩, hunique, ?_, ?_⟩, hdeclared', ?_⟩, hrun'⟩
  · exact hdeclared'.chunk?_eq
  · intro name q
    change run'.globals.chunkProgram? chunk name = some q ↔ _
    rw [hdeclared'.module.chunkProgram?_iff, ← hdeclared'.module.programs_eq]
    rfl
  · exact (h.sound.of_eq hglobals hchunk?).consistent
  · intro shape hshape
    obtain ⟨_, _, hlowered⟩ := exists_of_forall₂_right hlowers.programs hshape
    exact hlowered.noDisplay
  · intro shape hshape
    obtain ⟨p, -, hp, hbound⟩ := hdeclared'.module.exists_program (List.mem_map_of_mem hshape)
    exact ⟨p, hbound, hp.fields.field?_iff⟩
  · exact h.sound.of_eq hglobals hchunk?

/-- A program of the file is the one that its chunk knows by its name. -/
theorem exists_program {ps : List ProgramId} (h : LoweredFile before m run chunk ps)
    (hshape : shape ∈ m.programs) :
    ∃ p ∈ (run.globals.chunk chunk).programs.toList, run.bindings.programs[shape.frame.id]? =
      some p ∧ ∀ q ∈ (run.globals.chunk chunk).programs.toList,
        (run.globals.program q).name = shape.node.name ↔ q = p := by
  have hmodule := h.declared.module
  obtain ⟨p, hp, hdeclared, hbound⟩ := hmodule.exists_program (List.mem_map_of_mem hshape)
  have hname : (run.globals.program p).name = shape.node.name := by
    rw [hdeclared.name_eq, ProgramShape.node, ProgramFrame.name_node]
  rw [hmodule.programs_eq]
  refine ⟨p, hp, hbound, fun q hq => ⟨fun hqname => ?_, fun heq => heq ▸ hname⟩⟩
  have hfound := (hmodule.chunkProgram?_iff shape.node.name q).mpr ⟨hq, hqname⟩
  exact Option.some.inj
    (hfound.symm.trans ((hmodule.chunkProgram?_iff shape.node.name p).mpr ⟨hp, hname⟩))

/-- The four passes from lowering to checking. -/
theorem runAll_callPasses (root : Node) :
    runAll ((Pass.core.drop 3).take 4) root = (do
      let root ← lowerDisplay root
      callPasses root) := by
  change (lowerDisplay root >>= fun root => resolve root >>= fun root =>
    argumentTypes root >>= fun root =>
    check root >>= pure) = _
  simp only [bind_pure]
  rfl

/-- In a lowered file the call passes succeed exactly if all calls are well-formed. -/
theorem callPasses_ok_iff {ps : List ProgramId} (h : LoweredFile before m run chunk ps) :
    (∃ root run', callPasses m.node run = .ok root run') ↔
      ∀ program ∈ programNodes m.node, ∃ p ∈ (run.globals.chunk chunk).programs.toList,
        (run.globals.program p).name = program.name ∧ ∀ c ∈ program.nodes,
          c.tag = .callStatement ∨ c.tag = .callExpression →
            ∃ q, (Call.ofNode c).WellFormed run.globals chunk p q := by
  have hensures := ensures_callPasses h.lowered
  rw [m.programNodes_node]
  constructor
  · rintro ⟨root, run', hok⟩ program hprogram
    obtain ⟨shape, hshape, rfl⟩ := List.mem_map.mp hprogram
    obtain ⟨p, hp, hbound, hname⟩ := exists_program h hshape
    refine ⟨p, hp, (hname p hp).mpr rfl, fun c hc htag => ?_⟩
    have hmem := mem_procedure hc (by rcases htag with htag | htag <;> simp [htag, procedureTags])
    have hcall := (isCall_of_tag (h.lowered.noDisplay shape hshape) hmem htag)
    have hready := (hensures.of_ok hok).ready shape hshape p hbound c hmem
    obtain ⟨q, hq⟩ := hready.exists_callee hcall
    exact ⟨q, (hready.call hcall q hq).1⟩
  · intro hall
    cases hresult : callPasses m.node run with
    | ok root run' => exact ⟨root, run', rfl⟩
    | error e run' =>
      -- a pass that stops has come to a call that is not well-formed
      obtain ⟨-, shape, hshape, p, hbound, c, hc, hcall, hill⟩ := hensures.of_error hresult
      obtain ⟨p', hp', hbound', hname⟩ := exists_program h hshape
      obtain ⟨p'', hp'', hname'', hwell⟩ := hall shape.node (List.mem_map_of_mem hshape)
      obtain rfl := (hname p'' hp'').mp hname''
      obtain rfl := Option.some.inj (hbound.symm.trans hbound')
      obtain ⟨q, hq⟩ := hwell c (mem_program hc)
        (hcall.payload_eq.imp (congrArg Payload.tag) (congrArg Payload.tag))
      exact (hill q hq).elim

/-- The passes on calls accept exactly the files in which every call is well-formed. This holds in
every reachable session and for every grammatical module whose declarations were entered; a call is
looked at in the program that it stands in and after DISPLAY statements were written as calls. -/
theorem calls_accepted_iff_wellFormed {s : Session} (hs : s.Reachable) {root : Node}
    (hgrammar : root.grammatical = true) (hmodule : root.tag = .module) (name : String)
    (output? : Option String) {declared : Node} {run : Run}
    (hdeclared : runAll (Pass.core.take 3) (root.renumber 0).1
      (s.beginRun name output? (root.renumber 0).2) = .ok declared run) :
    ∃ chunk lowered run', run.chunk? = some chunk ∧ lowerDisplay declared run = .ok lowered run' ∧
      ((∃ checked run'', runAll ((Pass.core.drop 3).take 4) declared run =
          .ok checked run'') ↔
        ∀ program ∈ programNodes lowered, ∃ p ∈ (run.globals.chunk chunk).programs.toList,
          (run.globals.program p).name = program.name ∧ ∀ c ∈ program.nodes,
            c.tag = .callStatement ∨ c.tag = .callExpression →
              ∃ q, (Call.ofNode c).WellFormed run.globals chunk p q) := by
  obtain ⟨m, hm, hnumbered⟩ := Declaration.exists_numbered hs.sound hgrammar hmodule name output?
  rw [hm] at hdeclared
  have hafter := (Declaration.ensures_declaring hnumbered).of_ok hdeclared
  obtain ⟨lowered, run', hlowered, m', chunk, ps, rfl, hfile, hrun'⟩ :=
    (ensures_lowering hafter).exists_ok
  have hglobals : run'.globals = run.globals := by rw [hrun']
  have hchunk : run.chunk? = some chunk := by
    have hchunk' := hfile.declared.chunk?_eq
    rw [hrun'] at hchunk'
    exact hchunk'
  have hpasses : runAll ((Pass.core.drop 3).take 4) declared run =
      callPasses m'.node run' := by
    rw [runAll_callPasses]
    change EStateM.bind (lowerDisplay declared) callPasses run = _
    rw [EStateM.bind, hlowered]
  refine ⟨chunk, m'.node, run', hchunk, hlowered, ?_⟩
  rw [hpasses, callPasses_ok_iff hfile, hglobals]

/-- In the sample module all calls are accepted, so they are well-formed. -/
theorem sampleModule_calls_wellFormed :
    ∃ declared run chunk lowered run',
      runAll (Pass.core.take 3) (Node.sampleModule.renumber 0).1
        ((Session.start {} .empty).beginRun "SAMPLE.cbl" none (Node.sampleModule.renumber 0).2) =
          .ok declared run ∧
      run.chunk? = some chunk ∧ lowerDisplay declared run = .ok lowered run' ∧
      ∀ program ∈ programNodes lowered, ∃ p ∈ (run.globals.chunk chunk).programs.toList,
        (run.globals.program p).name = program.name ∧ ∀ c ∈ program.nodes,
          c.tag = .callStatement ∨ c.tag = .callExpression →
            ∃ q, (Call.ofNode c).WellFormed run.globals chunk p q := by
  have hanswers : answers (runAll (Pass.core.take 3)
      (Node.sampleModule.renumber 0).1 >>= runAll ((Pass.core.drop 3).take 4))
      ((Session.start {} .empty).beginRun "SAMPLE.cbl" none (Node.sampleModule.renumber 0).2) =
      true := by
    decide +kernel
  obtain ⟨declared, run, hdeclared, hrest⟩ := exists_of_answers_bind hanswers
  obtain ⟨chunk, lowered, run', hchunk, hlowered, hiff⟩ :=
    calls_accepted_iff_wellFormed (Session.Reachable.start {} .empty)
    (show Node.sampleModule.grammatical = true by decide +kernel) (by decide)
    "SAMPLE.cbl" none hdeclared
  exact ⟨declared, run, chunk, lowered, run', hdeclared, hchunk, hlowered,
    hiff.mp (exists_of_answers hrest)⟩

open Build

/-- A program that calls one that is not there. -/
def missingCalleeModule : Node :=
  Build.module "STOCK" [
    program "ADD" [
      leaf .exportMark,
      node .dataDivision [node .linkageSection [field 1 "STEP" [leaf (.usage .any)]]],
      procedure ["STEP"] [] [call "MISSING" none [] []]]]

/-- The session in which resolving the call stopped. -/
def missingCalleeSession : Session :=
  Session.after (Session.compileSource (fun _ _ _ => .ok missingCalleeModule) [] "STOCK.cbl" none)
    (.start {} .empty)

/-- A call that stands in no program. -/
def loneCall : Node :=
  call "ADD" (some "STOCK") [leaf (.callUsingId "STEP" false)] []

/-- Without a module at the root of the tree, the program in which resolving stopped before is still
taken for the calling one: a call is accepted with one of the fields of that program, though there
is no program around it. -/
theorem loneCall_accepted :
    missingCalleeSession.Reachable ∧ loneCall.grammatical = true ∧ ∃ declared run,
      runAll (Pass.core.take 3) (loneCall.renumber 0).1
        (missingCalleeSession.beginRun "CALL.cbl" none (loneCall.renumber 0).2) = .ok declared run ∧
      declared.tag = .callStatement ∧ (Call.ofNode declared).names = ["STEP"] ∧
        (∀ n ∈ declared.nodes, n.tag ≠ .program) ∧
      ∃ checked run', runAll ((Pass.core.drop 3).take 4) declared run =
        .ok checked run' := by
  have hreachable : missingCalleeSession.Reachable :=
    .compiled (.start {} .empty) _ [] "STOCK.cbl" none
  have hanswers : answers (runAll (Pass.core.take 3) (loneCall.renumber 0).1 >>=
      runAll ((Pass.core.drop 3).take 4))
      (missingCalleeSession.beginRun "CALL.cbl" none (loneCall.renumber 0).2) = true := by
    decide +kernel
  have hparts : (answerOf? (runAll (Pass.core.take 3) (loneCall.renumber 0).1)
      (missingCalleeSession.beginRun "CALL.cbl" none (loneCall.renumber 0).2)).map
        (fun n => (n.tag, (Call.ofNode n).names, n.nodes.all (·.tag != .program))) =
          some (.callStatement, ["STEP"], true) := by
    decide +kernel
  obtain ⟨declared, run, hdeclared, hrest⟩ := exists_of_answers_bind hanswers
  rw [answerOf?, hdeclared] at hparts
  obtain ⟨htag, hnames, hnodes⟩ := by simpa using hparts
  exact ⟨hreachable, by decide +kernel, declared, run, hdeclared, htag, hnames, hnodes,
    exists_of_answers hrest⟩

end CobolCompiler.CallSite
