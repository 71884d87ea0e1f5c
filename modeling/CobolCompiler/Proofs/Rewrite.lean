import CobolCompiler.Proofs.Syntax

/-!
# Rewriting trees

Three passes replace the tree: one drops the end markers, one turns DISPLAY statements into calls,
and one reverses argument lists. All of them leave the frames of programs as they are, so what they
do to a module is said on its shape.

* `ensures_endMarkers`: the end markers are gone, or the pass fails.
* `ensures_lowerDisplay`: the pass succeeds, there are no DISPLAY statements left, the syntax is
  that of the lowered programs, and identities are still unique.
* `ensures_reverseArguments`: the pass succeeds, and all argument lists are reversed.
-/

namespace CobolCompiler

variable {n : Node} {s : Node}

/-! ### The kinds of nodes in a program -/

namespace Tag

/-- What occurs in an argument. -/
def expressionTags : List Tag :=
  [.callExpression, .callId, .callIdModule, .callIdProgram, .callUsings, .callUsingId,
    .numberLiteral, .stringLiteral]

/-- What occurs below a statement. -/
def innerTags : List Tag :=
  .callReturnings :: .callReturningId :: expressionTags

/-- What occurs in a statement. -/
def callTags : List Tag :=
  statementTags ++ innerTags

/-- What occurs around the procedure of a program and at its head. -/
def frameTags : List Tag :=
  [.identifier, .exportMark, .dataDivision, .workingStorageSection, .linkageSection, .field, .level,
    .picture, .usage, .numberLiteral, .stringLiteral, .procedureUsings, .procedureReturnings,
    .endProgram]

end Tag

theorem tags_of_leaf {tags : List Tag} (hleaf : n.children = []) (htag : n.tag ∈ tags) :
    ∀ m ∈ n.nodes, m.tag ∈ tags := by
  intro m hm
  rcases Node.mem_nodes.mp hm with rfl | ⟨c, hc, _⟩
  · exact htag
  · rw [hleaf] at hc
    cases hc

theorem Under.tags {heading : Payload} {nodes children : List Node} {tags : List Tag}
    (h : Under heading nodes children) (hheading : heading.tag ∈ tags)
    (hchildren : ∀ c ∈ children, ∀ m ∈ c.nodes, m.tag ∈ tags) :
    ∀ n ∈ nodes, ∀ m ∈ n.nodes, m.tag ∈ tags := by
  cases h with
  | absent => simp
  | present id location =>
    intro n hn m hm
    obtain rfl := List.mem_singleton.mp hn
    rcases Node.mem_nodes.mp hm with rfl | ⟨c, hc, hm⟩
    · exact hheading
    · exact hchildren c hc m hm

theorem IsName.tags {tags : List Tag} (h : IsName n) (htags : .identifier ∈ tags) :
    ∀ m ∈ n.nodes, m.tag ∈ tags := by
  cases h
  exact tags_of_leaf rfl htags

theorem IsField.tags (h : IsField n) : ∀ m ∈ n.nodes, m.tag ∈ Tag.frameTags := by
  cases h with
  | intro id location hclauses =>
    intro m hm
    rcases Node.mem_nodes.mp hm with rfl | ⟨c, hc, hm⟩
    · simp [Node.tag, Payload.tag, Tag.frameTags]
    · obtain ⟨hleaf, htag⟩ := hclauses c hc
      have hsub : [Tag.level, .identifier, .picture, .usage, .numberLiteral, .stringLiteral] ⊆
          Tag.frameTags := by
        decide
      exact tags_of_leaf hleaf (hsub htag) m hm

theorem IsCallId.tags (h : IsCallId n) : ∀ m ∈ n.nodes, m.tag ∈ Tag.expressionTags := by
  cases h <;> simp [Node.nodes_eq, Node.tag, Payload.tag, Tag.expressionTags]

theorem IsTarget.tags (h : IsTarget n) : ∀ m ∈ n.nodes, m.tag ∈ Tag.innerTags := by
  cases h
  exact tags_of_leaf rfl (by simp [Node.tag, Payload.tag, Tag.innerTags])

theorem IsArgument.tags (h : IsArgument n) : ∀ m ∈ n.nodes, m.tag ∈ Tag.expressionTags := by
  induction h with
  | field | number | string =>
    exact tags_of_leaf rfl (by simp [Node.tag, Payload.tag, Tag.expressionTags])
  | call id location hcallee husings harguments ih =>
    intro m hm
    rcases Node.mem_nodes.mp hm with rfl | ⟨c, hc, hmem⟩
    · simp [Node.tag, Payload.tag, Tag.expressionTags]
    · rcases List.mem_cons.mp hc with rfl | hc
      · exact hcallee.tags m hmem
      · exact husings.tags (by simp [Payload.tag, Tag.expressionTags]) ih c hc m hmem

/-- Statements do not occur inside of statements. -/
theorem IsStatement.tags_below {s c : Node} (h : IsStatement s) (hc : c ∈ s.children) :
    ∀ m ∈ c.nodes, m.tag ∈ Tag.innerTags := by
  have hexpression : Tag.expressionTags ⊆ Tag.innerTags := by decide
  cases h with
  | call id location hcallee husings harguments hreturnings htargets =>
    rcases List.mem_cons.mp hc with rfl | hc
    · exact fun m hm => hexpression (hcallee.tags m hm)
    · rcases List.mem_append.mp hc with hc | hc
      · exact husings.tags (by decide) (fun a ha m hm => hexpression ((harguments a ha).tags m hm))
          c hc
      · exact hreturnings.tags (by decide) (fun t ht => (htargets t ht).tags) c hc
  | display id location hoperands => exact fun m hm => hexpression ((hoperands c hc).tags m hm)
  | goback => cases hc

theorem IsStatement.tags (h : IsStatement s) : ∀ m ∈ s.nodes, m.tag ∈ Tag.callTags := by
  intro m hm
  rcases Node.mem_nodes.mp hm with rfl | ⟨c, hc, hmem⟩
  · exact List.mem_append_left _ h.tag_mem
  · exact List.mem_append_right _ (h.tags_below hc m hmem)

theorem IsData.tags {data working linkage : List Node} (h : IsData data working linkage)
    (hworking : ∀ f ∈ working, IsField f) (hlinkage : ∀ f ∈ linkage, IsField f) :
    ∀ n ∈ data, ∀ m ∈ n.nodes, m.tag ∈ Tag.frameTags := by
  cases h with
  | absent => simp
  | present id location hworkings hlinkages =>
    intro n hn m hm
    obtain rfl := List.mem_singleton.mp hn
    rcases Node.mem_nodes.mp hm with rfl | ⟨c, hc, hm⟩
    · simp [Node.tag, Payload.tag, Tag.frameTags]
    · rcases List.mem_append.mp hc with hc | hc
      · exact hworkings.tags (by simp [Payload.tag, Tag.frameTags])
          (fun f hf => (hworking f hf).tags) c hc m hm
      · exact hlinkages.tags (by simp [Payload.tag, Tag.frameTags])
          (fun f hf => (hlinkage f hf).tags) c hc m hm

namespace ProgramShape

/-- What stands before the procedure division. -/
def head (p : ProgramShape) : List Node :=
  p.frame.name :: (p.frame.exports ++ p.frame.data)

/-- What stands before the statements in the procedure division. -/
def parameters (p : ProgramShape) : List Node :=
  p.frame.usingsNodes ++ p.frame.returningsNodes

theorem tags_head (p : ProgramShape) : ∀ n ∈ p.head, ∀ m ∈ n.nodes, m.tag ∈ Tag.frameTags := by
  intro n hn m hm
  rcases List.mem_cons.mp hn with rfl | hn
  · exact p.frame.isName.tags (by decide) m hm
  · rcases List.mem_append.mp hn with hn | hn
    · exact p.frame.isExport.tags (by simp [Payload.tag, Tag.frameTags]) (by simp) n hn m hm
    · exact p.frame.isData.tags p.frame.isWorking p.frame.isLinkage n hn m hm

theorem tags_parameters (p : ProgramShape) :
    ∀ n ∈ p.parameters, ∀ m ∈ n.nodes, m.tag ∈ Tag.frameTags := by
  intro n hn m hm
  rcases List.mem_append.mp hn with hn | hn
  · exact p.frame.isUsings.tags (by simp [Payload.tag, Tag.frameTags])
      (fun u hu => (p.frame.areUsings u hu).tags (by decide)) n hn m hm
  · exact p.frame.isReturnings.tags (by simp [Payload.tag, Tag.frameTags])
      (fun r hr => (p.frame.areReturnings r hr).tags (by decide)) n hn m hm

theorem tag_ends (p : ProgramShape) : ∀ n ∈ p.ends, n.tag = .endProgram := by
  obtain ⟨marker, hends⟩ := p.areEnds
  exact hends.tag_eq

theorem tags_ends (p : ProgramShape) : ∀ n ∈ p.ends, ∀ m ∈ n.nodes, m.tag ∈ Tag.frameTags := by
  obtain ⟨marker, hends⟩ := p.areEnds
  exact hends.tags (by simp [Payload.tag, Tag.frameTags]) (by simp)

theorem children_node (p : ProgramShape) :
    p.node.children = p.head ++ p.frame.procedure p.statements :: p.ends := by
  simp [node, ProgramFrame.node, head]

theorem children_procedure (p : ProgramShape) :
    (p.frame.procedure p.statements).children = p.parameters ++ p.statements := by
  simp [ProgramFrame.procedure, parameters]

end ProgramShape

/-! ### Walking a module -/

namespace Visitor

variable {ε σ : Type} {v : Visitor ε σ}

/-- Nothing is done at nodes of some kinds. -/
def InertOn (v : Visitor ε σ) (tags : List Tag) : Prop :=
  ∀ n : Node, n.tag ∈ tags → v.enter n = pure () ∧ v.leave n = pure ()

theorem InertOn.walkAll {tags : List Tag} (h : v.InertOn tags) {ns : List Node}
    (hns : ∀ n ∈ ns, ∀ m ∈ n.nodes, m.tag ∈ tags) : v.walkAll ns = pure () :=
  walkAll_inert fun n hn m hm => h m (hns n hn m hm)

/-- Of the parts of a module, the walk is interested in its programs only. -/
theorem walkAll_module (m : ModuleShape) (hname : v.InertOn [.identifier]) :
    v.walkAll m.node.children = m.programs.forM fun p => v.walk p.node := by
  have hinert : v.walkAll [m.name] = pure () := by
    refine hname.walkAll fun n hn => ?_
    rw [List.mem_singleton.mp hn]
    exact m.isName.tags (by decide)
  change v.walkAll ([m.name] ++ m.programs.map ProgramShape.node) = _
  rw [walkAll_append, hinert, pure_bind, walkAll_map]

/-- The walk of a module is a loop over its programs. -/
theorem visit_module (m : ModuleShape) (hname : v.InertOn [.identifier])
    (hleave : v.leave m.node = pure ()) (hfinish : v.finish = pure ()) :
    v.visit m.node = (do v.enter m.node; m.programs.forM fun p => v.walk p.node) := by
  rw [visit, hfinish, bind_pure_unit, walk_of_leave hleave, walkAll_module m hname]

/-- The walk of a program is that of its statements, if nothing is done around them. -/
theorem walk_program (p : ProgramShape) (hframe : v.InertOn (.procedureDivision :: Tag.frameTags)) :
    v.walk p.node = (do v.enter p.node; v.walkAll p.statements; v.leave p.node) := by
  have hinert {ns : List Node} (h : ∀ n ∈ ns, ∀ m ∈ n.nodes, m.tag ∈ Tag.frameTags) :
      v.walkAll ns = pure () :=
    hframe.walkAll fun n hn m hm => List.mem_cons_of_mem _ (h n hn m hm)
  have hprocedure : v.walk (p.frame.procedure p.statements) = v.walkAll p.statements := by
    obtain ⟨henter, hleave⟩ := hframe (p.frame.procedure p.statements) List.mem_cons_self
    rw [walk_of_leave hleave, henter, pure_bind, p.children_procedure, walkAll_append,
      hinert p.tags_parameters, pure_bind]
  rw [walk_eq, p.children_node, walkAll_append, walkAll_cons, hinert p.tags_head,
    hinert p.tags_ends, hprocedure]
  simp only [pure_bind, bind_pure_unit]

end Visitor

/-! ### Identities -/

/-- One if a number is in a range, and zero if not. -/
def within (lo hi x : Nat) : Nat :=
  if lo ≤ x ∧ x < hi then 1 else 0

theorem within_self (lo x : Nat) : within lo lo x = 0 := by
  unfold within
  split
  · omega
  · rfl

theorem within_succ (lo x : Nat) : within lo (lo + 1) x = if lo = x then 1 else 0 := by
  unfold within
  by_cases h : lo = x
  · rw [if_pos (by omega), if_pos h]
  · rw [if_neg (by omega), if_neg h]

/-- Two ranges that touch are one range. -/
theorem within_add {lo mid hi : Nat} (hlo : lo ≤ mid) (hhi : mid ≤ hi) (x : Nat) :
    within lo mid x + within mid hi x = within lo hi x := by
  unfold within
  by_cases hx : x < mid
  · rw [if_neg (show ¬(mid ≤ x ∧ x < hi) by omega)]
    exact if_congr (by omega) rfl rfl
  · rw [if_neg (show ¬(lo ≤ x ∧ x < mid) by omega), Nat.zero_add]
    exact if_congr (by omega) rfl rfl

namespace Node

/-- The identities of the nodes of a tree. -/
def ids (n : Node) : List Nat :=
  n.nodes.map (·.id)

/-- The identities of the nodes of several trees. -/
def allIds (ns : List Node) : List Nat :=
  ns.flatMap ids

/-- No two nodes of a tree have the same identity. -/
def UniqueIds (n : Node) : Prop :=
  n.ids.Nodup

@[simp] theorem allIds_nil : allIds [] = [] := rfl

@[simp] theorem allIds_cons (n : Node) (rest : List Node) :
    allIds (n :: rest) = n.ids ++ allIds rest :=
  List.flatMap_cons

@[simp] theorem allIds_append (ns ms : List Node) : allIds (ns ++ ms) = allIds ns ++ allIds ms :=
  List.flatMap_append

theorem ids_eq (n : Node) : n.ids = n.id :: allIds n.children := by
  rw [ids, nodes_eq, List.map_cons, List.map_flatMap]
  rfl

theorem count_ids (n : Node) (x : Nat) :
    n.ids.count x = within n.id (n.id + 1) x + (allIds n.children).count x := by
  rw [ids_eq, List.count_cons, within_succ, Nat.add_comm]
  simp

theorem uniqueIds_iff : n.UniqueIds ↔ ∀ x, n.ids.count x ≤ 1 :=
  List.nodup_iff_count

/-- Numbering gives every identity in a range at most once. -/
theorem count_renumber (n : Node) (next : Nat) :
    next ≤ (n.renumber next).2 ∧
      ∀ x, (n.renumber next).1.ids.count x ≤ within next (n.renumber next).2 x := by
  induction n using induction_on generalizing next with
  | node id payload location children ih =>
    have hchildren : ∀ next, next ≤ (renumberAll next [] children).2 ∧
        ∀ x, (allIds (renumberAll next [] children).1).count x ≤ within next
        (renumberAll next [] children).2 x := by
      induction children with
      | nil => intro next; simp [renumberAll]
      | cons c rest ihrest =>
        intro next
        obtain ⟨hle, hcount⟩ := ih c List.mem_cons_self next
        obtain ⟨hle', hcount'⟩ :=
          ihrest (fun d hd => ih d (List.mem_cons_of_mem c hd)) (c.renumber next).2
        rw [renumberAll_cons]
        refine ⟨hle.trans hle', fun x => ?_⟩
        rw [allIds_cons, List.count_append, ← within_add hle hle' x]
        exact Nat.add_le_add (hcount x) (hcount' x)
    obtain ⟨hle, hcount⟩ := hchildren (next + 1)
    rw [renumber_mk]
    refine ⟨by omega, fun x => ?_⟩
    rw [count_ids, ← within_add (Nat.le_succ next) hle x]
    exact Nat.add_le_add_left (hcount x) _

/-- A tree that was numbered has unique identities, all below the first free one. -/
theorem uniqueIds_renumber (n : Node) (next : Nat) : (n.renumber next).1.UniqueIds := by
  rw [uniqueIds_iff]
  intro x
  refine ((n.count_renumber next).2 x).trans ?_
  unfold within
  split <;> omega

theorem lt_of_mem_ids_renumber (n : Node) (next : Nat) :
    ∀ x ∈ (n.renumber next).1.ids, x < (n.renumber next).2 := by
  intro x hx
  have hcount := (n.count_renumber next).2 x
  have hpos := List.count_pos_iff.mpr hx
  unfold within at hcount
  split at hcount <;> omega

/-- Identities stay unique, and below the first free one, if a tree gets no others than those of a
range that was free. -/
theorem uniqueIds_of_count_le {n n' : Node} {next after : Nat} (hunique : n.UniqueIds)
    (hfree : ∀ x ∈ n.ids, x < next) (hle : next ≤ after)
    (hcount : ∀ x, n'.ids.count x ≤ n.ids.count x + within next after x) :
    n'.UniqueIds ∧ ∀ x ∈ n'.ids, x < after := by
  have hzero : ∀ x, next ≤ x → n.ids.count x = 0 := by
    intro x hx
    exact List.count_eq_zero.mpr fun hmem => absurd (hfree x hmem) (by omega)
  constructor
  · rw [uniqueIds_iff] at hunique ⊢
    intro x
    have hbefore := hunique x
    have hafter := hcount x
    have hnone := hzero x
    unfold within at hafter
    split at hafter <;> omega
  · intro x hx
    have hpos := List.count_pos_iff.mpr hx
    have hafter := hcount x
    have hnone := hzero x
    unfold within at hafter
    split at hafter <;> omega

end Node

/-! ### Rebuilding a module -/

namespace Rebuilder

variable {σ : Type} {f : Rebuilder Stop σ}

theorem rebuildTree_eq (replaced : Nat → Stop) (root : Node) :
    rebuildTree f replaced root = (do
      let nodes ← rebuild f root
      match nodes with
      | [node] => pure node
      | nodes => throw (replaced nodes.length)) := rfl

/-- A rebuilding that touches statements and program nodes only. -/
def KeepsFrames (f : Rebuilder Stop σ) : Prop :=
  ∀ n, n.tag ∈ .module :: .procedureDivision :: Tag.frameTags → f n = pure [n]

/-- What such a rebuilding makes of a program: it changes the statements, and then does what it does
to the node. -/
theorem rebuild_program (hf : KeepsFrames f) (p : ProgramShape) :
    rebuild f p.node = (do
      let statements ← rebuildAll f [] p.statements
      f (p.frame.node statements p.ends)) := by
  -- the parts of a frame are left alone, so that only the statements are rebuilt
  have hinert {n : Node} (h : ∀ m ∈ n.nodes, m.tag ∈ Tag.frameTags) :
      ∀ m ∈ n.nodes, f m = pure [m] :=
    fun m hm => hf m (List.mem_cons_of_mem _ (List.mem_cons_of_mem _ (h m hm)))
  have hprocedure : rebuild f (p.frame.procedure p.statements) = (do
      let statements ← rebuildAll f [] p.statements
      pure [p.frame.procedure statements]) := by
    rw [rebuild_eq, p.children_procedure, rebuildAll_append,
      rebuildAll_inert fun n hn => hinert (p.tags_parameters n hn)]
    simp only [pure_bind, bind_assoc]
    apply bind_congr
    intro statements
    rw [hf _ (by simp [Node.tag, Payload.tag, ProgramFrame.procedure])]
    simp [ProgramFrame.procedure, ProgramShape.parameters]
  have hhead : rebuildAll f [] p.head = pure p.head :=
    rebuildAll_inert fun n hn => hinert (p.tags_head n hn)
  have hends : rebuildAll f [] p.ends = pure p.ends :=
    rebuildAll_inert fun n hn => hinert (p.tags_ends n hn)
  rw [rebuild_eq, p.children_node, rebuildAll_append, hhead, rebuildAll_cons, hprocedure]
  simp only [pure_bind, bind_assoc]
  apply bind_congr
  intro statements
  rw [rebuildAll_eq, hends]
  simp [ProgramShape.node, ProgramFrame.node, ProgramShape.head]

/-- What such a rebuilding makes of a module. -/
theorem rebuild_module (hf : KeepsFrames f) (m : ModuleShape) :
    rebuild f m.node = (do
      let programs ← rebuildAll f [] (m.programs.map (·.node))
      pure [⟨m.id, .module, m.location, m.name :: programs⟩]) := by
  have hname : rebuild f m.name = pure [m.name] :=
    rebuild_inert fun n hn =>
      hf n (List.mem_cons_of_mem _ (List.mem_cons_of_mem _ (m.isName.tags (by decide) n hn)))
  rw [ModuleShape.node, rebuild_mk, rebuildAll_cons, hname]
  simp only [pure_bind]
  rw [rebuildAll_eq, bind_assoc]
  apply bind_congr
  intro programs
  rw [pure_bind, hf _ (by simp [Node.tag, Payload.tag])]
  rfl

end Rebuilder

/-! ### End markers -/

/-- The program without its end marker. -/
def ProgramShape.dropEnds (p : ProgramShape) : ProgramShape :=
  { p with ends := [], areEnds := ⟨"", .absent⟩ }

/-- The module without end markers. -/
def ModuleShape.dropEnds (m : ModuleShape) : ModuleShape :=
  { m with programs := m.programs.map (·.dropEnds) }

theorem ModuleShape.frames_dropEnds (m : ModuleShape) :
    m.dropEnds.programs.map (·.frame) = m.programs.map (·.frame) := by
  rw [dropEnds, List.map_map]
  rfl

/-- Dropping end markers drops identities only. -/
theorem ModuleShape.ids_dropEnds (m : ModuleShape) : m.dropEnds.node.ids.Sublist m.node.ids := by
  have hprogram (p : ProgramShape) : p.dropEnds.node.ids.Sublist p.node.ids := by
    rw [Node.ids_eq, Node.ids_eq, p.children_node, p.dropEnds.children_node, Node.allIds_append,
      Node.allIds_append, Node.allIds_cons, Node.allIds_cons]
    refine List.Sublist.cons_cons _ (List.Sublist.append_left ?_ _)
    refine List.Sublist.append_left ?_ _
    exact List.nil_sublist _
  rw [Node.ids_eq, Node.ids_eq]
  refine List.Sublist.cons_cons _ ?_
  change (Node.allIds (m.name :: (m.programs.map (·.dropEnds)).map (·.node))).Sublist
    (Node.allIds (m.name :: m.programs.map (·.node)))
  rw [Node.allIds_cons, Node.allIds_cons]
  refine List.Sublist.append_left ?_ _
  induction m.programs with
  | nil => exact List.Sublist.refl _
  | cons p rest ih =>
    rw [List.map_cons, List.map_cons, List.map_cons, Node.allIds_cons, Node.allIds_cons]
    exact (hprogram p).append ih

namespace Declaration

theorem keepsFrames_dropMarkers (file : String) : Rebuilder.KeepsFrames (dropMarkers file) := by
  intro n hn
  obtain ⟨id, payload, location, children⟩ := n
  cases payload <;> first | rfl | simp [Node.tag, Payload.tag, Tag.frameTags] at hn

theorem dropMarkers_statement (file : String) (h : IsStatement s) :
    ∀ m ∈ s.nodes, dropMarkers file m = pure [m] := by
  intro m hm
  have htag := h.tags m hm
  obtain ⟨id, payload, location, children⟩ := m
  cases payload <;> first
    | rfl
    | simp [Node.tag, Payload.tag, Tag.callTags, Tag.statementTags, Tag.innerTags,
      Tag.expressionTags] at htag

theorem filter_ends (p : ProgramShape) :
    p.node.children.filter (fun c => !c.is .endProgram) = p.dropEnds.node.children := by
  rw [p.children_node, p.dropEnds.children_node, List.filter_append, List.filter_cons]
  have hhead : p.head.filter (fun c => !c.is .endProgram) = p.head := by
    refine List.filter_eq_self.mpr fun n hn => ?_
    rcases List.mem_cons.mp hn with rfl | hn
    · simp [Node.is, p.frame.isName.tag_eq]
    · rcases List.mem_append.mp hn with hn | hn
      · simp [Node.is, p.frame.isExport.tag_eq n hn, Payload.tag]
      · simp [Node.is, p.frame.isData.tag_eq n hn]
  have hends : p.ends.filter (fun c => !c.is .endProgram) = [] :=
    List.filter_eq_nil_iff.mpr fun n hn => by simp [Node.is, p.tag_ends n hn]
  rw [hhead, hends]
  rfl

theorem ensures_dropMarkers (file : String) (p : ProgramShape) :
    Ensures (Rebuilder.rebuild (dropMarkers file) p.node) () (fun ns _ => ns = [p.dropEnds.node])
      (fun e _ => e.IsFailure) := by
  rw [Rebuilder.rebuild_program (keepsFrames_dropMarkers file), Rebuilder.rebuildAll_inert
    fun s hs => dropMarkers_statement file (p.areStatements s hs), pure_bind]
  change Ensures (dropMarkers file p.node) _ _ _
  have hpayload : p.node.payload = .program := rfl
  simp only [dropMarkers, hpayload, filter_ends]
  split
  · rw [ensures_throw]
    exact isFailure_fault ..
  · rw [ensures_pure]
    rfl

/-- Dropping end markers leaves the rest of a module alone. -/
theorem ensures_endMarkers (m : ModuleShape) (run : Run) :
    Ensures (endMarkers m.node) run (fun root run' => root = m.dropEnds.node ∧ run' = run)
      (fun e run' => e.IsFailure ∧ run' = run) := by
  have hprograms (programs : List ProgramShape) :
      Ensures (Rebuilder.rebuildAll (dropMarkers run.file) [] (programs.map (·.node))) ()
        (fun ns _ => ns = programs.map fun p => p.dropEnds.node) (fun e _ => e.IsFailure) := by
    induction programs with
    | nil => simp
    | cons p rest ih =>
      rw [List.map_cons, Rebuilder.rebuildAll_cons]
      refine (ensures_dropMarkers run.file p).bind ?_
      rintro _ _ rfl
      rw [Rebuilder.rebuildAll_eq]
      refine ih.bind ?_
      rintro _ _ rfl
      simp
  unfold endMarkers
  simp only [ensures_bind, ensures_get, ensures_onPart, Rebuilder.rebuildTree_eq,
    Rebuilder.rebuild_module (keepsFrames_dropMarkers run.file)]
  refine (hprograms m.programs).mono ?_ fun _ _ h => ⟨h, trivial⟩
  rintro _ _ rfl
  simp [ModuleShape.node, ModuleShape.dropEnds]

end Declaration

/-! ### DISPLAY statements -/

theorem Payload.tag_eq_displayStatement {payload : Payload} :
    payload.tag = .displayStatement ↔ payload = .displayStatement := by
  cases payload <;> simp [Payload.tag]

namespace CallSite

open Syntax

/-- Any other node stays. -/
theorem displayCalls_of_tag_ne (h : n.tag ≠ .displayStatement) : displayCalls n = pure [n] := by
  obtain ⟨id, payload, location, children⟩ := n
  cases payload <;> first | rfl | exact absurd rfl h

theorem argument_displayed {operand : Node} (h : IsArgument operand) :
    IsArgument (displayed operand) := by
  cases h with
  | field id location name byContent => exact .field id location name true
  | number id location text => exact .number id location text
  | string id location text => exact .string id location text
  | call id location hcallee husings harguments =>
    exact .call id location hcallee husings harguments

theorem ofNode_displayed (operand : Node) :
    Argument.ofNode (displayed operand) = (Argument.ofNode operand).displayed := by
  obtain ⟨id, payload, location, children⟩ := operand
  cases payload <;> simp [displayed, Argument.ofNode, Argument.displayed]

theorem ids_displayed (operand : Node) : (displayed operand).ids = operand.ids := by
  obtain ⟨id, payload, location, children⟩ := operand
  cases payload <;> simp [displayed, Node.ids_eq]

theorem isStatement_displayCall (next : Nat) (location : Location) {operand : Node}
    (h : IsArgument operand) :
    IsStatement (displayCall next location operand) := by
  have hcall := IsStatement.call next location (.qualified (next + 1) (next + 2) (next + 3) location
    location location displayModule displayProgram)
    (.present (next + 4) Location.none [displayed operand])
    (by intro a ha; rw [List.mem_singleton.mp ha]; exact argument_displayed h)
    (.absent : Under .callReturnings [] []) (by simp)
  exact hcall

theorem ofNode_displayCall (next : Nat) (location : Location) (operand : Node) :
    Statement.ofNode (displayCall next location operand) =
      .call .display [(Argument.ofNode operand).displayed] [] := by
  rw [← ofNode_displayed]
  rfl

theorem count_ids_displayCall (next : Nat) (location : Location) (operand : Node) (x : Nat) :
    (displayCall next location operand).ids.count x = within next (next + displayIds) x +
      operand.ids.count x := by
  have hrange : within next (next + displayIds) x =
      within next (next + 1) x + (within (next + 1) (next + 2) x + (within (next + 2) (next + 3) x +
        (within (next + 3) (next + 4) x + within (next + 4) (next + 5) x))) := by
    rw [within_add, within_add, within_add, within_add, displayIds] <;> omega
  rw [hrange, ← ids_displayed operand]
  unfold displayCall
  generalize displayed operand = shown
  simp only [Node.count_ids, Node.allIds_cons, Node.allIds_nil, List.count_append, List.count_nil,
    Nat.add_assoc, Nat.reduceAdd]
  omega

/-- The calls for several operands have the identities of the operands, and each identity of a range
once. -/
theorem count_allIds_displayCalls (next : Nat) (location : Location) (operands : List Node)
    (x : Nat) :
    (Node.allIds (operands.mapIdx fun i operand =>
      displayCall (next + displayIds * i) location operand)).count x =
      (Node.allIds operands).count x + within next (next + displayIds * operands.length) x := by
  induction operands generalizing next with
  | nil => simp [within_self]
  | cons operand rest ih =>
    have hshift : (fun i => displayCall (next + displayIds * (i + 1)) location) =
        fun i => displayCall (next + displayIds + displayIds * i) location := by
      funext i
      rw [Nat.mul_add, Nat.mul_one, Nat.add_assoc next, Nat.add_comm (displayIds * i)]
    have hlength : next + displayIds * (operand :: rest).length =
        next + displayIds + displayIds * rest.length := by
      rw [List.length_cons, Nat.mul_add]
      omega
    rw [List.mapIdx_cons, hshift, Node.allIds_cons, Node.allIds_cons, List.count_append,
      List.count_append, ih (next + displayIds), count_ids_displayCall, hlength, ← within_add
      (Nat.le_add_right next displayIds) (Nat.le_add_right _ (displayIds * rest.length)) x]
    simp only [Nat.mul_zero, Nat.add_zero]
    omega

/-- How lowering changes the statements of a procedure, if `next` is free before and `after`
afterwards. -/
structure Lowers (next : Nat) (before lowered : List Node) (after : Nat) : Prop where
  le : next ≤ after
  areStatements : ∀ s ∈ lowered, IsStatement s
  noDisplay : ∀ s ∈ lowered, s.tag ≠ .displayStatement
  statements_eq :
    lowered.map Statement.ofNode = (before.map Statement.ofNode).flatMap Statement.lowered
  count_ids : ∀ x, (Node.allIds lowered).count x ≤ (Node.allIds before).count x +
    within next after x

theorem Lowers.append {next mid after : Nat} {ns ns' ms ms' : List Node}
    (h : Lowers next ns ns' mid)
    (h' : Lowers mid ms ms' after) : Lowers next (ns ++ ms) (ns' ++ ms') after where
  le := h.le.trans h'.le
  areStatements := fun s hs => (List.mem_append.mp hs).elim (h.areStatements s) (h'.areStatements s)
  noDisplay := fun s hs => (List.mem_append.mp hs).elim (h.noDisplay s) (h'.noDisplay s)
  statements_eq := by
    rw [List.map_append, List.map_append, List.flatMap_append, h.statements_eq, h'.statements_eq]
  count_ids := fun x => by
    have hsum := within_add h.le h'.le x
    have hns := h.count_ids x
    have hms := h'.count_ids x
    simp only [Node.allIds_append, List.count_append]
    omega

/-- A statement other than DISPLAY stays as it is. -/
theorem Lowers.keep (hs : IsStatement s) (hdisplay : s.tag ≠ .displayStatement) (next : Nat) :
    Lowers next [s] [s] next where
  le := le_rfl
  areStatements := by simpa using hs
  noDisplay := by simpa using hdisplay
  statements_eq := by
    cases hs with
    | call | goback => rfl
    | display => exact absurd rfl hdisplay
  count_ids := fun x => Nat.le_add_right _ _

/-- The calls that display the operands of a statement, one after the other. -/
theorem Lowers.display (id next : Nat) (location : Location) {operands : List Node}
    (hoperands : ∀ a ∈ operands, IsArgument a) :
    Lowers next [⟨id, .displayStatement, location, operands⟩]
      (operands.mapIdx fun i operand => displayCall (next + displayIds * i) location operand)
      (next + displayIds * operands.length) where
  le := Nat.le_add_right _ _
  areStatements := by
    intro s hs
    obtain ⟨i, hi, rfl⟩ := List.mem_mapIdx.mp hs
    exact isStatement_displayCall _ location (hoperands _ (List.getElem_mem hi))
  noDisplay := by
    intro s hs
    obtain ⟨i, hi, rfl⟩ := List.mem_mapIdx.mp hs
    simp [displayCall, Node.tag, Payload.tag]
  statements_eq := by
    have hright : ([⟨id, .displayStatement, location, operands⟩].map Statement.ofNode).flatMap
        Statement.lowered =
        operands.map fun operand => .call .display [(Argument.ofNode operand).displayed] [] := by
      simp [Statement.ofNode, Statement.lowered, Function.comp_def]
    rw [hright]
    -- both sides are lists over the operands, and are compared place by place
    refine List.ext_getElem (by simp) fun i hi hi' => ?_
    simp [ofNode_displayCall]
  count_ids := by
    intro x
    rw [Node.allIds_cons, Node.ids_eq, count_allIds_displayCalls]
    simp [List.count_cons]

theorem keepsFrames_displayCalls : Rebuilder.KeepsFrames displayCalls := by
  intro n hn
  obtain ⟨id, payload, location, children⟩ := n
  cases payload <;> first | rfl | simp [Node.tag, Payload.tag, Tag.frameTags] at hn

theorem displayCalls_argument {a : Node} (h : IsArgument a) :
    ∀ m ∈ a.nodes, displayCalls m = pure [m] := by
  intro m hm
  have htag := h.tags m hm
  obtain ⟨id, payload, location, children⟩ := m
  cases payload <;> first | rfl | simp [Node.tag, Payload.tag, Tag.expressionTags] at htag

/-- Lowering one statement always succeeds. -/
theorem ensures_lowerStatement (hs : IsStatement s) (next : Nat) :
    Ensures (Rebuilder.rebuild displayCalls s) next (Lowers next [s]) (fun _ _ => False) := by
  by_cases hdisplay : s.tag = .displayStatement
  · cases hs with
    | call | goback => simp [Node.tag, Payload.tag] at hdisplay
    | display id location hoperands =>
      rw [Rebuilder.rebuild_mk, Rebuilder.rebuildAll_inert fun a ha =>
        displayCalls_argument (hoperands a ha), pure_bind]
      exact Lowers.display id next location hoperands
  · have hinert : ∀ m ∈ s.nodes, displayCalls m = pure [m] := by
      intro m hm
      refine displayCalls_of_tag_ne ?_
      rcases Node.mem_nodes.mp hm with rfl | ⟨c, hc, hmem⟩
      · exact hdisplay
      · intro heq
        have hinner := hs.tags_below hc m hmem
        rw [heq] at hinner
        exact absurd hinner (by decide)
    rw [Rebuilder.rebuild_inert hinert, ensures_pure]
    exact Lowers.keep hs hdisplay next

theorem ensures_lowerStatements {statements : List Node}
    (hstatements : ∀ s ∈ statements, IsStatement s) (next : Nat) :
    Ensures (Rebuilder.rebuildAll displayCalls [] statements) next (Lowers next statements)
      (fun _ _ => False) := by
  induction statements generalizing next with
  | nil => exact ⟨le_rfl, by simp, by simp, rfl, fun x => Nat.le_add_right _ _⟩
  | cons s rest ih =>
    rw [Rebuilder.rebuildAll_cons]
    refine (ensures_lowerStatement (hstatements s List.mem_cons_self) next).bind ?_
    intro lowered mid hlowered
    rw [Rebuilder.rebuildAll_eq]
    refine (ih (fun t ht => hstatements t (List.mem_cons_of_mem s ht)) mid).bind ?_
    intro lowered' after hlowered'
    rw [ensures_pure, List.append_nil, List.reverse_reverse]
    exact hlowered.append hlowered'

/-- How lowering changes a program. -/
structure LowersProgram (before lowered : ProgramShape) : Prop where
  frame_eq : lowered.frame = before.frame
  ends_eq : lowered.ends = before.ends
  noDisplay : ∀ s ∈ lowered.statements, s.tag ≠ .displayStatement
  statements_eq : lowered.statements.map Statement.ofNode =
    (before.statements.map Statement.ofNode).flatMap Statement.lowered

/-- The identities of a program are those of its frame and those of its statements. -/
theorem count_ids_node (frame : ProgramFrame) (statements ends : List Node) (x : Nat) :
    (frame.node statements ends).ids.count x =
      (frame.node [] ends).ids.count x + (Node.allIds statements).count x := by
  simp only [ProgramFrame.node, ProgramFrame.procedure, Node.count_ids, Node.allIds_cons,
    Node.allIds_append, Node.allIds_nil, List.count_append, List.count_nil]
  omega

/-- Lowering a program always succeeds. -/
theorem ensures_lowerProgram (p : ProgramShape) (next : Nat) :
    Ensures (Rebuilder.rebuild displayCalls p.node) next
      (fun ns after => ∃ p' : ProgramShape, ns = [p'.node] ∧ LowersProgram p p' ∧ next ≤ after ∧
        ∀ x, p'.node.ids.count x ≤ p.node.ids.count x + within next after x)
      (fun _ _ => False) := by
  rw [Rebuilder.rebuild_program keepsFrames_displayCalls]
  refine (ensures_lowerStatements p.areStatements next).bind ?_
  intro lowered after hlowers
  let p' : ProgramShape := { p with statements := lowered, areStatements := hlowers.areStatements }
  refine ⟨p', rfl, ⟨rfl, rfl, hlowers.noDisplay, hlowers.statements_eq⟩, hlowers.le, fun x => ?_⟩
  have hcount := hlowers.count_ids x
  change (p.frame.node lowered p.ends).ids.count x ≤
    (p.frame.node p.statements p.ends).ids.count x + _
  rw [count_ids_node, count_ids_node p.frame p.statements]
  omega

theorem ensures_lowerPrograms (programs : List ProgramShape) (next : Nat) :
    Ensures (Rebuilder.rebuildAll displayCalls [] (programs.map (·.node))) next
      (fun ns after => ∃ programs' : List ProgramShape, ns = programs'.map (·.node) ∧
        List.Forall₂ LowersProgram programs programs' ∧ next ≤ after ∧
        ∀ x, (Node.allIds ns).count x ≤ (Node.allIds (programs.map (·.node))).count x +
          within next after x)
      (fun _ _ => False) := by
  induction programs generalizing next with
  | nil => exact ⟨[], rfl, .nil, le_rfl, fun x => Nat.le_add_right _ _⟩
  | cons p rest ih =>
    rw [List.map_cons, Rebuilder.rebuildAll_cons]
    refine (ensures_lowerProgram p next).bind ?_
    rintro _ mid ⟨p', rfl, hlowers, hle, hcount⟩
    rw [Rebuilder.rebuildAll_eq]
    refine (ih mid).bind ?_
    rintro _ after ⟨rest', rfl, hlowers', hle', hcount'⟩
    refine ⟨p' :: rest', rfl, .cons hlowers hlowers', hle.trans hle', fun x => ?_⟩
    have hfirst := hcount x
    have hrest := hcount' x
    have hsum := within_add hle hle' x
    simp only [List.append_nil, List.reverse_reverse, List.singleton_append, Node.allIds_cons,
      List.count_append]
    omega

/-- How lowering changes a module. -/
structure LowersModule (before lowered : ModuleShape) : Prop where
  name_eq : lowered.name = before.name
  programs : List.Forall₂ LowersProgram before.programs lowered.programs

/-- Lowering a module always succeeds, and it keeps identities unique if it is given a free one. -/
theorem ensures_lowerDisplay (m : ModuleShape) (run : Run) (hunique : m.node.UniqueIds)
    (hfree : ∀ x ∈ m.node.ids, x < run.nextId) :
    Ensures (lowerDisplay m.node) run
      (fun root run' => ∃ m' : ModuleShape, root = m'.node ∧ LowersModule m m' ∧ m'.node.UniqueIds ∧
        run' = { run with nextId := run'.nextId })
      (fun _ _ => False) := by
  unfold lowerDisplay
  simp only [ensures_onPart, Rebuilder.rebuildTree_eq,
    Rebuilder.rebuild_module keepsFrames_displayCalls, ensures_bind, ensures_pure]
  refine (ensures_lowerPrograms m.programs run.nextId).imp ?_
  rintro _ after ⟨programs, rfl, hprograms, hle, hcount⟩
  refine ⟨{ m with programs }, rfl, ⟨rfl, hprograms⟩, ?_, trivial⟩
  refine (Node.uniqueIds_of_count_le hunique hfree hle fun x => ?_).1
  have hprogramIds := hcount x
  simp only [ModuleShape.node, Node.count_ids, Node.allIds_cons, List.count_append]
  omega

end CallSite

/-! ### Argument order -/

namespace Node

/-- A tree with all argument lists reversed. -/
def reversed : Node → Node :=
  mapUp fun n => match n.payload with
    | .callUsings => { n with children := n.children.reverse }
    | _ => n

theorem reversed_mk {id : Nat} {payload : Payload} {location : Location} {children : List Node}
    (h : payload ≠ .callUsings) :
    reversed ⟨id, payload, location, children⟩ =
      ⟨id, payload, location, children.map reversed⟩ := by
  rw [reversed, mapUp_mk]
  cases payload <;> first | rfl | exact absurd rfl h

theorem reversed_callUsings (id : Nat) (location : Location) (children : List Node) :
    reversed ⟨id, .callUsings, location, children⟩ =
      ⟨id, .callUsings, location, (children.map reversed).reverse⟩ := by
  rw [reversed, mapUp_mk]

/-- Trees without argument lists stay as they are. -/
theorem reversed_of_tags {tags : List Tag} (h : ∀ m ∈ n.nodes, m.tag ∈ tags)
    (htags : Tag.callUsings ∉ tags) :
    n.reversed = n := by
  refine mapUp_of_forall fun m hm => ?_
  have htag := h m hm
  obtain ⟨id, payload, location, children⟩ := m
  cases payload <;> first | rfl | exact absurd htag htags

theorem map_reversed_of_tags {ns : List Node} {tags : List Tag}
    (h : ∀ n ∈ ns, ∀ m ∈ n.nodes, m.tag ∈ tags)
    (htags : Tag.callUsings ∉ tags) : ns.map reversed = ns := by
  conv_rhs => rw [← List.map_id ns]
  exact List.map_congr_left fun n hn => reversed_of_tags (h n hn) htags

@[simp] theorem id_reversed (n : Node) : n.reversed.id = n.id := by
  obtain ⟨id, payload, location, children⟩ := n
  cases payload <;> rfl

@[simp] theorem payload_reversed (n : Node) : n.reversed.payload = n.payload := by
  obtain ⟨id, payload, location, children⟩ := n
  cases payload <;> rfl

end Node

theorem IsCallId.reversed (h : IsCallId n) : n.reversed = n := by
  cases h <;> rfl

theorem Under.reversed {usings arguments : List Node} (h : Under .callUsings usings arguments) :
    Under .callUsings (usings.map Node.reversed) (arguments.map Node.reversed).reverse := by
  cases h with
  | absent => exact .absent
  | present id location =>
    rw [List.map_singleton, Node.reversed_callUsings]
    exact .present id location _

theorem IsArgument.reversed {a : Node} (h : IsArgument a) : IsArgument a.reversed := by
  induction h with
  | field id location name byContent => exact .field id location name byContent
  | number id location text => exact .number id location text
  | string id location text => exact .string id location text
  | call id location hcallee husings harguments ih =>
    rw [Node.reversed_mk (by simp), List.map_cons, hcallee.reversed]
    refine .call id location hcallee husings.reversed ?_
    intro a ha
    obtain ⟨b, hb, rfl⟩ := List.mem_map.mp (List.mem_reverse.mp ha)
    exact ih b hb

theorem IsStatement.reversed (h : IsStatement s) : IsStatement s.reversed := by
  cases h with
  | @call id location callee usings arguments returnings targets hcallee husings harguments
    hreturnings htargets =>
    have htags : ∀ n ∈ returnings, ∀ m ∈ n.nodes,
        m.tag ∈ [Tag.callReturnings, .callReturningId] := by
      refine hreturnings.tags (by decide) fun t ht => ?_
      cases htargets t ht
      exact tags_of_leaf rfl (by simp [Node.tag, Payload.tag])
    rw [Node.reversed_mk (by simp), List.map_cons, List.map_append, hcallee.reversed,
      Node.map_reversed_of_tags htags (by decide)]
    refine .call id location hcallee husings.reversed ?_ hreturnings htargets
    intro a ha
    obtain ⟨b, hb, rfl⟩ := List.mem_map.mp (List.mem_reverse.mp ha)
    exact (harguments b hb).reversed
  | display id location hoperands =>
    rw [Node.reversed_mk (by simp)]
    refine .display id location ?_
    intro a ha
    obtain ⟨b, hb, rfl⟩ := List.mem_map.mp ha
    exact (hoperands b hb).reversed
  | goback id location => exact .goback id location

/-- The program with all argument lists reversed. -/
def ProgramShape.reversed (p : ProgramShape) : ProgramShape :=
  { p with
    statements := p.statements.map Node.reversed
    areStatements := by
      intro s hs
      obtain ⟨t, ht, rfl⟩ := List.mem_map.mp hs
      exact (p.areStatements t ht).reversed }

/-- The module with all argument lists reversed. -/
def ModuleShape.reversed (m : ModuleShape) : ModuleShape :=
  { m with programs := m.programs.map (·.reversed) }

theorem ProgramShape.reversed_node (p : ProgramShape) : p.node.reversed = p.reversed.node := by
  have hhead : p.head.map Node.reversed = p.head :=
    Node.map_reversed_of_tags p.tags_head (by decide)
  have hparameters : p.parameters.map Node.reversed = p.parameters :=
    Node.map_reversed_of_tags p.tags_parameters (by decide)
  have hends : p.ends.map Node.reversed = p.ends :=
    Node.map_reversed_of_tags p.tags_ends (by decide)
  have hprocedure : (p.frame.procedure p.statements).reversed =
      p.frame.procedure (p.statements.map Node.reversed) := by
    rw [ProgramFrame.procedure, Node.reversed_mk (by simp), ← List.append_assoc, List.map_append]
    change (⟨_, _, _, p.parameters.map Node.reversed ++ _⟩ : Node) = _
    rw [hparameters, ProgramFrame.procedure, ← List.append_assoc]
    rfl
  have hchildren : p.node.children.map Node.reversed = p.reversed.node.children := by
    rw [p.children_node, p.reversed.children_node, List.map_append, List.map_cons, hhead,
      hprocedure, hends]
    rfl
  have hnode : p.node.reversed = { p.node with children := p.node.children.map Node.reversed } :=
    Node.reversed_mk (by simp)
  rw [hnode, hchildren]
  rfl

theorem ModuleShape.reversed_node (m : ModuleShape) : m.node.reversed = m.reversed.node := by
  have hprograms : (m.programs.map (·.node)).map Node.reversed =
      m.reversed.programs.map (·.node) := by
    simp [ModuleShape.reversed, ProgramShape.reversed_node]
  rw [ModuleShape.node, Node.reversed_mk (by simp), List.map_cons, hprograms,
    Node.reversed_of_tags (m.isName.tags (List.mem_singleton_self _)) (by decide)]
  rfl

namespace Generation

/-- Reversing argument lists always succeeds, and changes the tree only. -/
theorem reverseArguments_eq (root : Node) (run : Run) :
    reverseArguments root run = .ok root.reversed run := by
  have hrebuild : Ensures (Rebuilder.rebuild reverseUsings root) ()
      (fun ns t => ns = [root.reversed] ∧ t = ()) (fun _ _ => False) := by
    refine Rebuilder.ensures_rebuild_mapUp ?_ root ()
    intro n s
    obtain ⟨id, payload, location, children⟩ := n
    cases payload <;> simp [reverseUsings]
  obtain ⟨nodes, t, heq, rfl, -⟩ := hrebuild.exists_ok
  simp only [reverseArguments, onPart, Rebuilder.rebuildTree_eq, bind_apply, heq]
  rfl

theorem ensures_reverseArguments (m : ModuleShape) (run : Run) :
    Ensures (reverseArguments m.node) run (fun root run' => root = m.reversed.node ∧ run' = run)
      (fun _ _ => False) := by
  rw [ensures_of_eq (reverseArguments_eq m.node run)]
  exact ⟨m.reversed_node, rfl⟩

end Generation

end CobolCompiler
