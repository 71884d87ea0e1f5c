import CobolCompiler.Proofs.DisplayLowering
import Mathlib.Data.List.Nodup
import Mathlib.Data.List.Pairwise

/-!
# Identities under rewriting

What is learned about a node is recorded under its identity. Three passes rewrite the tree in
between: end markers are dropped, DISPLAY statements give way to calls, and argument lists are
reversed. On any tree whose identities are unique, and in whatever order and number these passes are
run, every node that is not meant to go stays where its identity is, and new nodes get identities
that were free (`identities_survive_rewriting`).

The proof follows the nodes that are left, without their children and in the order of the tree
(`Node.kept`). What each pass does to that list is one equation, and the chain of passes is an
induction over them.
-/

namespace CobolCompiler

variable {id : Nat} {location : Location} {payload : Payload} {root tree : Node} {run after : Run}

/-! ### Which nodes are left -/

/-- A field that is passed is passed by content; any other payload is as it was. -/
def Payload.shown : Payload → Payload
  | .callUsingId name _ => .callUsingId name true
  | payload => payload

namespace Node

mutual

/-- The nodes of a tree that are left when end markers are dropped (if `markers`) and DISPLAY
statements are lowered (if `displays`), without their children. The tree itself is an operand of a
DISPLAY statement if `shown`. -/
def kept (markers displays shown : Bool) : Node → List Node
  | ⟨id, payload, location, children⟩ =>
    if displays && payload = .displayStatement then keptAll markers displays false true children
    else ⟨id, if shown then payload.shown else payload, location, []⟩ ::
      keptAll markers displays (payload = .program) false children

/-- The nodes that are left of several trees, which are the children of a program if `inProgram`. -/
def keptAll (markers displays inProgram shown : Bool) : List Node → List Node
  | [] => []
  | n :: rest =>
    (if markers && inProgram && n.is .endProgram then [] else kept markers displays shown n) ++
      keptAll markers displays inProgram shown rest

end

variable {m d p s : Bool}

theorem kept_display (id : Nat) (location : Location) (children : List Node) :
    kept m true s ⟨id, .displayStatement, location, children⟩ =
      keptAll m true false true children := by
  rw [kept, if_pos (by simp)]

theorem kept_mk {children : List Node} (h : d = true → payload ≠ .displayStatement) :
    kept m d s ⟨id, payload, location, children⟩ =
      ⟨id, if s then payload.shown else payload, location, []⟩ ::
        keptAll m d (payload = .program) false children := by
  rw [kept, if_neg]
  intro hdisplay
  rw [Bool.and_eq_true, decide_eq_true_iff] at hdisplay
  exact h hdisplay.1 hdisplay.2

theorem keptAll_append (ns ms : List Node) :
    keptAll m d p s (ns ++ ms) = keptAll m d p s ns ++ keptAll m d p s ms := by
  induction ns with
  | nil => rfl
  | cons n rest ih => rw [List.cons_append, keptAll, keptAll, ih, List.append_assoc]

theorem keptAll_singleton {n : Node} (h : m = true → p = true → n.tag ≠ .endProgram) :
    keptAll m d p s [n] = kept m d s n := by
  rw [keptAll, keptAll, List.append_nil, if_neg]
  intro hdropped
  simp only [Bool.and_eq_true, is, decide_eq_true_eq] at hdropped
  exact h hdropped.1.1 hdropped.1.2 hdropped.2

theorem keptAll_eq_filter (ns : List Node) :
    keptAll m d p s ns = (ns.filter fun n => !(m && p && n.is .endProgram)).flatMap
      (kept m d s) := by
  induction ns with
  | nil => rfl
  | cons n rest ih =>
    rw [keptAll, ih, List.filter_cons]
    cases m && p && n.is .endProgram <;> rfl

/-- A node without its children. -/
def bare (n : Node) : Node :=
  { n with children := [] }

/-- If nothing is dropped and nothing is lowered, all nodes are left. -/
theorem kept_all (n : Node) : kept false false false n = n.nodes.map bare := by
  induction n using induction_on with
  | node id payload location children ih =>
    have hchildren : children.flatMap (kept false false false) =
        (children.flatMap nodes).map bare := by
      rw [List.map_flatMap]
      exact List.flatMap_congr ih
    have hfilter : keptAll false false (payload = .program) false children =
        children.flatMap (kept false false false) := by
      rw [keptAll_eq_filter]
      simp
    rw [kept_mk (by simp), hfilter, hchildren, nodes_eq]
    rfl

theorem ids_eq_map_kept (n : Node) : n.ids = (kept false false false n).map (·.id) := by
  rw [kept_all, ids, List.map_map]
  rfl

/-- What is left has identities of the tree, each as often as there. -/
theorem ids_kept_sublist (n : Node) : ((kept m d s n).map (·.id)).Sublist n.ids := by
  induction n using induction_on generalizing s with
  | node id payload location children ih =>
    have hchildren : ∀ p s, ((keptAll m d p s children).map (·.id)).Sublist (allIds children) := by
      intro p s
      induction children with
      | nil => exact List.Sublist.refl _
      | cons c rest ihrest =>
        have hrest := ihrest fun c hc => ih c (List.mem_cons_of_mem _ hc)
        rw [keptAll, List.map_append, allIds_cons]
        refine List.Sublist.append ?_ hrest
        split
        · exact List.nil_sublist _
        · exact ih c List.mem_cons_self
    rw [ids_eq, kept]
    split
    · exact (hchildren false true).cons _
    · exact (hchildren _ false).cons_cons _

end Node

/-! ### What each pass leaves -/

namespace Declaration

open Node

/-- A tree, and what it becomes when end markers are dropped. -/
structure WithoutMarkers (n n' : Node) : Prop where
  payload_eq : n'.payload = n.payload
  kept_eq : ∀ m d s, kept m d s n' = kept true d s n

theorem WithoutMarkers.is_eq {n n' : Node} (h : WithoutMarkers n n') (tag : Tag) :
    n'.is tag = n.is tag := by
  rw [is, is, Node.tag, Node.tag, h.payload_eq]

/-- The children of a program lose their end markers, and those of other nodes do not. -/
theorem keptAll_withoutMarkers {children rebuilt : List Node}
    (h : List.Forall₂ WithoutMarkers children rebuilt) (m d s : Bool) :
    keptAll m d true s (rebuilt.filter fun c => !c.is .endProgram) =
      keptAll true d true s children ∧
      keptAll m d false s rebuilt = keptAll true d false s children := by
  induction h with
  | nil => exact ⟨rfl, rfl⟩
  | @cons c c' cs cs' hc _ ih =>
    constructor
    · rw [keptAll, ← ih.1, List.filter_cons, hc.is_eq]
      cases hmarker : c.is .endProgram with
      | true => rfl
      | false =>
        have hkept : c'.is .endProgram = false := by rw [hc.is_eq, hmarker]
        simp [keptAll, hkept, hc.kept_eq]
    · rw [keptAll, keptAll, ih.2, hc.kept_eq]
      simp

theorem withoutMarkers_mk {children rebuilt left : List Node}
    (hrebuilt : List.Forall₂ WithoutMarkers children rebuilt) (hleft : left = if payload = .program
      then rebuilt.filter (fun c => !c.is .endProgram) else rebuilt) :
    WithoutMarkers ⟨id, payload, location, children⟩ ⟨id, payload, location, left⟩ := by
  refine ⟨rfl, fun m d s => ?_⟩
  obtain ⟨hprogram, hother⟩ := keptAll_withoutMarkers hrebuilt m d false
  obtain ⟨-, hoperands⟩ := keptAll_withoutMarkers hrebuilt m d true
  subst hleft
  by_cases hpayload : payload = .program
  · subst hpayload
    rw [if_pos rfl, kept_mk (by simp), kept_mk (by simp)]
    simp [hprogram]
  · rw [if_neg hpayload, kept, kept]
    simp [hpayload, hother, hoperands]

/-- If end markers are dropped without complaint, the rest of the tree stays. -/
theorem withoutMarkers_of_endMarkers (h : endMarkers root run = .ok tree after) :
    after = run ∧ WithoutMarkers root tree := by
  have hrebuild : Ensures (Rebuilder.rebuild (dropMarkers run.file) root) ()
      (fun ns _ => ∃ tree, ns = [tree] ∧ WithoutMarkers root tree) (fun _ _ => True) := by
    refine Rebuilder.ensures_rebuild (P := fun n _ ns _ => ∃ tree, ns = [tree] ∧
      WithoutMarkers n tree) (Q := fun children _ ns _ => List.Forall₂ WithoutMarkers children ns)
      (fun _ => .nil) ?_ ?_ root ()
    · intro n rest ns ms _ _ _ hfirst hrest
      obtain ⟨tree, rfl, htree⟩ := hfirst
      exact .cons htree hrest
    · intro id payload location children rebuilt _ _ hrebuilt
      -- only a program loses children
      by_cases hpayload : payload = .program
      · subst hpayload
        simp only [dropMarkers]
        split
        · trivial
        · exact ⟨_, rfl, withoutMarkers_mk hrebuilt (by simp)⟩
      · have hkeep : dropMarkers run.file ⟨id, payload, location, rebuilt⟩ =
            pure [⟨id, payload, location, rebuilt⟩] := by
          cases payload <;> first | rfl | exact absurd rfl hpayload
        rw [hkeep, ensures_pure]
        exact ⟨_, rfl, withoutMarkers_mk hrebuilt (by simp [hpayload])⟩
  have hensures : Ensures (endMarkers root) run
      (fun tree after => after = run ∧ WithoutMarkers root tree) (fun _ _ => True) := by
    simp only [endMarkers, ensures_bind, ensures_get, ensures_onPart, Rebuilder.rebuildTree_eq]
    refine hrebuild.mono ?_ fun _ _ _ => trivial
    intro ns _ hns
    obtain ⟨tree, rfl, htree⟩ := hns
    exact ⟨trivial, htree⟩
  exact hensures.of_ok h

end Declaration

namespace CallSite

open Node

variable {location : Location}

/-- How lowering changes some trees, if `next` is free before and `after` afterwards. Of the
identities that were not free (those below some `start`) there are left those of the trees without
their DISPLAY statements, in the same order. -/
structure Splices (next : Nat) (before lowered : List Node) (after : Nat) : Prop where
  le : next ≤ after
  count_ids : ∀ x, (allIds lowered).count x ≤ (allIds before).count x + within next after x
  kept_eq : ∀ m d p s start, start ≤ next →
    (keptAll m d p s lowered).filter (·.id < start) =
      (keptAll m true p s before).filter (·.id < start)

variable {next : Nat}

theorem Splices.append {mid after : Nat} {ns ns' ms ms' : List Node} (h : Splices next ns ns' mid)
    (h' : Splices mid ms ms' after) : Splices next (ns ++ ms) (ns' ++ ms') after where
  le := h.le.trans h'.le
  count_ids := fun x => by
    have hsum := within_add h.le h'.le x
    have hns := h.count_ids x
    have hms := h'.count_ids x
    simp only [allIds_append, List.count_append]
    omega
  kept_eq := fun m d p s start hstart => by
    rw [keptAll_append, keptAll_append, List.filter_append, List.filter_append,
      h.kept_eq m d p s start hstart, h'.kept_eq m d p s start (hstart.trans h.le)]

theorem kept_displayed (m d : Bool) (operand : Node) :
    kept m d false (displayed operand) = kept m d true operand := by
  obtain ⟨id, payload, location, children⟩ := operand
  cases payload <;> simp [displayed, kept, Payload.shown]

/-- Of the call that displays an operand, only the operand is not new. -/
theorem filter_kept_displayCall {m d s : Bool} {start : Nat} (hstart : start ≤ next)
    (location : Location) (operand : Node) :
    (kept m d s (displayCall next location operand)).filter (·.id < start) =
      (kept m d true operand).filter (·.id < start) := by
  have hnew : ∀ k, ¬next + k < start := fun k => by omega
  have hfirst : ¬next < start := hnew 0
  rw [← kept_displayed]
  generalize hshown : displayed operand = argument
  simp [displayCall, hshown, kept, keptAll, hnew, hfirst]

/-- Of the calls that display some operands, only the operands are not new. -/
theorem filter_keptAll_displayCalls {m d p s : Bool} {start : Nat} (hstart : start ≤ next)
    {operands calls : List Node} (hcalls : List.Forall₂ (fun operand call =>
      ∃ first, next ≤ first ∧ call = displayCall first location operand) operands calls) :
    (keptAll m d p s calls).filter (·.id < start) = (keptAll m d false true operands).filter
      (·.id < start) := by
  induction hcalls with
  | nil => rfl
  | @cons operand call _ _ hcall _ ih =>
    obtain ⟨first, hfirst, rfl⟩ := hcall
    have hmarker : (displayCall first location operand).is .endProgram = false := rfl
    rw [keptAll, keptAll, List.filter_append, List.filter_append, ih, hmarker]
    simp [filter_kept_displayCall (hstart.trans hfirst)]

theorem splices_display {after : Nat} {children operands : List Node}
    (h : Splices next children operands after) :
    Splices next [⟨id, .displayStatement, location, children⟩]
      (operands.mapIdx fun i operand => displayCall (after + displayIds * i) location operand)
      (after + displayIds * operands.length) where
  le := h.le.trans (Nat.le_add_right _ _)
  count_ids := fun x => by
    have hchildren := h.count_ids x
    have hsum := within_add h.le (Nat.le_add_right after (displayIds * operands.length)) x
    rw [count_allIds_displayCalls, allIds_cons, ids_eq]
    simp only [allIds_nil, List.append_nil, List.count_cons]
    omega
  kept_eq := fun m d p s start hstart => by
    rw [filter_keptAll_displayCalls (hstart.trans h.le)
      (forall₂_displayCall after location operands),
      keptAll_singleton (by simp [Node.tag, Payload.tag]), kept_display]
    exact h.kept_eq m d false true start hstart

theorem splices_keep {after : Nat} {children lowered : List Node}
    (hpayload : payload ≠ .displayStatement) (h : Splices next children lowered after) :
    Splices next [⟨id, payload, location, children⟩] [⟨id, payload, location, lowered⟩] after where
  le := h.le
  count_ids := fun x => by
    have hchildren := h.count_ids x
    simp only [allIds_cons, allIds_nil, List.append_nil, count_ids]
    omega
  kept_eq := fun m d p s start hstart => by
    have hchildren := h.kept_eq m d (payload = .program) false start hstart
    have hnode : ∀ d (ns : List Node), keptAll m d p s [⟨id, payload, location, ns⟩] =
        if m && p && payload.tag = .endProgram then []
        else ⟨id, if s then payload.shown else payload, location, []⟩ ::
          keptAll m d (payload = .program) false ns := by
      intro d ns
      rw [keptAll, keptAll, List.append_nil, kept_mk fun _ => hpayload]
      rfl
    rw [hnode, hnode]
    split
    · rfl
    · rw [List.filter_cons, List.filter_cons, hchildren]

/-- Lowering splices the calls into any tree. -/
theorem ensures_splices (n : Node) (next : Nat) :
    Ensures (Rebuilder.rebuild displayCalls n) next (Splices next [n]) (fun _ _ => False) := by
  refine Rebuilder.ensures_rebuild (P := fun n next ns after => Splices next [n] ns after)
    (Q := fun children next ns after => Splices next children ns after)
    (fun next => ⟨le_rfl, fun x => Nat.le_add_right _ _, fun _ _ _ _ _ _ => rfl⟩) ?_ ?_ n next
  · intro n rest ns ms _ _ _ hfirst hrest
    exact hfirst.append hrest
  · intro id payload location children lowered next after hchildren
    by_cases hpayload : payload = .displayStatement
    · subst hpayload
      exact splices_display hchildren
    · have htag : Node.tag ⟨id, payload, location, lowered⟩ ≠ .displayStatement :=
        mt Payload.tag_eq_displayStatement.mp hpayload
      rw [displayCalls_of_tag_ne htag, ensures_pure]
      exact splices_keep hpayload hchildren

theorem splices_of_lowerDisplay (h : lowerDisplay root run = .ok tree after) :
    after = { run with nextId := after.nextId } ∧
      Splices run.nextId [root] [tree] after.nextId := by
  obtain ⟨nodes, next, hrebuild, hsplices⟩ := (ensures_splices root run.nextId).exists_ok
  by_cases hlength : nodes.length = 1
  · obtain ⟨tree', htree⟩ := List.length_eq_one_iff.mp hlength
    rw [lowerDisplay_of_single hrebuild htree] at h
    cases h
    exact ⟨rfl, htree ▸ hsplices⟩
  · rw [lowerDisplay_of_length_ne hrebuild hlength] at h
    cases h

end CallSite

namespace Node

/-- Reversing argument lists changes the order of nodes only. -/
theorem kept_reversed (m d s : Bool) (n : Node) : (kept m d s n.reversed).Perm (kept m d s n) := by
  induction n using induction_on generalizing s with
  | node id payload location children ih =>
    have hchildren :
        ∀ p s, (keptAll m d p s (children.map reversed)).Perm (keptAll m d p s children) := by
      intro p s
      induction children with
      | nil => exact .refl _
      | cons c rest ihrest =>
        have htag : c.reversed.is .endProgram = c.is .endProgram := by
          rw [is, is, tag, tag, payload_reversed]
        rw [List.map_cons, keptAll, keptAll, htag]
        refine List.Perm.append ?_ (ihrest fun c hc => ih c (List.mem_cons_of_mem _ hc))
        split
        · exact .refl _
        · exact ih c List.mem_cons_self s
    -- under the heading of arguments the children also change places, which a filter does not see
    by_cases hpayload : payload = .callUsings
    · subst hpayload
      have hreverse : ∀ p s, (keptAll m d p s (children.map reversed).reverse).Perm
          (keptAll m d p s (children.map reversed)) := by
        intro p s
        rw [keptAll_eq_filter, keptAll_eq_filter]
        exact ((List.reverse_perm _).filter _).flatMap_right _
      rw [reversed_callUsings, kept_mk (by simp), kept_mk (by simp)]
      exact ((hreverse _ _).trans (hchildren _ _)).cons _
    · rw [reversed_mk hpayload, kept, kept]
      split
      · exact hchildren false true
      · exact (hchildren _ false).cons _

/-- Reversing argument lists twice gives back the tree. -/
theorem reversed_reversed (n : Node) : n.reversed.reversed = n := by
  induction n using induction_on with
  | node id payload location children ih =>
    have hchildren : (children.map reversed).map reversed = children := by
      rw [List.map_map]
      conv_rhs => rw [← List.map_id children]
      exact List.map_congr_left ih
    by_cases hpayload : payload = .callUsings
    · subst hpayload
      rw [reversed_callUsings, reversed_callUsings, List.map_reverse, hchildren,
        List.reverse_reverse]
    · rw [reversed_mk hpayload, reversed_mk hpayload, hchildren]

end Node

/-! ### Which nodes those are -/

theorem Payload.tag_eq_program : payload.tag = .program ↔ payload = .program := by
  cases payload <;> simp [Payload.tag]

namespace Node

variable {k : Node} {m d s : Bool}

/-- The node lies in an end marker of a program of the tree. -/
def InMarker (root n : Node) : Prop :=
  ∃ program ∈ root.nodes, program.tag = .program ∧
    ∃ marker ∈ program.children, marker.tag = .endProgram ∧ n ∈ marker.nodes

/-- The node is an operand of a DISPLAY statement of the tree. -/
def IsOperand (root n : Node) : Prop :=
  ∃ display ∈ root.nodes, display.tag = .displayStatement ∧ n ∈ display.children

/-- The node `n` has become the node `k`: a field that is an operand of a DISPLAY statement is now
passed by content, and everything else about it is the same. -/
structure RemainsAs (operand : Prop) (n k : Node) : Prop where
  id_eq : k.id = n.id
  location_eq : k.location = n.location
  shown : operand → k.payload = n.payload.shown
  plain : ¬operand → k.payload = n.payload

theorem RemainsAs.congr {operand operand' : Prop} {n k : Node} (h : RemainsAs operand n k)
    (heq : operand ↔ operand') :
    RemainsAs operand' n k :=
  ⟨h.id_eq, h.location_eq, fun ho => h.shown (heq.mpr ho),
    fun ho => h.plain fun ho' => ho (heq.mp ho')⟩

theorem exists_remainsAs (operand : Prop) (n : Node) :
    ∃ k, RemainsAs operand n k ∧ k.children = [] := by
  by_cases h : operand
  · exact ⟨⟨n.id, n.payload.shown, n.location, []⟩,
      ⟨rfl, rfl, fun _ => rfl, fun hnot => absurd h hnot⟩, rfl⟩
  · exact ⟨bare n, ⟨rfl, rfl, fun hyes => absurd hyes h, fun _ => rfl⟩, rfl⟩

/-- The node that `kept` puts in the place of a node that is left. -/
theorem eq_mk_iff_remainsAs {s : Bool} {children : List Node} :
    k = ⟨id, if s then payload.shown else payload, location, []⟩ ↔
      RemainsAs (s = true) ⟨id, payload, location, children⟩ k ∧ k.children = [] := by
  obtain ⟨kid, kpayload, klocation, kchildren⟩ := k
  constructor
  · intro heq
    cases heq
    exact ⟨⟨rfl, rfl, fun hs => if_pos hs, fun hs => if_neg hs⟩, rfl⟩
  · intro h
    obtain ⟨⟨rfl, rfl, hshown, hplain⟩, rfl⟩ := h
    by_cases hs : s = true
    · rw [if_pos hs]
      exact congrArg (Node.mk kid · klocation []) (hshown hs)
    · rw [if_neg hs]
      exact congrArg (Node.mk kid · klocation []) (hplain hs)

/-- The node `n` of the tree is left, as the node `k`. The tree itself is an operand if `s`. -/
structure LeftAs (m d s : Bool) (root n k : Node) : Prop where
  mem : n ∈ root.nodes
  display : d = true → n.tag ≠ .displayStatement
  marker : m = true → ¬InMarker root n
  remains : RemainsAs ((d = true ∧ IsOperand root n) ∨ (s = true ∧ n = root)) n k

section unique

variable {root : Node} (hunique : root.UniqueIds)

include hunique

theorem UniqueIds.nodup_children : (allIds root.children).Nodup := by
  rw [UniqueIds, ids_eq] at hunique
  exact (List.nodup_cons.mp hunique).2

variable {c n : Node}

theorem UniqueIds.child (hc : c ∈ root.children) : c.UniqueIds :=
  (List.nodup_flatMap.mp hunique.nodup_children).1 c hc

theorem UniqueIds.notMem_child (hc : c ∈ root.children) : root ∉ c.nodes := by
  intro hmem
  rw [UniqueIds, ids_eq] at hunique
  exact (List.nodup_cons.mp hunique).1 (List.mem_flatMap.mpr ⟨c, hc, List.mem_map_of_mem hmem⟩)

/-- A node is known by its identity. -/
theorem UniqueIds.eq_of_id_eq {n' : Node} (hn : n ∈ root.nodes) (hn' : n' ∈ root.nodes)
    (hid : n.id = n'.id) : n = n' :=
  List.inj_on_of_nodup_map hunique hn hn' hid

/-- A node lies under one child only. -/
theorem UniqueIds.child_eq {c' : Node} (hc : c ∈ root.children) (hc' : c' ∈ root.children)
    (hn : n ∈ c.nodes) (hn' : n ∈ c'.nodes) : c' = c := by
  by_contra hne
  have : Std.Symm (Function.onFun List.Disjoint ids) := ⟨fun _ _ h _ hx hy => h hy hx⟩
  have hdisjoint := (List.nodup_flatMap.mp hunique.nodup_children).2.forall hc' hc hne
  exact hdisjoint (List.mem_map_of_mem hn') (List.mem_map_of_mem hn)

theorem inMarker_child_iff (hc : c ∈ root.children) (hn : n ∈ c.nodes) :
    InMarker root n ↔ (root.tag = .program ∧ c.tag = .endProgram) ∨ InMarker c n := by
  constructor
  · intro h
    obtain ⟨program, hprogram, htag, marker, hmarker, hend, hmem⟩ := h
    rcases mem_nodes.mp hprogram with rfl | ⟨c', hc', hbelow⟩
    · obtain rfl := hunique.child_eq hc hmarker hn hmem
      exact .inl ⟨htag, hend⟩
    · have hn' : n ∈ c'.nodes := nodes_trans hbelow (mem_nodes_of_child hmarker hmem)
      obtain rfl := hunique.child_eq hc hc' hn hn'
      exact .inr ⟨program, hbelow, htag, marker, hmarker, hend, hmem⟩
  · intro h
    rcases h with ⟨htag, hend⟩ | ⟨program, hprogram, hinner⟩
    · exact ⟨root, root.self_mem_nodes, htag, c, hc, hend, hn⟩
    · exact ⟨program, mem_nodes_of_child hc hprogram, hinner⟩

theorem isOperand_child_iff (hc : c ∈ root.children) (hn : n ∈ c.nodes) :
    IsOperand root n ↔ (root.tag = .displayStatement ∧ n = c) ∨ IsOperand c n := by
  constructor
  · intro h
    obtain ⟨display, hdisplay, htag, hmem⟩ := h
    rcases mem_nodes.mp hdisplay with rfl | ⟨c', hc', hbelow⟩
    · exact .inl ⟨htag, hunique.child_eq hc hmem hn n.self_mem_nodes⟩
    · have hn' : n ∈ c'.nodes := nodes_trans hbelow (child_mem_nodes hmem)
      obtain rfl := hunique.child_eq hc hc' hn hn'
      exact .inr ⟨display, hbelow, htag, hmem⟩
  · intro h
    rcases h with ⟨htag, rfl⟩ | ⟨display, hdisplay, hinner⟩
    · exact ⟨root, root.self_mem_nodes, htag, hc⟩
    · exact ⟨display, mem_nodes_of_child hc hdisplay, hinner⟩

/-- The tree itself is in none of its parts. -/
theorem not_inMarker_root : ¬InMarker root root := by
  intro h
  obtain ⟨program, hprogram, -, marker, hmarker, -, hmem⟩ := h
  rcases mem_nodes.mp hprogram with rfl | ⟨c, hc, hbelow⟩
  · exact hunique.notMem_child hmarker hmem
  · exact hunique.notMem_child hc (nodes_trans hbelow (mem_nodes_of_child hmarker hmem))

theorem not_isOperand_root : ¬IsOperand root root := by
  intro h
  obtain ⟨display, hdisplay, -, hmem⟩ := h
  rcases mem_nodes.mp hdisplay with rfl | ⟨c, hc, hbelow⟩
  · exact hunique.notMem_child hmem (self_mem_nodes _)
  · exact hunique.notMem_child hc (nodes_trans hbelow (child_mem_nodes hmem))

theorem leftAs_root_iff :
    LeftAs m d s root root k ↔ (d = true → root.tag ≠ .displayStatement) ∧
      RemainsAs (s = true) root k := by
  have hoperand : (d = true ∧ IsOperand root root ∨ s = true ∧ root = root) ↔ s = true := by
    simp [not_isOperand_root hunique]
  constructor
  · intro h
    exact ⟨h.display, h.remains.congr hoperand⟩
  · intro h
    exact ⟨root.self_mem_nodes, h.1, fun _ => not_inMarker_root hunique, h.2.congr hoperand.symm⟩

theorem leftAs_child_iff {k : Node} (hc : c ∈ root.children) (hn : n ∈ c.nodes) :
    LeftAs m d s root n k ↔ (m = true → root.tag = .program → c.tag ≠ .endProgram) ∧
      LeftAs m d (d && root.tag = .displayStatement) c n k := by
  have hroot : n ≠ root := by
    intro heq
    subst heq
    exact hunique.notMem_child hc hn
  have hmarker := inMarker_child_iff hunique hc hn
  -- the parent makes a difference only for its own child
  have hoperand : (d = true ∧ IsOperand root n ∨ s = true ∧ n = root) ↔
      (d = true ∧ IsOperand c n ∨ (d && root.tag = .displayStatement) = true ∧ n = c) := by
    rw [isOperand_child_iff hunique hc hn, Bool.and_eq_true, decide_eq_true_iff]
    constructor
    · intro h
      rcases h with ⟨hd, ⟨htag, heq⟩ | hinner⟩ | ⟨-, heq⟩
      · exact .inr ⟨⟨hd, htag⟩, heq⟩
      · exact .inl ⟨hd, hinner⟩
      · exact absurd heq hroot
    · intro h
      rcases h with ⟨hd, hinner⟩ | ⟨⟨hd, htag⟩, heq⟩
      · exact .inl ⟨hd, .inr hinner⟩
      · exact .inl ⟨hd, .inl ⟨htag, heq⟩⟩
  constructor
  · intro h
    refine ⟨fun hm htag hend => h.marker hm (hmarker.mpr (.inl ⟨htag, hend⟩)), hn, h.display, ?_,
      h.remains.congr hoperand⟩
    exact fun hm hin => h.marker hm (hmarker.mpr (.inr hin))
  · intro h
    refine ⟨mem_nodes_of_child hc hn, h.2.display, fun hm hin => ?_,
      h.2.remains.congr hoperand.symm⟩
    rcases hmarker.mp hin with ⟨htag, hend⟩ | hin
    · exact h.1 hm htag hend
    · exact h.2.marker hm hin

end unique

theorem mem_keptAll_iff {m d p s : Bool} {ns : List Node} :
    k ∈ keptAll m d p s ns ↔ ∃ n ∈ ns, (m = true → p = true → n.tag ≠ .endProgram) ∧
      k ∈ kept m d s n := by
  rw [keptAll_eq_filter, List.mem_flatMap]
  simp only [List.mem_filter, is, Bool.not_eq_true', Bool.and_eq_false_iff, decide_eq_false_iff_not,
    and_assoc]
  cases m <;> cases p <;> simp

/-- A node that is left is the tree itself, or left of one of its children. -/
theorem mem_kept_iff {root k : Node} :
    k ∈ kept m d s root ↔
      ((d = true → root.tag ≠ .displayStatement) ∧ RemainsAs (s = true) root k ∧ k.children = []) ∨
      ∃ c ∈ root.children, (m = true → root.tag = .program → c.tag ≠ .endProgram) ∧
        k ∈ kept m d (d && root.tag = .displayStatement) c := by
  obtain ⟨id, payload, location, children⟩ := root
  by_cases hdisplay : d = true ∧ payload = .displayStatement
  · obtain ⟨rfl, rfl⟩ := hdisplay
    rw [kept_display, mem_keptAll_iff]
    simp [tag, Payload.tag]
  · have htag : d = true → payload ≠ .displayStatement := fun hd hpayload => hdisplay ⟨hd, hpayload⟩
    -- so the children are not operands
    have hflag : (d && decide (payload = .displayStatement)) = false := by
      rw [Bool.and_eq_false_iff, decide_eq_false_iff_not]
      by_cases hd : d = true
      · exact .inr (htag hd)
      · exact .inl (by simpa using hd)
    rw [kept_mk htag, List.mem_cons, eq_mk_iff_remainsAs, mem_keptAll_iff]
    simp only [tag, decide_eq_true_iff, Payload.tag_eq_program, ne_eq,
      Payload.tag_eq_displayStatement, hflag]
    exact or_congr_left (and_iff_right htag).symm

/-- The nodes that are left are those of the tree that are meant to be left. -/
theorem mem_kept_iff_leftAs {root k : Node} (hunique : root.UniqueIds) :
    k ∈ kept m d s root ↔ (∃ n, LeftAs m d s root n k) ∧ k.children = [] := by
  -- the children of a DISPLAY statement are operands, so the induction is for both values of `s`
  induction root using induction_on generalizing s with
  | node id payload location children ih =>
    rw [mem_kept_iff]
    constructor
    · intro h
      rcases h with ⟨hdisplay, hremains, hbare⟩ | ⟨c, hc, hmarker, hmem⟩
      · exact ⟨⟨_, (leftAs_root_iff hunique).mpr ⟨hdisplay, hremains⟩⟩, hbare⟩
      · obtain ⟨⟨n, hn⟩, hbare⟩ := (ih c hc (hunique.child hc)).mp hmem
        exact ⟨⟨n, (leftAs_child_iff hunique hc hn.mem).mpr ⟨hmarker, hn⟩⟩, hbare⟩
    · intro h
      obtain ⟨⟨n, hn⟩, hbare⟩ := h
      rcases mem_nodes.mp hn.mem with rfl | ⟨c, hc, hmem⟩
      · obtain ⟨hdisplay, hremains⟩ := (leftAs_root_iff hunique).mp hn
        exact .inl ⟨hdisplay, hremains, hbare⟩
      · obtain ⟨hmarker, hchild⟩ := (leftAs_child_iff hunique hc hmem).mp hn
        exact .inr ⟨c, hc, hmarker, (ih c hc (hunique.child hc)).mpr ⟨⟨n, hchild⟩, hbare⟩⟩

end Node

/-! ### Chains of rewritings -/

/-- The passes that rewrite the tree. -/
inductive Rewriting
  | endMarkers
  | lowerDisplay
  | reverseArguments
  deriving DecidableEq

namespace Rewriting

open Node

/-- The pass. -/
def action : Rewriting → Node → RunM Node
  | .endMarkers => Declaration.endMarkers
  | .lowerDisplay => CallSite.lowerDisplay
  | .reverseArguments => Generation.reverseArguments

/-- Several rewritings, one after the other. -/
def chain (rewritings : List Rewriting) (root : Node) : RunM Node :=
  rewritings.foldlM (fun root rewriting => rewriting.action root) root

/-- How a tree and a run stand to those at the start of a chain, after some rewritings. Of the nodes
that are not new, the tree has those that are left of the first one. This is asked for whatever may
be dropped or lowered later, since a step needs it for what the step itself drops or lowers. -/
structure Rewritten (root : Node) (run : Run) (done : List Rewriting) (tree : Node)
    (after : Run) : Prop where
  uniqueIds : tree.UniqueIds
  issued : ∀ x ∈ tree.ids, x < after.nextId
  le : run.nextId ≤ after.nextId
  run_eq : after = { run with nextId := after.nextId }
  kept_perm : ∀ m d, ((kept m d false tree).filter (·.id < run.nextId)).Perm
    (kept (m || decide (.endMarkers ∈ done)) (d || decide (.lowerDisplay ∈ done)) false root)

section step

variable {root tree tree' : Node} {run after after' : Run} {done : List Rewriting}

theorem rewritten_start (hunique : root.UniqueIds) (hissued : ∀ x ∈ root.ids, x < run.nextId) :
    Rewritten root run [] root run where
  uniqueIds := hunique
  issued := hissued
  le := le_rfl
  run_eq := rfl
  kept_perm := by
    intro m d
    have hall : ∀ k ∈ kept m d false root, decide (k.id < run.nextId) = true := by
      intro k hk
      exact decide_eq_true (hissued k.id (root.ids_kept_sublist.subset (List.mem_map_of_mem hk)))
    rw [List.filter_eq_self.mpr hall]
    simp

theorem Rewritten.endMarkers (h : Rewritten root run done tree after)
    (hstep : Declaration.endMarkers tree after = .ok tree' after') :
    Rewritten root run (done ++ [.endMarkers]) tree' after' := by
  obtain ⟨rfl, hmarkers⟩ := Declaration.withoutMarkers_of_endMarkers hstep
  have hids : tree'.ids.Sublist tree.ids := by
    rw [ids_eq_map_kept tree', hmarkers.kept_eq]
    exact tree.ids_kept_sublist
  refine ⟨h.uniqueIds.sublist hids, fun x hx => h.issued x (hids.subset hx), h.le, h.run_eq,
    fun m d => ?_⟩
  -- no markers are left to be dropped, so what is left of the result is what is left of the tree
  -- without its markers
  rw [hmarkers.kept_eq]
  simpa using h.kept_perm true d

theorem Rewritten.lowerDisplay (h : Rewritten root run done tree after)
    (hstep : CallSite.lowerDisplay tree after = .ok tree' after') :
    Rewritten root run (done ++ [.lowerDisplay]) tree' after' := by
  obtain ⟨hrun, hsplices⟩ := CallSite.splices_of_lowerDisplay hstep
  have hcount : ∀ x, tree'.ids.count x ≤ tree.ids.count x +
      within after.nextId after'.nextId x := by
    intro x
    simpa using hsplices.count_ids x
  obtain ⟨hunique, hissued⟩ := Node.uniqueIds_of_count_le h.uniqueIds h.issued hsplices.le hcount
  refine ⟨hunique, hissued, h.le.trans hsplices.le, ?_, fun m d => ?_⟩
  · rw [hrun, h.run_eq]
  · -- the calls are new to this step, and so to the whole chain
    have hkept := hsplices.kept_eq m d false false run.nextId h.le
    rw [keptAll_singleton (by simp), keptAll_singleton (by simp)] at hkept
    rw [hkept]
    simpa using h.kept_perm m true

theorem Rewritten.reverseArguments (h : Rewritten root run done tree after)
    (hstep : Generation.reverseArguments tree after = .ok tree' after') :
    Rewritten root run (done ++ [.reverseArguments]) tree' after' := by
  rw [Generation.reverseArguments_eq] at hstep
  cases hstep
  have hids : tree.reversed.ids.Perm tree.ids := by
    rw [ids_eq_map_kept, ids_eq_map_kept tree]
    exact (kept_reversed false false false tree).map _
  refine ⟨hids.symm.nodup h.uniqueIds, fun x hx => h.issued x (hids.subset hx), h.le, h.run_eq,
    fun m d => ?_⟩
  have hperm := ((kept_reversed m d false tree).filter _).trans (h.kept_perm m d)
  simpa using hperm

end step

/-- Each rewriting keeps what the chain before it has kept. -/
theorem rewritten_of_chain {rewritings : List Rewriting} (hunique : root.UniqueIds)
    (hissued : ∀ x ∈ root.ids, x < run.nextId) (h : chain rewritings root run = .ok tree after) :
    Rewritten root run rewritings tree after := by
  have hensures :
      Ensures (chain rewritings root) run (Rewritten root run rewritings) (fun _ _ => True) := by
    refine ensures_foldlM (Rewritten root run) (rewritten_start hunique hissued) ?_
    intro done rewriting rest tree after _ hdone
    rw [ensures_iff]
    refine ⟨fun tree' after' hstep => ?_, fun _ _ _ => trivial⟩
    cases rewriting with
    | endMarkers => exact hdone.endMarkers hstep
    | lowerDisplay => exact hdone.lowerDisplay hstep
    | reverseArguments => exact hdone.reverseArguments hstep
  exact hensures.of_ok h

/-- The node is not one that a rewriting removes. -/
structure Survives (rewritings : List Rewriting) (root n : Node) : Prop where
  display : .lowerDisplay ∈ rewritings → n.tag ≠ .displayStatement
  marker : .endMarkers ∈ rewritings → ¬InMarker root n

/-- The node is passed to DISPLAY when the rewritings are done. -/
def Shown (rewritings : List Rewriting) (root n : Node) : Prop :=
  .lowerDisplay ∈ rewritings ∧ IsOperand root n

section nodes

variable {root tree : Node} {run after : Run} {rewritings : List Rewriting}

theorem Rewritten.bare_mem_iff (h : Rewritten root run rewritings tree after) {k : Node} :
    (∃ m ∈ tree.nodes, bare m = k ∧ m.id < run.nextId) ↔
      k ∈ kept (decide (.endMarkers ∈ rewritings)) (decide (.lowerDisplay ∈ rewritings)) false
        root := by
  have hperm := h.kept_perm false false
  rw [Bool.false_or, Bool.false_or, kept_all] at hperm
  rw [← hperm.mem_iff, List.mem_filter, List.mem_map, decide_eq_true_iff]
  constructor
  · intro hm
    obtain ⟨m, hmem, rfl, hlt⟩ := hm
    exact ⟨⟨m, hmem, rfl⟩, hlt⟩
  · intro hm
    obtain ⟨⟨m, hmem, rfl⟩, hlt⟩ := hm
    exact ⟨m, hmem, rfl, hlt⟩

theorem leftAs_iff {n k : Node} :
    LeftAs (decide (.endMarkers ∈ rewritings)) (decide (.lowerDisplay ∈ rewritings)) false
      root n k ↔
      n ∈ root.nodes ∧ Survives rewritings root n ∧ RemainsAs (Shown rewritings root n) n k := by
  have hoperand :
      (decide (.lowerDisplay ∈ rewritings) = true ∧ IsOperand root n ∨ false = true ∧ n = root) ↔
      Shown rewritings root n := by
    simp [Shown]
  constructor
  · intro h
    exact ⟨h.mem, ⟨fun hd => h.display (decide_eq_true hd), fun hm => h.marker (decide_eq_true hm)⟩,
      h.remains.congr hoperand⟩
  · intro h
    exact ⟨h.1, fun hd => h.2.1.display (of_decide_eq_true hd),
      fun hm => h.2.1.marker (of_decide_eq_true hm), h.2.2.congr hoperand.symm⟩

/-- A node of the result whose identity was taken at the start is one of the nodes of the start. -/
theorem Rewritten.exists_original (h : Rewritten root run rewritings tree after)
    (hunique : root.UniqueIds) {m : Node} (hm : m ∈ tree.nodes) (hlt : m.id < run.nextId) :
    ∃ n ∈ root.nodes, Survives rewritings root n ∧ RemainsAs (Shown rewritings root n) n m := by
  obtain ⟨⟨n, hleft⟩, -⟩ := (mem_kept_iff_leftAs hunique).mp (h.bare_mem_iff.mp ⟨m, hm, rfl, hlt⟩)
  obtain ⟨hmem, hsurvives, hremains⟩ := leftAs_iff.mp hleft
  exact ⟨n, hmem, hsurvives, ⟨hremains.id_eq, hremains.location_eq, hremains.shown, hremains.plain⟩⟩

/-- A node of the start that no rewriting removes is in the result. -/
theorem Rewritten.exists_remaining (h : Rewritten root run rewritings tree after)
    (hunique : root.UniqueIds) {n : Node} (hn : n ∈ root.nodes)
    (hsurvives : Survives rewritings root n) : ∃ m ∈ tree.nodes, m.id = n.id := by
  obtain ⟨k, hremains, hbare⟩ := exists_remainsAs (Shown rewritings root n) n
  have hkept :=
    (mem_kept_iff_leftAs hunique).mpr ⟨⟨n, leftAs_iff.mpr ⟨hn, hsurvives, hremains⟩⟩, hbare⟩
  obtain ⟨m, hm, rfl, -⟩ := h.bare_mem_iff.mpr hkept
  exact ⟨m, hm, hremains.id_eq⟩

end nodes

end Rewriting

/-- What is known of `n` is what is known of `m` later. -/
structure Bindings.SameAbout (b b' : Bindings) (n m : Node) : Prop where
  program : b'.program? m = b.program? n
  field : b'.field? m = b.field? n
  callee : b'.callee? m = b.callee? n
  type : b'.type? m = b.type? n
  param : b'.param? m = b.param? n

theorem Bindings.sameAbout_of_id_eq {b : Bindings} {n m : Node} (h : m.id = n.id) :
    SameAbout b b n m := by
  constructor <;> simp only [program?, field?, callee?, type?, param?, h]

open Rewriting Node in
/-- Rewriting keeps identities. On a tree with unique identities, all of them taken, the result of a
chain of rewritings has unique identities; the nodes that keep theirs are those that no rewriting
removes, each with its location, its payload (but for a field that is displayed, which is passed by
content) and all that was known of it; and any other node has an identity that was free. Reversing
the arguments twice changes nothing. -/
theorem identities_survive_rewriting (rewritings : List Rewriting) (root tree : Node)
    (run after : Run) (hunique : root.UniqueIds) (hissued : ∀ x ∈ root.ids, x < run.nextId)
    (hchain : chain rewritings root run = .ok tree after) :
    tree.UniqueIds ∧
    (∀ n ∈ root.nodes, n.id ∈ tree.ids ↔ Survives rewritings root n) ∧
    (∀ n ∈ root.nodes, ∀ m ∈ tree.nodes, m.id = n.id →
      RemainsAs (Shown rewritings root n) n m ∧
        Bindings.SameAbout run.bindings after.bindings n m) ∧
    (∀ m ∈ tree.nodes, m.id ∉ root.ids → run.nextId ≤ m.id ∧ m.id < after.nextId) ∧
    (∀ (other : Node) (run : Run),
      chain [.reverseArguments, .reverseArguments] other run = .ok other run) := by
  have hdone := rewritten_of_chain hunique hissued hchain
  -- a node of the result with the identity of a node of the start can only be that node
  have horiginal : ∀ n ∈ root.nodes, ∀ m ∈ tree.nodes, m.id = n.id →
      Survives rewritings root n ∧ RemainsAs (Shown rewritings root n) n m := by
    intro n hn m hm hid
    have hlt : m.id < run.nextId := hid ▸ hissued n.id (List.mem_map_of_mem hn)
    obtain ⟨n', hn', hsurvives, hremains⟩ := hdone.exists_original hunique hm hlt
    obtain rfl := hunique.eq_of_id_eq hn' hn (hremains.id_eq.symm.trans hid)
    exact ⟨hsurvives, hremains⟩
  refine ⟨hdone.uniqueIds, fun n hn => ⟨fun hid => ?_, fun hsurvives => ?_⟩,
    fun n hn m hm hid => ⟨?_, ?_⟩, fun m hm hfree => ⟨?_, ?_⟩, fun other run => ?_⟩
  · obtain ⟨m, hm, hid⟩ := List.mem_map.mp hid
    exact (horiginal n hn m hm hid).1
  · obtain ⟨m, hm, hid⟩ := hdone.exists_remaining hunique hn hsurvives
    exact List.mem_map.mpr ⟨m, hm, hid⟩
  · exact (horiginal n hn m hm hid).2
  · rw [hdone.run_eq]
    exact Bindings.sameAbout_of_id_eq hid
  · by_contra hlt
    obtain ⟨n, hn, -, hremains⟩ := hdone.exists_original hunique hm (by omega)
    exact hfree (hremains.id_eq ▸ List.mem_map_of_mem hn)
  · exact hdone.issued m.id (List.mem_map_of_mem hm)
  · simp only [chain, action, List.foldlM_cons, List.foldlM_nil, bind_apply,
      Generation.reverseArguments_eq, Node.reversed_reversed]
    rfl

open Build

/-- A program with an end marker, which displays a field and the result of a call, numbered from
zero; the number that follows. -/
def bulletin : Node × Nat :=
  (program "BULLETIN"
    [procedure [] []
      [node .displayStatement
        [leaf (.callUsingId "TOTAL" false),
         callExpression "ROUND" none
          [leaf (.callUsingId "TOTAL" false), leaf (.callUsingId "RATE" false)]]],
     leaf (.endProgram "BULLETIN")]).renumber 0

def bulletinRun : Run :=
  (Session.start {} .empty).beginRun "BULLETIN.cbl" none bulletin.2

open Rewriting in
/-- The statement and the marker are gone, two calls are new, and the arguments of the inner call
have changed places. -/
theorem bulletin_identities :
    ∃ tree after, chain [.lowerDisplay, .endMarkers, .reverseArguments] bulletin.1 bulletinRun =
      .ok tree after ∧
      tree.ids = [0, 1, 2, 12, 13, 14, 15, 16, 4, 17, 18, 19, 20, 21, 5, 6, 7, 8, 10, 9] ∧
        tree.UniqueIds ∧
      (∀ n ∈ bulletin.1.nodes, n.id ∈ tree.ids ↔
        Survives [.lowerDisplay, .endMarkers, .reverseArguments] bulletin.1 n) ∧
      ∀ m ∈ tree.nodes, m.id ∉ bulletin.1.ids → 12 ≤ m.id ∧ m.id < after.nextId := by
  have hanswer :
      (answerOf? (chain [.lowerDisplay, .endMarkers, .reverseArguments] bulletin.1) bulletinRun).map
      Node.ids = some [0, 1, 2, 12, 13, 14, 15, 16, 4, 17, 18, 19, 20, 21, 5, 6, 7, 8, 10, 9] := by
    decide +kernel
  obtain ⟨tree, htree, hids⟩ := Option.map_eq_some_iff.mp hanswer
  obtain ⟨after, hchain⟩ := exists_of_answerOf? htree
  obtain ⟨hunique, hsurvive, -, hfree, -⟩ := identities_survive_rewriting _ bulletin.1 tree
    bulletinRun after (Node.uniqueIds_renumber _ 0) (Node.lt_of_mem_ids_renumber _ 0) hchain
  exact ⟨tree, after, hchain, hids, hunique, hsurvive, hfree⟩

end CobolCompiler
