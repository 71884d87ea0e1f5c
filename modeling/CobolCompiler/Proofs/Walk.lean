import CobolCompiler.Proofs.Outcome
import CobolCompiler.Tree.Traversal
import CobolCompiler.Proofs.Grammar

/-!
# Walks and rebuilding

The nodes of a tree in the order of a walk, and what a walk or a rebuilding does in terms of what is
done at each node.

* A walk that does nothing on leaving is a loop over the nodes (`walk_eq_forM`), and a walk that
  does nothing at all may be left out (`walk_inert`).
* What each step of a walk keeps, the walk keeps, on any tree (`ensures_walk_of_invariant`).
* What holds of each node once its children are rebuilt, holds of the rebuilt tree
  (`ensures_rebuild`); a rebuilding that replaces each node by one node is a map over the tree
  (`ensures_rebuild_mapUp`).
-/

namespace CobolCompiler

namespace Node

mutual

/-- The nodes of a tree, parents before their children. -/
def nodes : Node → List Node
  | ⟨id, payload, location, children⟩ => ⟨id, payload, location, children⟩ :: allNodes children

/-- The nodes of several trees. -/
def allNodes : List Node → List Node
  | [] => []
  | n :: rest => n.nodes ++ allNodes rest

end

theorem allNodes_eq (ns : List Node) : allNodes ns = ns.flatMap nodes := by
  induction ns with
  | nil => rfl
  | cons n rest ih => rw [allNodes, ih, List.flatMap_cons]

theorem nodes_eq (n : Node) : n.nodes = n :: n.children.flatMap nodes := by
  obtain ⟨id, payload, location, children⟩ := n
  rw [nodes, allNodes_eq]

theorem self_mem_nodes (n : Node) : n ∈ n.nodes := by
  rw [nodes_eq]
  exact List.mem_cons_self

variable {n : Node}

theorem mem_nodes {m : Node} : m ∈ n.nodes ↔ m = n ∨ ∃ c ∈ n.children, m ∈ c.nodes := by
  rw [nodes_eq, List.mem_cons, List.mem_flatMap]

theorem mem_nodes_of_child {c m : Node} (hc : c ∈ n.children) (hm : m ∈ c.nodes) : m ∈ n.nodes :=
  mem_nodes.mpr (Or.inr ⟨c, hc, hm⟩)

theorem child_mem_nodes {c : Node} (hc : c ∈ n.children) : c ∈ n.nodes :=
  mem_nodes_of_child hc c.self_mem_nodes

theorem nodes_trans {m k : Node} (hm : m ∈ n.nodes) (hk : k ∈ m.nodes) : k ∈ n.nodes := by
  induction n using induction_on with
  | node id payload location children ih =>
    rcases mem_nodes.mp hm with rfl | ⟨c, hc, hm⟩
    · exact hk
    · exact mem_nodes_of_child hc (ih c hc hm)

/-- Arguments and targets of a call are nodes of its tree. -/
theorem argument_mem_nodes {call a : Node} (ha : a ∈ call.arguments) : a ∈ call.nodes := by
  simp only [arguments, childrenOf, List.mem_flatMap, List.mem_filter] at ha
  obtain ⟨usings, ⟨husings, _⟩, ha⟩ := ha
  exact mem_nodes_of_child husings (child_mem_nodes ha)

theorem returning_mem_nodes {call r : Node} (hr : r ∈ call.returnings) : r ∈ call.nodes := by
  simp only [returnings, childrenOf, List.mem_flatMap, List.mem_filter] at hr
  obtain ⟨returnings, ⟨hreturnings, _⟩, hr⟩ := hr
  exact mem_nodes_of_child hreturnings (child_mem_nodes hr)

end Node

/-! ### Walks -/

namespace Visitor

variable {ε σ : Type} {v : Visitor ε σ}

theorem walk_mk (id : Nat) (payload : Payload) (location : Location) (children : List Node) :
    v.walk ⟨id, payload, location, children⟩ = (do
      v.enter ⟨id, payload, location, children⟩
      v.walkAll children
      v.leave ⟨id, payload, location, children⟩) := by
  funext s
  simp only [walk, bind, EStateM.bind]
  cases v.enter ⟨id, payload, location, children⟩ s with
  | error e t => rfl
  | ok _ t => simp only; cases v.walkAll children t <;> rfl

theorem walk_eq (n : Node) : v.walk n = (do v.enter n; v.walkAll n.children; v.leave n) := by
  obtain ⟨id, payload, location, children⟩ := n
  exact walk_mk id payload location children

variable {ns : List Node} {I : σ → Prop} {n : Node} {s : σ}

theorem walk_of_leave (h : v.leave n = pure ()) :
    v.walk n = (do v.enter n; v.walkAll n.children) := by
  rw [walk_eq, h]
  simp only [bind_pure_unit]

@[simp] theorem walkAll_nil : v.walkAll [] = pure () := rfl

theorem walkAll_cons (n : Node) (rest : List Node) :
    v.walkAll (n :: rest) = (do v.walk n; v.walkAll rest) := by
  funext s
  simp only [walkAll, bind, EStateM.bind]
  cases v.walk n s <;> rfl

theorem walkAll_singleton (n : Node) : v.walkAll [n] = v.walk n := by
  rw [walkAll_cons, walkAll_nil, bind_pure_unit]

theorem walkAll_append (ns ms : List Node) :
    v.walkAll (ns ++ ms) = (do v.walkAll ns; v.walkAll ms) := by
  induction ns with
  | nil => rw [List.nil_append, walkAll_nil, pure_bind]
  | cons n rest ih => rw [List.cons_append, walkAll_cons, walkAll_cons, ih, bind_assoc]

theorem walkAll_eq_forM (ns : List Node) : v.walkAll ns = ns.forM v.walk := by
  induction ns with
  | nil => rfl
  | cons n rest ih => rw [walkAll_cons, ih]; rfl

theorem walkAll_map {α : Type} (f : α → Node) (items : List α) :
    v.walkAll (items.map f) = items.forM fun item => v.walk (f item) := by
  induction items with
  | nil => rfl
  | cons item rest ih => rw [List.map_cons, walkAll_cons, ih]; rfl

theorem walkAll_of_forall (h : ∀ n ∈ ns, v.walk n = pure ()) : v.walkAll ns = pure () := by
  induction ns with
  | nil => rfl
  | cons n rest ih =>
    rw [walkAll_cons, h n List.mem_cons_self, pure_bind]
    exact ih fun m hm => h m (List.mem_cons_of_mem n hm)

theorem walkAll_of_forall_at (h : ∀ n ∈ ns, v.walk n s = .ok () s) :
    v.walkAll ns s = .ok () s := by
  induction ns with
  | nil => rfl
  | cons n rest ih =>
    simp only [walkAll, h n List.mem_cons_self]
    exact ih fun m hm => h m (List.mem_cons_of_mem n hm)

/-- In a state in which nothing is done at any node of a tree, its walk does nothing. -/
theorem walk_inert_at (h : ∀ m ∈ n.nodes, v.enter m s = .ok () s ∧ v.leave m s = .ok () s) :
    v.walk n s = .ok () s := by
  induction n using Node.induction_on with
  | node id payload location children ih =>
    have hchildren : v.walkAll children s = .ok () s :=
      walkAll_of_forall_at fun c hc => ih c hc fun m hm => h m (Node.mem_nodes_of_child hc hm)
    obtain ⟨henter, hleave⟩ := h _ (Node.self_mem_nodes _)
    simp only [walk, henter, hchildren, hleave]

/-- Trees in which nothing is done may be left out. -/
theorem walk_inert (h : ∀ m ∈ n.nodes, v.enter m = pure () ∧ v.leave m = pure ()) :
    v.walk n = pure () := by
  funext s
  apply walk_inert_at
  intro m hm
  rw [(h m hm).1, (h m hm).2]
  exact ⟨rfl, rfl⟩

theorem walkAll_inert (h : ∀ n ∈ ns, ∀ m ∈ n.nodes, v.enter m = pure () ∧ v.leave m = pure ()) :
    v.walkAll ns = pure () :=
  walkAll_of_forall fun n hn => walk_inert (h n hn)

/-- A loop over a chain of lists is a chain of loops. -/
theorem forM_append (f : Node → EStateM ε σ PUnit) (ns ms : List Node) :
    (ns ++ ms).forM f = (do ns.forM f; ms.forM f) := by
  induction ns with
  | nil => rfl
  | cons n rest ih =>
    change (f n >>= fun _ => (rest ++ ms).forM f) =
      ((f n >>= fun _ => rest.forM f) >>= fun _ => ms.forM f)
    rw [ih, bind_assoc]

theorem walkAll_eq_forM_nodes (h : ∀ n ∈ ns, v.walk n = n.nodes.forM v.enter) :
    v.walkAll ns = (ns.flatMap Node.nodes).forM v.enter := by
  induction ns with
  | nil => rfl
  | cons n rest ih =>
    rw [walkAll_cons, List.flatMap_cons, forM_append, h n List.mem_cons_self,
      ih fun m hm => h m (List.mem_cons_of_mem n hm)]

/-- A walk that does nothing on leaving is a loop over the nodes. -/
theorem walk_eq_forM (h : ∀ m ∈ n.nodes, v.leave m = pure ()) :
    v.walk n = n.nodes.forM v.enter := by
  induction n using Node.induction_on with
  | node id payload location children ih =>
    have hchildren : v.walkAll children = (children.flatMap Node.nodes).forM v.enter := by
      apply walkAll_eq_forM_nodes
      intro c hc
      exact ih c hc fun m hm => h m (Node.mem_nodes_of_child hc hm)
    rw [walk_mk, h _ (Node.self_mem_nodes _), hchildren, Node.nodes_eq]
    simp only [bind_pure_unit]
    rfl

/-- What entering and leaving the nodes of a tree keeps, its walk keeps. -/
theorem ensures_walk_of_mem {err : ε → σ → Prop}
    (henter : ∀ m ∈ n.nodes, ∀ s, I s → Ensures (v.enter m) s (fun _ => I) err)
    (hleave : ∀ m ∈ n.nodes, ∀ s, I s → Ensures (v.leave m) s (fun _ => I) err) (hs : I s) :
    Ensures (v.walk n) s (fun _ => I) err := by
  induction n using Node.induction_on generalizing s with
  | node id payload location children ih =>
    have hchildren : ∀ t, I t → Ensures (v.walkAll children) t (fun _ => I) err := by
      intro t ht
      rw [walkAll_eq_forM]
      refine ensures_forM (fun _ => I) ht ?_
      intro done c rest u hsplit hu
      have hc : c ∈ children := by rw [hsplit]; simp
      exact ih c hc (fun m hm => henter m (Node.mem_nodes_of_child hc hm))
        (fun m hm => hleave m (Node.mem_nodes_of_child hc hm)) hu
    rw [walk_mk]
    refine (henter _ (Node.self_mem_nodes _) s hs).bind ?_
    intro _ t ht
    refine (hchildren t ht).bind ?_
    intro _ u hu
    exact hleave _ (Node.self_mem_nodes _) u hu

theorem ensures_walkAll_of_mem {err : ε → σ → Prop}
    (henter : ∀ n ∈ ns, ∀ m ∈ n.nodes, ∀ s, I s → Ensures (v.enter m) s (fun _ => I) err)
    (hleave : ∀ n ∈ ns, ∀ m ∈ n.nodes, ∀ s, I s → Ensures (v.leave m) s (fun _ => I) err)
    (hs : I s) : Ensures (v.walkAll ns) s (fun _ => I) err := by
  rw [walkAll_eq_forM]
  refine ensures_forM (fun _ => I) hs ?_
  intro done n rest t hsplit ht
  have hn : n ∈ ns := by rw [hsplit]; simp
  exact ensures_walk_of_mem (henter n hn) (hleave n hn) ht

/-- What every step of a walk keeps, whether it answers or stops, the walk keeps. -/
theorem ensures_walk_of_invariant
    (henter : ∀ m s, I s → Ensures (v.enter m) s (fun _ => I) (fun _ => I))
    (hleave : ∀ m s, I s → Ensures (v.leave m) s (fun _ => I) (fun _ => I)) (n : Node) (hs : I s) :
    Ensures (v.walk n) s (fun _ => I) (fun _ => I) :=
  ensures_walk_of_mem (fun m _ => henter m) (fun m _ => hleave m) hs

theorem ensures_visit_of_invariant
    (henter : ∀ m s, I s → Ensures (v.enter m) s (fun _ => I) (fun _ => I))
    (hleave : ∀ m s, I s → Ensures (v.leave m) s (fun _ => I) (fun _ => I))
    (hfinish : v.finish = pure ()) (n : Node) (hs : I s) :
    Ensures (v.visit n) s (fun _ => I) (fun _ => I) := by
  rw [visit, hfinish, bind_pure_unit]
  exact ensures_walk_of_invariant henter hleave n hs

end Visitor

/-! ### Rebuilding -/

namespace Node

mutual

/-- Change every node of a tree, after its children were changed. -/
def mapUp (g : Node → Node) : Node → Node
  | ⟨id, payload, location, children⟩ => g ⟨id, payload, location, mapUpAll g children⟩

/-- The same for several trees. -/
def mapUpAll (g : Node → Node) : List Node → List Node
  | [] => []
  | n :: rest => mapUp g n :: mapUpAll g rest

end

theorem mapUpAll_eq (g : Node → Node) (ns : List Node) : mapUpAll g ns = ns.map (mapUp g) := by
  induction ns with
  | nil => rfl
  | cons n rest ih => rw [mapUpAll, ih, List.map_cons]

@[simp] theorem mapUp_mk (g : Node → Node) (id : Nat) (payload : Payload) (location : Location)
    (children : List Node) :
    mapUp g ⟨id, payload, location, children⟩ =
      g ⟨id, payload, location, children.map (mapUp g)⟩ := by
  rw [mapUp, mapUpAll_eq]

theorem mapUp_of_forall {g : Node → Node} {n : Node} (h : ∀ m ∈ n.nodes, g m = m) :
    mapUp g n = n := by
  induction n using induction_on with
  | node id payload location children ih =>
    have hchildren : children.map (mapUp g) = children := by
      conv_rhs => rw [← List.map_id children]
      exact List.map_congr_left fun c hc => ih c hc fun m hm => h m (mem_nodes_of_child hc hm)
    rw [mapUp_mk, hchildren]
    exact h _ (self_mem_nodes _)

end Node

namespace Rebuilder

variable {ε σ : Type} {f : Rebuilder ε σ}

theorem rebuild_mk (id : Nat) (payload : Payload) (location : Location) (children : List Node) :
    rebuild f ⟨id, payload, location, children⟩ = (do
      let rebuilt ← rebuildAll f [] children
      f ⟨id, payload, location, rebuilt⟩) := by
  funext s
  simp only [rebuild, bind, EStateM.bind]
  cases rebuildAll f [] children s <;> rfl

theorem rebuild_eq (n : Node) :
    rebuild f n =
      (do let rebuilt ← rebuildAll f [] n.children; f { n with children := rebuilt }) := by
  obtain ⟨id, payload, location, children⟩ := n
  exact rebuild_mk id payload location children

@[simp] theorem rebuildAll_nil (done : List Node) : rebuildAll f done [] = pure done.reverse := rfl

theorem rebuildAll_cons (done : List Node) (n : Node) (rest : List Node) :
    rebuildAll f done (n :: rest) = (do
      let ns ← rebuild f n
      rebuildAll f (ns.reverse ++ done) rest) := by
  funext s
  simp only [rebuildAll, bind, EStateM.bind]
  cases rebuild f n s <;> rfl

/-- The nodes already done come first in the result. -/
theorem rebuildAll_eq (done ns : List Node) :
    rebuildAll f done ns =
      (do let rebuilt ← rebuildAll f [] ns; pure (done.reverse ++ rebuilt)) := by
  induction ns generalizing done with
  | nil => simp
  | cons n rest ih =>
    rw [rebuildAll_cons, rebuildAll_cons, bind_assoc]
    apply bind_congr
    intro ns
    rw [ih, ih (ns.reverse ++ []), bind_assoc]
    apply bind_congr
    intro rebuilt
    simp

theorem rebuildAll_append (ns ms : List Node) :
    rebuildAll f [] (ns ++ ms) = (do
      let first ← rebuildAll f [] ns
      let second ← rebuildAll f [] ms
      pure (first ++ second)) := by
  induction ns with
  | nil => simp
  | cons n rest ih =>
    rw [List.cons_append, rebuildAll_cons, rebuildAll_cons, bind_assoc]
    apply bind_congr
    intro replaced
    rw [rebuildAll_eq, ih, rebuildAll_eq (replaced.reverse ++ []) rest]
    simp only [bind_assoc, pure_bind, List.append_nil, List.reverse_reverse, List.append_assoc]

/-- Trees in which no node is replaced stay as they are. -/
theorem rebuild_inert {n : Node} (h : ∀ m ∈ n.nodes, f m = pure [m]) : rebuild f n = pure [n] := by
  induction n using Node.induction_on with
  | node id payload location children ih =>
    have hchildren : rebuildAll f [] children = pure children := by
      have hrebuild : ∀ c ∈ children, rebuild f c = pure [c] := fun c hc =>
        ih c hc fun m hm => h m (Node.mem_nodes_of_child hc hm)
      clear ih h
      induction children with
      | nil => rfl
      | cons c rest ihrest =>
        rw [rebuildAll_cons, hrebuild c List.mem_cons_self, pure_bind, rebuildAll_eq,
          ihrest fun d hd => hrebuild d (List.mem_cons_of_mem c hd)]
        rfl
    rw [rebuild_mk, hchildren, pure_bind]
    exact h _ (Node.self_mem_nodes _)

theorem rebuildAll_inert {ns : List Node} (h : ∀ n ∈ ns, ∀ m ∈ n.nodes, f m = pure [m]) :
    rebuildAll f [] ns = pure ns := by
  induction ns with
  | nil => rfl
  | cons n rest ih =>
    rw [rebuildAll_cons, rebuild_inert (h n List.mem_cons_self), pure_bind, rebuildAll_eq,
      ih fun m hm => h m (List.mem_cons_of_mem n hm)]
    rfl

/-- The rule for rebuilding: `P` relates a tree to what takes its place, and `Q` several trees to
what takes their place. It is enough to show `P` of a node whose children were rebuilt. -/
theorem ensures_rebuild {P : Node → σ → List Node → σ → Prop}
    {Q : List Node → σ → List Node → σ → Prop} {err : ε → σ → Prop} (hnil : ∀ s, Q [] s [] s)
    (hcons : ∀ n rest ns ms s t u, P n s ns t → Q rest t ms u → Q (n :: rest) s (ns ++ ms) u)
    (hnode : ∀ id payload location children rebuilt s t, Q children s rebuilt t →
      Ensures (f ⟨id, payload, location, rebuilt⟩) t (P ⟨id, payload, location, children⟩ s) err)
    (n : Node) (s : σ) : Ensures (rebuild f n) s (P n s) err := by
  induction n using Node.induction_on generalizing s with
  | node id payload location children ih =>
    -- the children are rebuilt one after the other, each from the state that the last one left
    have hchildren : ∀ s, Ensures (rebuildAll f [] children) s (Q children s) err := by
      induction children with
      | nil =>
        intro s
        exact hnil s
      | cons c rest ihrest =>
        intro s
        rw [rebuildAll_cons]
        refine (ih c List.mem_cons_self s).bind ?_
        intro ns t hfirst
        rw [rebuildAll_eq]
        refine (ihrest (fun d hd => ih d (List.mem_cons_of_mem c hd)) t).bind ?_
        intro ms u hrest
        rw [ensures_pure, List.append_nil, List.reverse_reverse]
        exact hcons c rest ns ms s t u hfirst hrest
    rw [rebuild_mk]
    refine (hchildren s).bind ?_
    intro rebuilt t hrebuilt
    exact hnode id payload location children rebuilt s t hrebuilt

/-- A rebuilding that replaces each node by one node maps the tree. -/
theorem ensures_rebuild_mapUp {g : Node → Node} {err : ε → σ → Prop}
    (h : ∀ n s, Ensures (f n) s (fun ns t => ns = [g n] ∧ t = s) err) (n : Node) (s : σ) :
    Ensures (rebuild f n) s (fun ns t => ns = [n.mapUp g] ∧ t = s) err := by
  refine ensures_rebuild (P := fun n s ns t => ns = [n.mapUp g] ∧ t = s)
    (Q := fun children s ns t => ns = children.map (Node.mapUp g) ∧ t = s)
    (fun s => ⟨rfl, rfl⟩) ?_ ?_ n s
  · rintro n rest _ _ s _ _ ⟨rfl, rfl⟩ ⟨rfl, rfl⟩
    exact ⟨rfl, rfl⟩
  · rintro id payload location children _ s _ ⟨rfl, rfl⟩
    rw [Node.mapUp_mk]
    exact h _ _

end Rebuilder

end CobolCompiler
