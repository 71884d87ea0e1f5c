import CobolCompiler.Tree.Node

/-!
# Walking and rebuilding trees

A visitor sees every node twice, before and after its children, and can stop the walk. A rebuilder
replaces every node, after its children have been replaced, by any number of nodes.

Both run on a state that is kept when they stop: `EStateM ε σ` answers with a state in either case,
so what was done before the stop remains done.
-/

namespace CobolCompiler

/-- What is done at each node of a walk, and once after it. -/
structure Visitor (ε σ : Type) where
  enter : Node → EStateM ε σ Unit := fun _ => pure ()
  leave : Node → EStateM ε σ Unit := fun _ => pure ()
  finish : EStateM ε σ Unit := pure ()

namespace Visitor

mutual

/-- Walk a tree: enter the node, walk its children in order, leave the node. -/
def walk (v : Visitor ε σ) : Node → EStateM ε σ Unit
  | ⟨id, payload, location, children⟩ => fun s =>
    match v.enter ⟨id, payload, location, children⟩ s with
    | .error e s => .error e s
    | .ok () s =>
      match walkAll v children s with
      | .error e s => .error e s
      | .ok () s => v.leave ⟨id, payload, location, children⟩ s

/-- Walk several trees in order. -/
def walkAll (v : Visitor ε σ) : List Node → EStateM ε σ Unit
  | [] => fun s => .ok () s
  | n :: rest => fun s =>
    match walk v n s with
    | .error e s => .error e s
    | .ok () s => walkAll v rest s

end

/-- Walk a whole tree, then finish. -/
def visit (v : Visitor ε σ) (root : Node) : EStateM ε σ Unit := do
  v.walk root
  v.finish

end Visitor

/-- The nodes that take the place of a node. -/
abbrev Rebuilder (ε σ : Type) := Node → EStateM ε σ (List Node)

namespace Rebuilder

mutual

/-- Rebuild a tree from its leaves up. -/
def rebuild (f : Rebuilder ε σ) : Node → EStateM ε σ (List Node)
  | ⟨id, payload, location, children⟩ => fun s =>
    match rebuildAll f [] children s with
    | .error e s => .error e s
    | .ok rebuilt s => f ⟨id, payload, location, rebuilt⟩ s

/-- Rebuild several trees in order, after the nodes already done, which are given last first. -/
def rebuildAll (f : Rebuilder ε σ) (done : List Node) : List Node → EStateM ε σ (List Node)
  | [] => fun s => .ok done.reverse s
  | n :: rest => fun s =>
    match rebuild f n s with
    | .error e s => .error e s
    | .ok ns s => rebuildAll f (ns.reverse ++ done) rest s

end

/-- Rebuild a whole tree. The root must be replaced by a single node; `replaced` is the error for
any other number. -/
def rebuildTree (f : Rebuilder ε σ) (replaced : Nat → ε) (root : Node) : EStateM ε σ Node := do
  match ← rebuild f root with
  | [node] => return node
  | nodes => throw (replaced nodes.length)

end Rebuilder

end CobolCompiler
