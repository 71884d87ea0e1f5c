import CobolCompiler.Pass.Journal
import CobolCompiler.Tree.Traversal

/-!
# Probes and edits

Two kinds of passes that can be put between the others to see what they do. A probe walks the tree,
notes the nodes it meets and can stop at one. An edit drops, replaces, reorders, unwraps or doubles
nodes by their kind.
-/

namespace CobolCompiler

/-- The two times a walk meets a node. -/
inductive Moment
  | enter
  | leave
  deriving DecidableEq, Repr

/-- The name of a moment. -/
def Moment.text : Moment → String
  | .enter => "enter"
  | .leave => "leave"

/-- A walk that takes notes. -/
structure Probe where
  /-- What its notes begin with. -/
  tag : String
  /-- The kinds of nodes it notes; all, if there are none given. -/
  kinds? : Option (List Tag)
  /-- Where it stops. -/
  fail? : Option (Moment × Tag)
  /-- Whether it notes what is known about nodes, instead of when they are met. -/
  showsBindings : Bool

namespace Probe

/-- Whether the probe notes a node. -/
def notes (p : Probe) (n : Node) : Bool :=
  match p.kinds? with
  | some kinds => kinds.contains n.tag
  | none => true

/-- What the probe writes about a node. -/
def note? (p : Probe) (describe? : Node → Option String) (m : Moment) (n : Node) : Option String :=
  if p.showsBindings then
    match m with
    | .enter => (describe? n).map fun text => s!"{p.tag} {text}"
    | .leave => none
  else if p.notes n then some s!"{p.tag} {m.text} {n.tag.name}"
  else none

/-- Meet a node: take a note, then stop if this is where the probe stops. -/
def meet (p : Probe) (describe? : Node → Option String) (stop : Moment → Node → ε) (m : Moment)
    (n : Node) : EStateM ε Journal Unit := do
  if let some text := p.note? describe? m n then
    modify (·.note text)
  if p.fail? = some (m, n.tag) then
    throw (stop m n)

/-- The walk of a probe. -/
def visitor (p : Probe) (describe? : Node → Option String) (stop : Moment → Node → ε) :
    Visitor ε Journal where
  enter := p.meet describe? stop .enter
  leave := p.meet describe? stop .leave
  finish := modify (·.note s!"{p.tag} cleanup")

end Probe

/-- A change of the tree by the kinds of its nodes. The parts are tried in order. -/
structure Edit where
  /-- What its notes begin with. -/
  tag : String
  /-- Whether it notes every node. -/
  trace : Bool
  /-- Nodes that are left out. -/
  drop : List Tag
  /-- Nodes that others take the place of. -/
  replace : List (Tag × List Node)
  /-- Nodes whose children are reversed. -/
  reverse : List Tag
  /-- Nodes that their children take the place of. -/
  unwrap : List Tag
  /-- Nodes that are doubled; the copy has the same identity. -/
  dup : List Tag

/-- What an edit works on besides the tree. -/
structure Edit.State where
  /-- The next free identity. -/
  nextId : Nat
  journal : Journal

namespace Edit

/-- The nodes that take the place of one. -/
def rebuilder (r : Edit) : Rebuilder ε Edit.State := fun n => do
  if r.trace then
    modify fun s => { s with
      journal := s.journal.note s!"{r.tag} transform {n.tag.name} {n.children.length}" }
  if r.drop.contains n.tag then
    return []
  if let some nodes := r.replace.lookup n.tag then
    let (fresh, next) := Node.renumberAll (← get).nextId [] nodes
    modify fun s => { s with nextId := next }
    return fresh
  let n := if r.reverse.contains n.tag then { n with children := n.children.reverse } else n
  if r.unwrap.contains n.tag then
    return n.children
  if r.dup.contains n.tag then
    return [n, n]
  return [n]

/-- The note at the end of an edit. -/
def finish (r : Edit) : EStateM ε Edit.State Unit :=
  modify fun s => { s with journal := s.journal.note s!"{r.tag} cleanup" }

end Edit

end CobolCompiler
