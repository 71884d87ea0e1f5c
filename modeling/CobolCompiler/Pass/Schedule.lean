/-!
# Scheduling

A pass names passes that must run before it and passes that must run after it. A schedule is an
order of all passes that respects every such wish; passes that are free keep the order of their
registration. If there is none, the reason is a name given twice, a wish for a pass that is not
there, or passes that wait for each other in a circle.

The order is found by a search that visits a pass after the passes it waits for. The search carries
the path of passes that are waiting; meeting one of them again closes a circle.
-/

namespace CobolCompiler

/-- What a pass asks of the order. -/
structure Wishes where
  name : String
  /-- Passes that must run earlier. -/
  after : List String
  /-- Passes that must run later. -/
  before : List String
  deriving DecidableEq, Repr, Inhabited

/-- Why passes cannot be ordered. -/
inductive ScheduleError
  /-- A pass waits for one that is not there. -/
  | unresolved (pass dependency : String)
  /-- A pass wants to precede one that is not there. -/
  | unresolvedReversed (pass dependency : String)
  | duplicate (name : String)
  /-- Passes in a circle, each waiting for the next. -/
  | cycle (path : List String)
  deriving DecidableEq, Repr

/-- The wording of a scheduling error. -/
def ScheduleError.message : ScheduleError → String
  | .unresolved pass dependency => s!"unresolved dependency: {pass} -> {dependency}"
  | .unresolvedReversed pass dependency =>
    s!"unresolved reversed-dependency: {pass} -> {dependency}"
  | .duplicate name => s!"pass '{name}' is registered twice"
  | .cycle path => "cyclic dependency: " ++ " -> ".intercalate path

namespace Schedule

/-- The first name that was given before. -/
def duplicate? (seen : List String) : List String → Option String
  | [] => none
  | name :: rest => if name ∈ seen then some name else duplicate? (name :: seen) rest

/-- A pass by its index waits for another. -/
structure Wait where
  waiting : Nat
  earlier : Nat
  deriving DecidableEq, Repr

/-- The waits that the wishes of one pass lead to. -/
def waitsOf (names : List String) (index : Nat) (w : Wishes) :
    Except ScheduleError (List Wait) := do
  let own ← w.after.mapM fun dependency =>
    match names.idxOf? dependency with
    | some earlier => .ok ⟨index, earlier⟩
    | none => .error (.unresolved w.name dependency)
  let others ← w.before.mapM fun dependency =>
    match names.idxOf? dependency with
    | some waiting => .ok ⟨waiting, index⟩
    | none => .error (.unresolvedReversed w.name dependency)
  return own ++ others

/-- All waits, in the order in which the wishes were given. -/
def waits (passes : List Wishes) : Except ScheduleError (List Wait) := do
  let names := passes.map (·.name)
  let all ← passes.zipIdx.mapM fun (w, index) => waitsOf names index w
  return all.flatten

/-- The passes that one waits for, in the order in which the wishes were given. -/
def predecessors (waits : List Wait) (index : Nat) : List Nat :=
  (waits.filter (·.waiting = index)).map (·.earlier)

/-- Visit a pass. The path holds the passes that wait for it, the nearest first; the order holds the
passes already visited. The error is a circle, by index.

No pass is twice on a path, so a path is never longer than the number of passes; `room` is how much
longer it may get. -/
def visit (waits : List Wait) : (room : Nat) → (path order : List Nat) → (index : Nat) →
    Except (List Nat) (List Nat)
  | 0, _, order, _ => .ok order
  | room + 1, path, order, index =>
    if index ∈ order then .ok order
    else if index ∈ path then .error (index :: (path.takeWhile (· ≠ index)).reverse ++ [index])
    else do
      let order ← (predecessors waits index).foldlM (visit waits room (index :: path)) order
      return order ++ [index]

end Schedule

/-- An order of all passes, by index, that respects their wishes. -/
def schedule (passes : List Wishes) : Except ScheduleError (List Nat) := do
  let names := passes.map (·.name)
  if let some name := Schedule.duplicate? [] names then
    throw (.duplicate name)
  let waits ← Schedule.waits passes
  match (List.range passes.length).foldlM (Schedule.visit waits (passes.length + 1) []) [] with
  | .ok order => return order
  | .error circle => throw (.cycle (circle.map fun i => names.getD i ""))

end CobolCompiler
