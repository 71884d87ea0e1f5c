import CobolCompiler.Proofs.Rewrite
import CobolCompiler.Session
import Mathlib.Data.List.Forall2

/-!
# DISPLAY statements in any tree

What becomes of the DISPLAY statements of a tree is said by a relation between the tree and the
nodes that take its place (`LowersTo`). It follows the tree from the leaves up: a DISPLAY statement
gives way to one call for each operand, and every other node stays, with the replacements of its
children in their order. The tree need not be grammatical. DISPLAY statements may stand anywhere,
also among the operands of others.

Main statement: `display_lowering_splices`.
-/

namespace CobolCompiler

/-- There is no DISPLAY statement in the tree. -/
def Node.HasNoDisplay (n : Node) : Prop :=
  ∀ m ∈ n.nodes, m.tag ≠ .displayStatement

theorem Node.hasNoDisplay_iff {n : Node} :
    n.HasNoDisplay ↔ n.tag ≠ .displayStatement ∧ ∀ c ∈ n.children, c.HasNoDisplay := by
  constructor
  · intro h
    exact ⟨h n n.self_mem_nodes, fun c hc m hm => h m (mem_nodes_of_child hc hm)⟩
  · intro h m hm
    rcases mem_nodes.mp hm with rfl | ⟨c, hc, hm⟩
    · exact h.1
    · exact h.2 c hc m hm

namespace CallSite

/-! ### What lowering should do -/

/-- An operand, and the argument that it becomes: a field is passed by content, and anything else is
left as it is. -/
inductive ShownAs : Node → Node → Prop
  | field (id : Nat) (name : String) (byContent : Bool) (location : Location)
      (children : List Node) : ShownAs ⟨id, .callUsingId name byContent, location, children⟩
      ⟨id, .callUsingId name true, location, children⟩
  | other {operand : Node} (h : operand.tag ≠ .callUsingId) : ShownAs operand operand

/-- A call of DISPLAY OF SYSTEM that stands at a place, with one argument and no results. -/
inductive CallsDisplay (location : Location) (operand : Node) : Node → Prop
  | intro (call callId owner program usings : Nat) {argument : Node}
      (h : ShownAs operand argument) :
      CallsDisplay location operand
        ⟨call, .callStatement, location,
          [⟨callId, .callId, location,
            [⟨owner, .callIdModule "SYSTEM", location, []⟩,
              ⟨program, .callIdProgram "DISPLAY", location, []⟩]⟩,
          ⟨usings, .callUsings, .none, [argument]⟩]⟩

mutual

/-- The nodes that take the place of a tree. A DISPLAY statement is replaced by calls, one for each
of its operands and in their order, once the operands have been lowered. Any other node keeps its
identity, payload and place. -/
inductive LowersTo : Node → List Node → Prop
  | keep {id : Nat} {payload : Payload} {location : Location} {children lowered : List Node}
      (hpayload : payload ≠ .displayStatement) (hchildren : LowersAllTo children lowered) :
      LowersTo ⟨id, payload, location, children⟩ [⟨id, payload, location, lowered⟩]
  | display {id : Nat} {location : Location} {children operands calls : List Node}
      (hchildren : LowersAllTo children operands)
      (hcalls : List.Forall₂ (CallsDisplay location) operands calls) :
      LowersTo ⟨id, .displayStatement, location, children⟩ calls

/-- The nodes that take the place of several trees, one after the other. -/
inductive LowersAllTo : List Node → List Node → Prop
  | nil : LowersAllTo [] []
  | cons {n : Node} {rest ns ms : List Node} (hfirst : LowersTo n ns)
      (hrest : LowersAllTo rest ms) : LowersAllTo (n :: rest) (ns ++ ms)

end

/-- How many nodes take the place of a tree does not depend on the identities that new nodes get. -/
theorem LowersTo.length_eq {n : Node} {ns ms : List Node} (h : LowersTo n ns) (h' : LowersTo n ms) :
    ns.length = ms.length := by
  induction n using Node.induction_on generalizing ns ms with
  | node id payload location children ih =>
    have hchildren : ∀ {rows rows' : List Node}, LowersAllTo children rows →
        LowersAllTo children rows' → rows.length = rows'.length := by
      clear h h'
      induction children with
      | nil =>
        intro rows rows' hrows hrows'
        cases hrows
        cases hrows'
        rfl
      | cons c rest ihrest =>
        intro rows rows' hrows hrows'
        cases hrows with
        | cons hfirst hrest =>
          cases hrows' with
          | cons hfirst' hrest' =>
            have hc := ih c List.mem_cons_self hfirst hfirst'
            have hcs := ihrest (fun d hd => ih d (List.mem_cons_of_mem c hd)) hrest hrest'
            rw [List.length_append, List.length_append, hc, hcs]
    -- the payload decides whether a tree is kept, so both derivations end with the same rule
    cases h with
    | keep hpayload _ =>
      cases h' with
      | keep => rfl
      | display => exact absurd rfl hpayload
    | display hoperands hcalls =>
      cases h' with
      | keep hpayload _ => exact absurd rfl hpayload
      | display hoperands' hcalls' =>
        rw [← hcalls.length_eq, ← hcalls'.length_eq, hchildren hoperands hoperands']

/-! ### What lowering does -/

theorem shownAs_displayed (operand : Node) : ShownAs operand (displayed operand) := by
  obtain ⟨id, payload, location, children⟩ := operand
  cases payload with
  | callUsingId name byContent => exact .field id name byContent location children
  | _ => exact .other (by simp [Node.tag, Payload.tag])

theorem callsDisplay_displayCall (next : Nat) (location : Location) (operand : Node) :
    CallsDisplay location operand (displayCall next location operand) :=
  .intro next (next + 1) (next + 2) (next + 3) (next + 4) (shownAs_displayed operand)

/-- The calls that take the place of a DISPLAY statement, operand by operand. -/
theorem forall₂_displayCall (next : Nat) (location : Location) (operands : List Node) :
    List.Forall₂ (fun operand call => ∃ first, next ≤ first ∧
      call = displayCall first location operand) operands
      (operands.mapIdx fun i operand => displayCall (next + displayIds * i) location operand) := by
  refine List.forall₂_iff_get.mpr ⟨by simp, fun i hi hi' => ?_⟩
  simp only [List.get_eq_getElem, List.getElem_mapIdx]
  exact ⟨_, Nat.le_add_right _ _, rfl⟩

theorem forall₂_callsDisplay (next : Nat) (location : Location) (operands : List Node) :
    List.Forall₂ (CallsDisplay location) operands
      (operands.mapIdx fun i operand => displayCall (next + displayIds * i) location operand) := by
  refine (forall₂_displayCall next location operands).imp fun operand call h => ?_
  obtain ⟨first, -, rfl⟩ := h
  exact callsDisplay_displayCall first location operand

variable {operand : Node}

theorem ShownAs.tag_eq {argument : Node} (h : ShownAs operand argument) :
    argument.tag = operand.tag := by
  cases h <;> rfl

theorem ShownAs.children_eq {argument : Node} (h : ShownAs operand argument) :
    argument.children = operand.children := by
  cases h <;> rfl

/-- The call is no DISPLAY statement, and has none in it unless its operand has. -/
theorem CallsDisplay.hasNoDisplay {location : Location} {call : Node}
    (h : CallsDisplay location operand call)
    (hoperand : operand.HasNoDisplay) : call.HasNoDisplay := by
  cases h with
  | intro _ _ _ _ _ hshown =>
    have hargument := Node.hasNoDisplay_iff.mp hoperand
    rw [← hshown.tag_eq, ← hshown.children_eq, ← Node.hasNoDisplay_iff] at hargument
    simp [Node.hasNoDisplay_iff (n := ⟨_, _, _, _⟩), Node.tag, Payload.tag, hargument]

/-- What `LowersTo` says is what is done, whatever identities are free. -/
theorem ensures_displayCalls (n : Node) (next : Nat) :
    Ensures (Rebuilder.rebuild displayCalls n) next
      (fun ns _ => LowersTo n ns ∧ ∀ m ∈ ns, m.HasNoDisplay) (fun _ _ => False) := by
  refine Rebuilder.ensures_rebuild (P := fun n _ ns _ => LowersTo n ns ∧ ∀ m ∈ ns, m.HasNoDisplay)
    (Q := fun children _ ns _ => LowersAllTo children ns ∧ ∀ m ∈ ns, m.HasNoDisplay)
    (fun _ => ⟨.nil, by simp⟩) ?_ ?_ n next
  · intro n rest ns ms _ _ _ hfirst hrest
    exact ⟨.cons hfirst.1 hrest.1,
      fun m hm => (List.mem_append.mp hm).elim (hfirst.2 m) (hrest.2 m)⟩
  · intro id payload location children lowered _ next hchildren
    by_cases hpayload : payload = .displayStatement
    · subst hpayload
      have hcalls := forall₂_callsDisplay next location lowered
      refine ⟨.display hchildren.1 hcalls, fun call hcall => ?_⟩
      obtain ⟨i, hi, rfl⟩ := List.mem_mapIdx.mp hcall
      exact (callsDisplay_displayCall _ location _).hasNoDisplay
        (hchildren.2 _ (List.getElem_mem hi))
    · have htag : Node.tag ⟨id, payload, location, lowered⟩ ≠ .displayStatement :=
        mt Payload.tag_eq_displayStatement.mp hpayload
      rw [displayCalls_of_tag_ne htag, ensures_pure]
      refine ⟨.keep hpayload hchildren.1, fun m hm => ?_⟩
      rw [List.mem_singleton.mp hm, Node.hasNoDisplay_iff]
      exact ⟨htag, hchildren.2⟩

section tree

variable {root : Node} {nodes : List Node} {run : Run} {next : Nat}
  (hrebuild : Rebuilder.rebuild displayCalls root run.nextId = .ok nodes next)

include hrebuild

theorem lowerDisplay_of_single {tree : Node} (htree : nodes = [tree]) :
    lowerDisplay root run = .ok tree { run with nextId := next } := by
  subst htree
  simp only [lowerDisplay, onPart, Rebuilder.rebuildTree_eq, bind_apply, hrebuild]
  rfl

theorem lowerDisplay_of_length_ne (hlength : nodes.length ≠ 1) :
    lowerDisplay root run = .error (.failed (.rootReplaced nodes.length))
      { run with nextId := next } := by
  simp only [lowerDisplay, onPart, Rebuilder.rebuildTree_eq, bind_apply, hrebuild]
  split
  · next heq =>
    split at heq
    · exact absurd rfl hlength
    · cases heq
  · next heq =>
    split at heq
    · cases heq
    · cases heq
      rfl

end tree

/-- A tree without DISPLAY statement is left as it is. -/
theorem lowerDisplay_of_hasNoDisplay {root : Node} (h : root.HasNoDisplay) (run : Run) :
    lowerDisplay root run = .ok root run := by
  have hinert : ∀ m ∈ root.nodes, displayCalls m = pure [m] :=
    fun m hm => displayCalls_of_tag_ne (h m hm)
  have hrebuild : Rebuilder.rebuild displayCalls root run.nextId = .ok [root] run.nextId := by
    rw [Rebuilder.rebuild_inert hinert]
    rfl
  exact lowerDisplay_of_single hrebuild rfl

/-- Only a DISPLAY statement can be replaced by several nodes, or by none, and then it is replaced
by as many as it has operands after they have been lowered. -/
theorem LowersTo.length_ne_one_iff {root : Node} {nodes : List Node} (h : LowersTo root nodes) :
    nodes.length ≠ 1 ↔ root.tag = .displayStatement ∧
      ∃ operands, LowersAllTo root.children operands ∧
      operands.length ≠ 1 ∧ nodes.length = operands.length := by
  constructor
  · intro hlength
    cases h with
    | keep => exact absurd rfl hlength
    | display hchildren hcalls =>
      have heq := hcalls.length_eq
      exact ⟨rfl, _, hchildren, heq ▸ hlength, heq.symm⟩
  · intro hdisplay
    obtain ⟨-, operands, -, hlength, heq⟩ := hdisplay
    rw [heq]
    exact hlength

/-- Lowering DISPLAY statements, on any tree. If it succeeds, then the tree that comes out is the
one that `LowersTo` asks for, no DISPLAY statement is left in it, and of the run only the next free
identity is changed. A tree without DISPLAY statement comes out as it is. It fails exactly if the
root itself is a DISPLAY statement that does not have one operand once they are lowered, and the
error says how many it has. -/
theorem display_lowering_splices (root : Node) (run : Run) :
    (∀ tree after, lowerDisplay root run = .ok tree after →
      LowersTo root [tree] ∧ tree.HasNoDisplay ∧ after = { run with nextId := after.nextId }) ∧
    (root.HasNoDisplay → lowerDisplay root run = .ok root run) ∧
    (∀ stop, (∃ after, lowerDisplay root run = .error stop after) ↔
      root.tag = .displayStatement ∧ ∃ operands, LowersAllTo root.children operands ∧
        operands.length ≠ 1 ∧ stop = .failed (.rootReplaced operands.length)) := by
  obtain ⟨nodes, next, hrebuild, hlowers, hnone⟩ := (ensures_displayCalls root run.nextId).exists_ok
  refine ⟨?_, fun h => lowerDisplay_of_hasNoDisplay h run, ?_⟩
  · intro tree after hlower
    by_cases hlength : nodes.length = 1
    · obtain ⟨_, rfl⟩ := List.length_eq_one_iff.mp hlength
      rw [lowerDisplay_of_single hrebuild rfl] at hlower
      cases hlower
      exact ⟨hlowers, hnone tree List.mem_cons_self, rfl⟩
    · rw [lowerDisplay_of_length_ne hrebuild hlength] at hlower
      cases hlower
  · intro stop
    constructor
    · intro hfails
      obtain ⟨after, hlower⟩ := hfails
      have hlength : nodes.length ≠ 1 := by
        intro hone
        obtain ⟨tree, htree⟩ := List.length_eq_one_iff.mp hone
        rw [lowerDisplay_of_single hrebuild htree] at hlower
        cases hlower
      rw [lowerDisplay_of_length_ne hrebuild hlength] at hlower
      cases hlower
      obtain ⟨htag, operands, hoperands, hcount, heq⟩ := hlowers.length_ne_one_iff.mp hlength
      exact ⟨htag, operands, hoperands, hcount, by rw [heq]⟩
    · intro hdisplay
      obtain ⟨htag, operands, hoperands, hcount, rfl⟩ := hdisplay
      -- the operands found here are as many as those of the run
      have hlength : nodes.length = operands.length := by
        obtain ⟨id, payload, location, children⟩ := root
        obtain rfl := Payload.tag_eq_displayStatement.mp htag
        have hcalls := forall₂_callsDisplay 0 location operands
        rw [hlowers.length_eq (.display hoperands hcalls), hcalls.length_eq]
      rw [← hlength] at hcount ⊢
      exact ⟨_, lowerDisplay_of_length_ne hrebuild hcount⟩

open Build

/-- A procedure that displays a field, what a DISPLAY statement is replaced by, and the result of a
call that takes a field by reference. -/
def notice : Node :=
  (node .procedureDivision
    [node .displayStatement
      [leaf (.callUsingId "TOTAL" false),
       node .displayStatement [leaf (.callUsingId "RATE" false), leaf (.stringLiteral "%")],
       callExpression "ROUND" none [leaf (.callUsingId "TOTAL" false)]],
     leaf .gobackStatement]).renumber 0 |>.1

def noticeRun : Run :=
  (Session.start {} .empty).beginRun "NOTICE.cbl" none 12

/-- Four calls take the place of the statement, the inner two of which are displayed in their
turn. -/
theorem notice_lowered :
    ∃ tree after, lowerDisplay notice noticeRun = .ok tree after ∧ LowersTo notice [tree] ∧
      tree.HasNoDisplay ∧ tree.children.map (·.tag) =
        [.callStatement, .callStatement, .callStatement, .callStatement, .gobackStatement] := by
  have hanswer :
      (answerOf? (lowerDisplay notice) noticeRun).map (fun tree => tree.children.map (·.tag)) =
      some [.callStatement, .callStatement, .callStatement, .callStatement, .gobackStatement] := by
    decide +kernel
  obtain ⟨tree, htree, htags⟩ := Option.map_eq_some_iff.mp hanswer
  obtain ⟨after, hlower⟩ := exists_of_answerOf? htree
  obtain ⟨hlowers, hnone, -⟩ := (display_lowering_splices notice noticeRun).1 tree after hlower
  exact ⟨tree, after, hlower, hlowers, hnone, htags⟩

end CallSite

end CobolCompiler
