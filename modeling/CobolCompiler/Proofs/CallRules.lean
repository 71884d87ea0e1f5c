import CobolCompiler.Proofs.Rewrite
import CobolCompiler.Proofs.Scope

/-!
# The rules of calls

When a call is right, said on its syntax and on the scope, without the passes that find it out.

* `Names`: the program that a call names, one of the same file or one that a module exports.
* `Fits`: an argument can be passed to a parameter of some usage.
* `Call.WellFormed`: a call obeys all rules with respect to the program it names.

The second part finds the calls in a tree. Every node of a statement that the passes look at is a
call, or it belongs to one (`SiteOf`).
-/

namespace CobolCompiler

/-! ### Calls -/

namespace Syntax

/-- A call statement or a call that is an argument. -/
structure Call where
  callee : Callee
  arguments : List Argument
  /-- The fields that results go to. -/
  returnings : List String
  /-- The number of results it asks for. -/
  requested : Nat

namespace Call

/-- The call that a node is. One that is an argument asks for one result. -/
def ofNode (n : Node) : Call where
  callee := Callee.ofNode n
  arguments := n.arguments.map Argument.ofNode
  returnings := n.returnings.filterMap targetName?
  requested := if n.is .callExpression then 1 else (n.returnings.filterMap targetName?).length

/-- The names of fields in a call. -/
def names (c : Call) : List String :=
  c.arguments.filterMap Argument.fieldName? ++ c.returnings

/-- The names of the fields that a call writes to. -/
def written (c : Call) : List String :=
  c.arguments.filterMap Argument.referenceName? ++ c.returnings

end Call

end Syntax

open Syntax

/-- The program has a field of that name. -/
def Globals.HasField (g : Globals) (p : ProgramId) (name : String) (f : FieldId) : Prop :=
  f ∈ (g.program p).fields.toList ∧ (g.field f).name = name

/-- The program that a name stands for in a file. A name without module is that of a program of the
file; a name with a module is that of a program which the module exports. -/
inductive Names (g : Globals) (chunk : ChunkId) : Callee → ProgramId → Prop
  | own {program : String} {q : ProgramId} (hmem : q ∈ (g.chunk chunk).programs.toList)
      (hname : (g.program q).name = program) : Names g chunk ⟨none, program⟩ q
  | exported {owner program : String} {m : ModuleId} {q : ProgramId}
      (howner : g.table.get? owner = some (.module m))
      (hprogram : (g.module m).table.get? program = some (.program q)) :
      Names g chunk ⟨some owner, program⟩ q

/-- An argument in a program can be passed to a parameter. -/
inductive Fits (g : Globals) (chunk : ChunkId) (p : ProgramId) : Argument → Usage → Prop
  | field {name : String} {byContent : Bool} {f : FieldId} {param : Usage}
      (hf : g.HasField p name f) (hparam : param = .any ∨ param = (g.field f).usage) :
      Fits g chunk p (.field name byContent) param
  | number {text : String} {param : Usage} (hparam : param ∈ [.comp2, .comp4, .any]) :
      Fits g chunk p (.number text) param
  | string {text : String} {param : Usage} (hparam : param ∈ [.display, .any]) :
      Fits g chunk p (.string text) param
  | call {callee : Callee} {arguments : List Argument} {q : ProgramId}
      {first : FieldId} {param : Usage}
      (hcallee : Names g chunk callee q) (hfirst : (g.program q).returnings[0]? = some first)
      (hparam : param = .any ∨ param = (g.field first).usage) :
      Fits g chunk p (.call callee arguments) param

/-- A call in a program obeys all rules, if it calls `q`. -/
structure Syntax.Call.WellFormed (g : Globals) (chunk : ChunkId) (p : ProgramId) (c : Call)
    (q : ProgramId) : Prop where
  callee : Names g chunk c.callee q
  fields : ∀ name ∈ c.names, ∃ f, g.HasField p name f
  distinct : c.written.Nodup
  usings_length : c.arguments.length = (g.program q).usings.size
  returnings_le : c.requested ≤ (g.program q).returnings.size
  fits : ∀ pair ∈ c.arguments.zip (g.program q).usings.toList,
    Fits g chunk p pair.1 (g.field pair.2).usage
  accepts : ∀ pair ∈ c.returnings.zip (g.program q).returnings.toList, ∀ f, g.HasField p pair.1 f →
    (g.field pair.2).usage = .any ∨ (g.field pair.2).usage = (g.field f).usage

/-! ### Calls in a tree -/

/-- A call, be it a statement or an argument. -/
inductive IsCall : Node → Prop
  | intro (id : Nat) (location : Location) {payload : Payload} {callee : Node}
      {usings arguments returnings targets : List Node}
      (hpayload : payload = .callStatement ∨ payload = .callExpression ∧ returnings = [])
      (hcallee : IsCallId callee) (husings : Under .callUsings usings arguments)
      (harguments : ∀ a ∈ arguments, IsArgument a)
      (hreturnings : Under .callReturnings returnings targets)
      (htargets : ∀ t ∈ targets, IsTarget t) :
      IsCall ⟨id, payload, location, callee :: (usings ++ returnings)⟩

theorem IsCallId.tag_eq {n : Node} (h : IsCallId n) : n.tag = .callId := by
  cases h <;> rfl

theorem IsCallId.tags_name {n : Node} (h : IsCallId n) :
    ∀ m ∈ n.nodes, m.tag ∈ [Tag.callId, .callIdModule, .callIdProgram, .callReturnings] := by
  cases h <;> simp [Node.nodes_eq, Node.tag, Payload.tag]

theorem childrenOf_call {id : Nat} {location : Location} {payload : Payload} {callee : Node}
    {usings arguments returnings targets : List Node} (hcallee : IsCallId callee)
    (husings : Under .callUsings usings arguments)
    (hreturnings : Under .callReturnings returnings targets) (tag : Tag) :
    (⟨id, payload, location, callee :: (usings ++ returnings)⟩ : Node).childrenOf tag =
      (if .callId = tag then [callee] else []) ++ ((if .callUsings = tag then usings else []) ++
        if .callReturnings = tag then returnings else []) := by
  have hname : ∀ n ∈ [callee], n.tag = .callId := by simp [hcallee.tag_eq]
  change ([callee] ++ (usings ++ returnings)).filter _ = _
  simp only [List.filter_append, filter_is hname, filter_is husings.tag_eq,
    filter_is hreturnings.tag_eq]
  rfl

theorem Under.flatMap_children {heading : Payload} {nodes children : List Node}
    (h : Under heading nodes children) :
    nodes.flatMap (·.children) = children := by
  cases h <;> simp

section parts

variable (id : Nat) (payload : Payload) (location : Location) {callee : Node}
  {usings arguments returnings targets : List Node} (hcallee : IsCallId callee)
  (husings : Under .callUsings usings arguments)
  (hreturnings : Under .callReturnings returnings targets)

include hcallee husings hreturnings

theorem arguments_call :
    (⟨id, payload, location, callee :: (usings ++ returnings)⟩ : Node).arguments = arguments := by
  rw [Node.arguments, childrenOf_call hcallee husings hreturnings]
  simpa using husings.flatMap_children

theorem returnings_call :
    (⟨id, payload, location, callee :: (usings ++ returnings)⟩ : Node).returnings = targets := by
  rw [Node.returnings, childrenOf_call hcallee husings hreturnings]
  simpa using hreturnings.flatMap_children

end parts

namespace IsCall

variable {c n : Node}

theorem payload_eq (h : IsCall c) : c.payload = .callStatement ∨ c.payload = .callExpression := by
  cases h with
  | intro id location hpayload => exact hpayload.imp_right And.left

theorem areArguments (h : IsCall c) : ∀ a ∈ c.arguments, IsArgument a := by
  cases h with
  | intro id location hpayload hcallee husings harguments hreturnings htargets =>
    rw [arguments_call _ _ _ hcallee husings hreturnings]
    exact harguments

theorem areTargets (h : IsCall c) : ∀ t ∈ c.returnings, IsTarget t := by
  cases h with
  | intro id location hpayload hcallee husings harguments hreturnings htargets =>
    rw [returnings_call _ _ _ hcallee husings hreturnings]
    exact htargets

/-- The nodes of a call: itself, its name, its arguments, its results, and headings. -/
theorem cases_node (h : IsCall c) (hn : n ∈ c.nodes) :
    n = c ∨ n.tag ∈ [Tag.callId, .callIdModule, .callIdProgram, .callReturnings] ∨
      (n.payload = .callUsings ∧ n.children = c.arguments) ∨ n ∈ c.returnings ∨ ∃ a ∈ c.arguments,
        n ∈ a.nodes := by
  rcases Node.mem_nodes.mp hn with rfl | ⟨child, hchild, hmem⟩
  · exact Or.inl rfl
  -- below the call itself: the name, then the headings of arguments and results
  right
  cases h with
  | intro id location hpayload hcallee husings harguments hreturnings htargets =>
    rw [arguments_call _ _ _ hcallee husings hreturnings,
      returnings_call _ _ _ hcallee husings hreturnings]
    rcases List.mem_cons.mp hchild with rfl | hchild
    · exact Or.inl (hcallee.tags_name n hmem)
    · rcases List.mem_append.mp hchild with hchild | hchild
      · cases husings with
        | absent => cases hchild
        | present =>
          obtain rfl := List.mem_singleton.mp hchild
          rcases Node.mem_nodes.mp hmem with rfl | hbelow
          · exact Or.inr (Or.inl ⟨rfl, rfl⟩)
          · exact Or.inr (Or.inr (Or.inr hbelow))
      · cases hreturnings with
        | absent => cases hchild
        | present =>
          obtain rfl := List.mem_singleton.mp hchild
          rcases Node.mem_nodes.mp hmem with rfl | ⟨t, ht, hbelow⟩
          · exact Or.inl (by simp [Node.tag, Payload.tag])
          · cases htargets t ht
            obtain rfl := List.mem_singleton.mp hbelow
            exact Or.inr (Or.inr (Or.inl ht))

end IsCall

theorem IsArgument.isCall {a : Node} (h : IsArgument a) (hpayload : a.payload = .callExpression) :
    IsCall a := by
  cases h with
  | field | number | string => cases hpayload
  | @call id location callee usings arguments hcallee husings harguments =>
    have hcall := IsCall.intro id location (Or.inr ⟨rfl, rfl⟩) hcallee husings harguments
      (.absent : Under .callReturnings [] []) (by simp)
    rwa [List.append_nil] at hcall

theorem IsStatement.isCall {s : Node} (h : IsStatement s) (hpayload : s.payload = .callStatement) :
    IsCall s := by
  cases h with
  | call id location hcallee husings harguments hreturnings htargets =>
    exact .intro id location (Or.inl rfl) hcallee husings harguments hreturnings htargets
  | display | goback => cases hpayload

/-- What a node below `root` has to do with the calls there. -/
structure SiteOf (root n : Node) : Prop where
  call : n.payload = .callStatement ∨ n.payload = .callExpression → IsCall n
  argument : ∀ name byContent, n.payload = .callUsingId name byContent →
    n = root ∨ ∃ c ∈ root.nodes, IsCall c ∧ n ∈ c.arguments
  target : ∀ name, n.payload = .callReturningId name → ∃ c ∈ root.nodes, IsCall c ∧ n ∈ c.returnings
  usings : n.payload = .callUsings → ∃ c ∈ root.nodes, IsCall c ∧ n.children = c.arguments

/-- Most nodes have nothing to do with calls. -/
theorem SiteOf.of_tag {root n : Node} (h : n.tag ∉ [Tag.callStatement, .callExpression,
      .callUsingId, .callReturningId, .callUsings]) :
    SiteOf root n := by
  have hpayload : ∀ payload, n.payload = payload → payload.tag ∉
      [Tag.callStatement, .callExpression, .callUsingId, .callReturningId, .callUsings] := by
    rintro _ rfl
    exact h
  constructor
  · rintro (heq | heq) <;> exact absurd (hpayload _ heq) (by simp [Payload.tag])
  · intro name byContent heq
    exact absurd (hpayload _ heq) (by simp [Payload.tag])
  · intro name heq
    exact absurd (hpayload _ heq) (by simp [Payload.tag])
  · intro heq
    exact absurd (hpayload _ heq) (by simp [Payload.tag])

/-- What holds below a part holds below the whole, if the part itself is an argument there. -/
theorem SiteOf.lift {root part n : Node} (h : SiteOf part n)
    (hpart : ∀ m ∈ part.nodes, m ∈ root.nodes)
    (hargument : ∃ c ∈ root.nodes, IsCall c ∧ part ∈ c.arguments) : SiteOf root n where
  call := h.call
  argument := by
    intro name byContent heq
    rcases h.argument name byContent heq with rfl | ⟨c, hc, hcall⟩
    · exact Or.inr hargument
    · exact Or.inr ⟨c, hpart c hc, hcall⟩
  target := by
    intro name heq
    obtain ⟨c, hc, hcall⟩ := h.target name heq
    exact ⟨c, hpart c hc, hcall⟩
  usings := by
    intro heq
    obtain ⟨c, hc, hcall⟩ := h.usings heq
    exact ⟨c, hpart c hc, hcall⟩

/-- The nodes of a call are sites of it, if those of its arguments are. -/
theorem IsCall.site {c n : Node} (h : IsCall c)
    (harguments : ∀ a ∈ c.arguments, ∀ m ∈ a.nodes, SiteOf a m)
    (hn : n ∈ c.nodes) : SiteOf c n := by
  have hself : c ∈ c.nodes := c.self_mem_nodes
  rcases h.cases_node hn with rfl | htag | ⟨hpayload, hchildren⟩ | htarget | ⟨a, ha, hn⟩
  · have hpayload := h.payload_eq
    refine ⟨fun _ => h, ?_, ?_, ?_⟩ <;> intros <;> simp_all
  · refine SiteOf.of_tag fun hmem => ?_
    simp only [List.mem_cons, List.not_mem_nil, or_false] at htag hmem
    rcases htag with htag | htag | htag | htag <;> rw [htag] at hmem <;> simp at hmem
  · refine ⟨?_, ?_, ?_, fun _ => ⟨c, hself, h, hchildren⟩⟩ <;> intros <;> simp_all
  · have hleaf := h.areTargets n htarget
    refine ⟨?_, ?_, fun _ _ => ⟨c, hself, h, htarget⟩, ?_⟩ <;> cases hleaf <;> simp
  · refine (harguments a ha n hn).lift ?_ ⟨c, hself, h, ha⟩
    exact fun m hm => Node.nodes_trans (Node.argument_mem_nodes ha) hm

theorem IsArgument.site {a n : Node} (h : IsArgument a) (hn : n ∈ a.nodes) : SiteOf a n := by
  induction h generalizing n with
  | field id location name byContent =>
    obtain rfl := List.mem_singleton.mp hn
    exact ⟨by simp, fun _ _ _ => Or.inl rfl, by simp, by simp⟩
  | number id location text | string id location text =>
    obtain rfl := List.mem_singleton.mp hn
    exact SiteOf.of_tag (by simp [Node.tag, Payload.tag])
  | call id location hcallee husings harguments ih =>
    have hcall := (IsArgument.call id location hcallee husings harguments).isCall rfl
    refine hcall.site ?_ hn
    have hargs := arguments_call id .callExpression location hcallee husings
      (.absent : Under .callReturnings [] [])
    rw [List.append_nil] at hargs
    rw [hargs]
    exact fun a ha m hm => ih a ha hm

theorem IsStatement.site {s n : Node} (h : IsStatement s) (hdisplay : s.tag ≠ .displayStatement)
    (hn : n ∈ s.nodes) :
    SiteOf s n := by
  cases h with
  | call id location hcallee husings harguments hreturnings htargets =>
    have hcall :=
      (IsStatement.call id location hcallee husings harguments hreturnings htargets).isCall rfl
    exact hcall.site (fun a ha m hm => (hcall.areArguments a ha).site hm) hn
  | display => exact absurd rfl hdisplay
  | goback =>
    obtain rfl := List.mem_singleton.mp hn
    exact SiteOf.of_tag (by simp [Node.tag, Payload.tag])

/-- The nodes of a procedure. -/
def ProgramShape.nodes (shape : ProgramShape) : List Node :=
  shape.statements.flatMap Node.nodes

theorem ProgramShape.tag_ne_program {shape : ProgramShape} {n : Node} (hn : n ∈ shape.nodes) :
    n.tag ≠ .program := by
  obtain ⟨s, hs, hn⟩ := List.mem_flatMap.mp hn
  intro htag
  have hmem := (shape.areStatements s hs).tags n hn
  rw [htag] at hmem
  exact absurd hmem (by decide)

end CobolCompiler
