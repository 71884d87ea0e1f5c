import CobolCompiler.Pass.Declaration
import CobolCompiler.Pass.Generation
import CobolCompiler.Proofs.Walk

/-!
# Abstract syntax

What a tree says, without the identities and places of its nodes: programs with their fields,
parameters, results and statements. A field comes with the value it starts with, which depends on
what becomes of excess fraction digits.

The syntax of a tree is read off with functions that look at kinds only, so that it is there for
every tree; for grammatical trees nothing is lost. It does not change when the nodes of a tree are
numbered anew (`modulePrograms_renumber`).
-/

namespace CobolCompiler.Syntax

open Machine

/-- The name of a called program, with the module it belongs to if the call gives one. -/
structure Callee where
  module? : Option String
  program : String
  deriving DecidableEq, Repr

/-- An argument of a call. -/
inductive Argument
  | field (name : String) (byContent : Bool)
  | number (text : String)
  | string (text : String)
  /-- A call whose result is passed on. -/
  | call (callee : Callee) (arguments : List Argument)

/-- A statement. -/
inductive Statement
  | call (callee : Callee) (arguments : List Argument) (returnings : List String)
  | display (operands : List Argument)
  | goback

/-- The program that displays a value. -/
def Callee.display : Callee :=
  ⟨some CallSite.displayModule, CallSite.displayProgram⟩

/-- An operand as it is displayed: a field is passed by content. -/
def Argument.displayed : Argument → Argument
  | .field name _ => .field name true
  | other => other

/-- The name of a field that is passed. -/
def Argument.fieldName? : Argument → Option String
  | .field name _ => some name
  | _ => none

/-- The name of a field that is passed by reference. -/
def Argument.referenceName? : Argument → Option String
  | .field name false => some name
  | _ => none

/-- The statements without DISPLAY that a statement stands for: one call for each operand. -/
def Statement.lowered : Statement → List Statement
  | .display operands => operands.map fun operand => .call .display [operand.displayed] []
  | other => [other]

/-- A field with its usage and the value it starts with. -/
structure Field where
  name : String
  usage : Usage
  initial : Value
  deriving DecidableEq, Repr, Inhabited

/-- A program. -/
structure Program where
  name : String
  working : List Field
  linkage : List Field
  usings : List String
  returnings : List String
  statements : List Statement

/-! ### Reading trees -/

/-- The program that a call names. -/
def Callee.ofNode (call : Node) : Callee :=
  let name := CallSite.calleeName call
  ⟨name.module?.map (·.1), name.program⟩

namespace Argument

mutual

/-- The argument that a node is. -/
def ofNode : Node → Argument
  | ⟨_, .callUsingId name byContent, _, _⟩ => .field name byContent
  | ⟨_, .numberLiteral text, _, _⟩ => .number text
  | ⟨_, .stringLiteral text, _, _⟩ => .string text
  | ⟨id, payload, location, children⟩ =>
    .call (Callee.ofNode ⟨id, payload, location, children⟩) (underAll children)

/-- The arguments that lie under a child of a call. -/
def under : Node → List Argument
  | ⟨_, .callUsings, _, arguments⟩ => ofNodes arguments
  | _ => []

/-- The arguments that lie under the children of a call. -/
def underAll : List Node → List Argument
  | [] => []
  | n :: rest => under n ++ underAll rest

/-- The arguments that some nodes are. -/
def ofNodes : List Node → List Argument
  | [] => []
  | n :: rest => ofNode n :: ofNodes rest

end

theorem ofNodes_eq (ns : List Node) : ofNodes ns = ns.map ofNode := by
  induction ns with
  | nil => rfl
  | cons n rest ih => rw [ofNodes, ih, List.map_cons]

theorem underAll_eq (children : List Node) :
    underAll children = ((children.filter (·.is .callUsings)).flatMap (·.children)).map ofNode := by
  induction children with
  | nil => rfl
  | cons n rest ih =>
    obtain ⟨id, payload, location, children⟩ := n
    cases payload <;> simp [underAll, under, ih, Node.is, Node.tag, Payload.tag, ofNodes_eq]

/-- A nested call is its name and its arguments. -/
theorem ofNode_callExpression {n : Node} (h : n.payload = .callExpression) :
    ofNode n = .call (Callee.ofNode n) (n.arguments.map ofNode) := by
  obtain ⟨id, payload, location, children⟩ := n
  subst h
  simp only [ofNode, underAll_eq]
  rfl

end Argument

/-- The name in a leaf that takes a result. -/
def targetName? (n : Node) : Option String :=
  match n.payload with
  | .callReturningId name => some name
  | _ => none

/-- The statement that a node is. -/
def Statement.ofNode (n : Node) : Statement :=
  match n.payload with
  | .callStatement =>
    .call (Callee.ofNode n) (n.arguments.map Argument.ofNode) (n.returnings.filterMap targetName?)
  | .displayStatement => .display (n.children.map Argument.ofNode)
  | _ => .goback

/-- The field that a declaration declares. -/
def Field.ofNode (policy : FractionPolicy) (home : Section) (n : Node) : Field :=
  ⟨n.name, (Declaration.Clauses.ofNode n).usage,
    ((Declaration.readField policy home n).toOption.bind Generation.initialValue?).getD default⟩

/-- The heading of the fields of a section. -/
def sectionTag : Section → Tag
  | .workingStorage => .workingStorageSection
  | .linkage => .linkageSection

/-- The declarations in a section of a program. -/
def fieldNodes (home : Section) (program : Node) : List Node :=
  (program.childrenOf .dataDivision).flatMap fun data =>
    (data.childrenOf (sectionTag home)).flatMap (·.children)

/-- The name in a leaf that holds one. -/
def identifier? (n : Node) : Option String :=
  match n.payload with
  | .identifier name => some name
  | _ => none

/-- The names under a heading of a procedure division. -/
def parameterNames (heading : Tag) (program : Node) : List String :=
  (program.childrenOf .procedureDivision).flatMap fun procedure =>
    (procedure.childrenOf heading).flatMap fun list => list.children.filterMap identifier?

/-- The statements of a program. -/
def statementNodes (program : Node) : List Node :=
  (program.childrenOf .procedureDivision).flatMap fun procedure =>
    procedure.children.filter (Tag.statementTags.contains ·.tag)

/-- The program that a node is. -/
def Program.ofNode (policy : FractionPolicy) (n : Node) : Program where
  name := n.name
  working := (fieldNodes .workingStorage n).map (Field.ofNode policy .workingStorage)
  linkage := (fieldNodes .linkage n).map (Field.ofNode policy .linkage)
  usings := parameterNames .procedureUsings n
  returnings := parameterNames .procedureReturnings n
  statements := (statementNodes n).map Statement.ofNode

/-- The programs of a module. -/
def programNodes (root : Node) : List Node :=
  root.childrenOf .program

/-- The syntax of the programs of a module. -/
def modulePrograms (policy : FractionPolicy) (root : Node) : List Program :=
  (programNodes root).map (Program.ofNode policy)

end CobolCompiler.Syntax

/-! ### Identities do not matter -/

namespace CobolCompiler

namespace Node

/-- A tree without the identities of its nodes. -/
def erased : Node → Node :=
  mapUp fun n => { n with id := 0 }

theorem erased_mk (id : Nat) (payload : Payload) (location : Location) (children : List Node) :
    erased ⟨id, payload, location, children⟩ = ⟨0, payload, location, children.map erased⟩ := by
  rw [erased, mapUp_mk]

variable (n : Node)

@[simp] theorem payload_erased : n.erased.payload = n.payload := by
  obtain ⟨id, payload, location, children⟩ := n
  rw [erased_mk]

@[simp] theorem location_erased : n.erased.location = n.location := by
  obtain ⟨id, payload, location, children⟩ := n
  rw [erased_mk]

@[simp] theorem children_erased : n.erased.children = n.children.map erased := by
  obtain ⟨id, payload, location, children⟩ := n
  rw [erased_mk]

@[simp] theorem tag_erased : n.erased.tag = n.tag := by
  simp [tag]

@[simp] theorem is_erased (tag : Tag) : n.erased.is tag = n.is tag := by
  simp [is]

theorem childrenOf_erased (tag : Tag) :
    n.erased.childrenOf tag = (n.childrenOf tag).map erased := by
  simp [childrenOf, List.filter_map, Function.comp_def]

theorem child?_erased (tag : Tag) : n.erased.child? tag = (n.child? tag).map erased := by
  have his : (fun c : Node => c.is tag) ∘ erased = fun c => c.is tag :=
    funext fun c => c.is_erased tag
  rw [child?, child?, children_erased, List.find?_map, his]

@[simp] theorem name_erased : n.erased.name = n.name := by
  simp [name, name?, List.findSome?_map, Function.comp_def]

@[simp] theorem nameLocation_erased : n.erased.nameLocation = n.nameLocation := by
  simp [nameLocation, child?_erased, Function.comp_def]

theorem arguments_erased : n.erased.arguments = n.arguments.map erased := by
  simp [arguments, childrenOf_erased, List.flatMap_map, List.map_flatMap]

theorem returnings_erased : n.erased.returnings = n.returnings.map erased := by
  simp [returnings, childrenOf_erased, List.flatMap_map, List.map_flatMap]

theorem renumber_mk (next id : Nat) (payload : Payload) (location : Location)
    (children : List Node) :
    renumber next ⟨id, payload, location, children⟩ =
      (⟨next, payload, location, (renumberAll (next + 1) [] children).1⟩,
        (renumberAll (next + 1) [] children).2) := by
  rw [renumber]

/-- The trees already done come first in the result. -/
theorem renumberAll_eq (next : Nat) (done ns : List Node) :
    renumberAll next done ns =
      (done.reverse ++ (renumberAll next [] ns).1, (renumberAll next [] ns).2) := by
  induction ns generalizing next done with
  | nil => simp [renumberAll]
  | cons n rest ih =>
    simp only [renumberAll]
    rw [ih, ih _ [_]]
    simp

theorem renumberAll_cons (next : Nat) (n : Node) (rest : List Node) :
    renumberAll next [] (n :: rest) =
      ((renumber next n).1 :: (renumberAll (renumber next n).2 [] rest).1,
        (renumberAll (renumber next n).2 [] rest).2) := by
  simp only [renumberAll]
  rw [renumberAll_eq]
  rfl

/-- Numbering a tree anew changes its identities only. -/
theorem erased_renumber (next : Nat) : (n.renumber next).1.erased = n.erased := by
  induction n using induction_on generalizing next with
  | node id payload location children ih =>
    have hchildren : ∀ next, (renumberAll next [] children).1.map erased = children.map erased := by
      induction children with
      | nil => intro next; rfl
      | cons c rest ihrest =>
        intro next
        rw [renumberAll_cons, List.map_cons, List.map_cons, ih c List.mem_cons_self,
          ihrest fun d hd => ih d (List.mem_cons_of_mem c hd)]
    rw [renumber_mk, erased_mk, erased_mk, hchildren]

/-- The rules about children look at kinds only. -/
theorem fits_erased (rules : List ChildRule) (ns : List Node) :
    fits rules (ns.map erased) = fits rules ns := by
  induction rules generalizing ns with
  | nil => simp [fits]
  | cons rule rules ih =>
    obtain ⟨times, tags⟩ := rule
    cases times with
    | once => cases ns <;> simp [fits, ih]
    | optional =>
      cases ns with
      | nil => simp [fits]
      | cons m rest =>
        have hcons := ih (m :: rest)
        rw [List.map_cons] at hcons
        simp [fits, ih, hcons]
    | many => simp [fits, List.dropWhile_map, Function.comp_def, ih]

theorem grammatical_erased : n.erased.grammatical = n.grammatical := by
  induction n using induction_on with
  | node id payload location children ih =>
    have hall : allGrammatical (children.map erased) = allGrammatical children := by
      induction children with
      | nil => rfl
      | cons c rest ihrest =>
        rw [List.map_cons, allGrammatical, allGrammatical, ih c List.mem_cons_self,
          ihrest fun d hd => ih d (List.mem_cons_of_mem c hd)]
    rw [erased_mk, grammatical, grammatical, fits_erased, hall]

theorem grammatical_renumber (next : Nat) : (n.renumber next).1.grammatical = n.grammatical := by
  rw [← grammatical_erased, erased_renumber, grammatical_erased]

theorem tag_renumber (next : Nat) : (n.renumber next).1.tag = n.tag := by
  rw [← tag_erased, erased_renumber, tag_erased]

theorem nodes_erased : n.erased.nodes = n.nodes.map erased := by
  induction n using induction_on with
  | node id payload location children ih =>
    rw [nodes_eq, nodes_eq, List.map_cons, children_erased, List.flatMap_map, List.map_flatMap]
    rw [List.flatMap_def, List.flatMap_def, List.map_congr_left ih]

variable {n} in
/-- A node of a tree has its like in any tree that differs in its identities only. -/
theorem exists_like {k k₀ : Node} (h : k₀.erased = k.erased) (hn : n ∈ k.nodes) :
    ∃ n₀ ∈ k₀.nodes, n₀.erased = n.erased := by
  have hmem : n.erased ∈ k₀.erased.nodes := by
    rw [h, nodes_erased]
    exact List.mem_map_of_mem hn
  rw [nodes_erased] at hmem
  exact List.mem_map.mp hmem

end Node

namespace Syntax

variable (n : Node)

theorem Callee.ofNode_erased : Callee.ofNode n.erased = Callee.ofNode n := by
  have hname : CallSite.calleeName n.erased = CallSite.calleeName n := by
    unfold CallSite.calleeName
    rw [Node.child?_erased, Node.location_erased]
    cases n.child? .callId with
    | none => rfl
    | some callId => simp [List.foldl_map]
  rw [Callee.ofNode, Callee.ofNode, hname]

theorem Argument.ofNode_erased : Argument.ofNode n.erased = Argument.ofNode n := by
  suffices hboth : Argument.ofNode n.erased = Argument.ofNode n ∧
      Argument.under n.erased = Argument.under n from
    hboth.1
  -- the arguments of a call lie two levels below it, so the heading between is carried along
  induction n using Node.induction_on with
  | node id payload location children ih =>
    have hcallee := Callee.ofNode_erased ⟨id, payload, location, children⟩
    have hargs : ofNodes (children.map Node.erased) = ofNodes children := by
      rw [ofNodes_eq, ofNodes_eq, List.map_map]
      exact List.map_congr_left fun c hc => (ih c hc).1
    have hunder : underAll (children.map Node.erased) = underAll children := by
      clear hargs hcallee
      induction children with
      | nil => rfl
      | cons c rest ihrest =>
        rw [List.map_cons, underAll, underAll, (ih c List.mem_cons_self).2,
          ihrest fun d hd => ih d (List.mem_cons_of_mem c hd)]
    rw [Node.erased_mk] at hcallee ⊢
    constructor
    · cases payload <;> simp only [Argument.ofNode, hcallee, hunder]
    · cases payload <;> simp only [Argument.under, hargs]

theorem map_argument_erased (ns : List Node) :
    (ns.map Node.erased).map Argument.ofNode = ns.map Argument.ofNode := by
  rw [List.map_map]
  exact List.map_congr_left fun n _ => Argument.ofNode_erased n

theorem Statement.ofNode_erased : Statement.ofNode n.erased = Statement.ofNode n := by
  have htarget : targetName? ∘ Node.erased = targetName? := by
    funext m
    simp [targetName?]
  have htargets : (n.returnings.map Node.erased).filterMap targetName? =
      n.returnings.filterMap targetName? := by
    rw [List.filterMap_map, htarget]
  unfold Statement.ofNode
  rw [Node.payload_erased, Callee.ofNode_erased, Node.arguments_erased, Node.returnings_erased,
    htargets, Node.children_erased, map_argument_erased, map_argument_erased]

theorem Field.ofNode_erased (policy : FractionPolicy) (home : Section) :
    Field.ofNode policy home n.erased = Field.ofNode policy home n := by
  have hclause {α : Type} {read : Node → Option α} (h : ∀ m : Node, read m.erased = read m) :
      n.erased.children.findSome? read = n.children.findSome? read := by
    rw [Node.children_erased, List.findSome?_map]
    exact congrArg (List.findSome? · n.children) (funext h)
  have hclauses : Declaration.Clauses.ofNode n.erased = Declaration.Clauses.ofNode n := by
    unfold Declaration.Clauses.ofNode
    rw [hclause fun m => by simp [Declaration.levelOf?], hclause
      fun m => by simp [Declaration.usageOf?], hclause fun m => by simp [Declaration.pictureOf?],
      hclause fun m => by simp [Declaration.defaultOf?], Node.name_erased, Node.nameLocation_erased]
  rw [Field.ofNode, Field.ofNode, Declaration.readField, Declaration.readField, hclauses,
    Node.name_erased]

theorem parameterNames_erased (heading : Tag) :
    parameterNames heading n.erased = parameterNames heading n := by
  have hname : identifier? ∘ Node.erased = identifier? := funext fun m => by simp [identifier?]
  simp only [parameterNames, Node.childrenOf_erased, List.flatMap_map, Node.children_erased,
    List.filterMap_map, hname]

theorem fieldNodes_erased (home : Section) :
    fieldNodes home n.erased = (fieldNodes home n).map Node.erased := by
  simp [fieldNodes, Node.childrenOf_erased, List.flatMap_map, List.map_flatMap]

theorem statementNodes_erased : statementNodes n.erased = (statementNodes n).map Node.erased := by
  simp [statementNodes, Node.childrenOf_erased, List.flatMap_map, List.map_flatMap, List.filter_map,
    Function.comp_def]

theorem Program.ofNode_erased (policy : FractionPolicy) :
    Program.ofNode policy n.erased = Program.ofNode policy n := by
  simp only [Program.ofNode, Node.name_erased, fieldNodes_erased, statementNodes_erased,
    parameterNames_erased,
    List.map_map, Function.comp_def, Field.ofNode_erased, Statement.ofNode_erased]

/-- The programs of a tree are the same when its nodes are numbered anew. -/
theorem modulePrograms_renumber (policy : FractionPolicy) (root : Node) (next : Nat) :
    modulePrograms policy (root.renumber next).1 = modulePrograms policy root := by
  have hsame : ∀ tree : Node, modulePrograms policy tree.erased = modulePrograms policy tree := by
    intro tree
    rw [modulePrograms, programNodes, Node.childrenOf_erased, List.map_map]
    exact List.map_congr_left fun p _ => Program.ofNode_erased p policy
  rw [← hsame, Node.erased_renumber, hsame]

end Syntax

end CobolCompiler

/-! ### Programs by their shape -/

namespace CobolCompiler

theorem Under.tag_eq {heading : Payload} {nodes children : List Node}
    (h : Under heading nodes children) :
    ∀ n ∈ nodes, n.tag = heading.tag := by
  cases h with
  | absent => simp
  | present => simp [Node.tag]

theorem IsName.tag_eq {n : Node} (h : IsName n) : n.tag = .identifier := by
  cases h
  rfl

theorem IsData.tag_eq {data working linkage : List Node} (h : IsData data working linkage) :
    ∀ n ∈ data, n.tag = .dataDivision := by
  cases h with
  | absent => simp
  | present => simp [Node.tag, Payload.tag]

theorem IsStatement.tag_mem {n : Node} (h : IsStatement n) : n.tag ∈ Tag.statementTags := by
  cases h <;> simp [Node.tag, Payload.tag, Tag.statementTags]

theorem filter_is {nodes : List Node} {found : Tag} (h : ∀ n ∈ nodes, n.tag = found) (tag : Tag) :
    nodes.filter (·.is tag) = if found = tag then nodes else [] := by
  split
  · next heq => exact List.filter_eq_self.mpr fun n hn => by simp [Node.is, h n hn, heq]
  · next hne => exact List.filter_eq_nil_iff.mpr fun n hn => by simp [Node.is, h n hn, hne]

namespace ProgramFrame

open Syntax

variable (frame : ProgramFrame) {statements ends : List Node}

/-- The name of the program. -/
def nameText : String :=
  (identifier? frame.name).getD ""

/-- The declarations in a section. -/
def fieldsOf : Section → List Node
  | .workingStorage => frame.working
  | .linkage => frame.linkage

theorem childrenOf_node (hends : ∀ e ∈ ends, e.tag = .endProgram) (tag : Tag) :
    (frame.node statements ends).childrenOf tag =
      (if .identifier = tag then [frame.name] else []) ++
        ((if .exportMark = tag then frame.exports else []) ++
      ((if .dataDivision = tag then frame.data else []) ++
      ((if .procedureDivision = tag then [frame.procedure statements] else []) ++
        if .endProgram = tag then ends else []))) := by
  have hname : ∀ n ∈ [frame.name], n.tag = .identifier := by simp [frame.isName.tag_eq]
  have hprocedure : ∀ n ∈ [frame.procedure statements], n.tag = .procedureDivision := by
    simp [procedure, Node.tag, Payload.tag]
  change ([frame.name] ++
    (frame.exports ++ (frame.data ++ ([frame.procedure statements] ++ ends)))).filter _ = _
  simp only [List.filter_append, filter_is hname, filter_is frame.isExport.tag_eq,
    filter_is frame.isData.tag_eq, filter_is hprocedure, filter_is hends]
  rfl

theorem childrenOf_procedure (hstatements : ∀ s ∈ statements, IsStatement s) {tag : Tag}
    (htag : tag ∉ Tag.statementTags) :
    (frame.procedure statements).childrenOf tag =
      (if .procedureUsings = tag then frame.usingsNodes else []) ++
        if .procedureReturnings = tag then frame.returningsNodes else [] := by
  have hnone : statements.filter (·.is tag) = [] := by
    refine List.filter_eq_nil_iff.mpr fun s hs => ?_
    have hmem := (hstatements s hs).tag_mem
    simp only [Node.is, decide_eq_true_eq]
    rintro rfl
    exact htag hmem
  rw [Node.childrenOf, procedure]
  simp only [List.filter_append, filter_is frame.isUsings.tag_eq,
    filter_is frame.isReturnings.tag_eq, hnone, List.append_nil]
  rfl

theorem name_node : (frame.node statements ends).name = frame.nameText := by
  have hname := frame.isName
  unfold Node.name Node.name? node nameText
  generalize frame.name = name at hname ⊢
  cases hname
  rfl

theorem fieldNodes_node (hends : ∀ e ∈ ends, e.tag = .endProgram) (home : Section) :
    fieldNodes home (frame.node statements ends) = frame.fieldsOf home := by
  rw [fieldNodes, childrenOf_node frame hends]
  have hdata := frame.isData
  unfold fieldsOf
  generalize frame.working = working, frame.linkage = linkage, frame.data = data at hdata ⊢
  cases hdata with
  | absent => cases home <;> rfl
  | present id location hworking hlinkage =>
    cases home <;> cases hworking <;> cases hlinkage <;> simp [Node.childrenOf, sectionTag, Node.is,
      Node.tag, Payload.tag]

variable (hends : ∀ e ∈ ends, e.tag = .endProgram) (hstatements : ∀ s ∈ statements, IsStatement s)

include hends hstatements

/-- Parameters and results are the names under their heading. -/
theorem parameterNames_node {heading : Payload} {nodes children : List Node}
    (hunder : Under heading nodes children) (htag : heading.tag ∉ Tag.statementTags)
    (hnodes : ((if .procedureUsings = heading.tag then frame.usingsNodes else []) ++
      if .procedureReturnings = heading.tag then frame.returningsNodes else []) = nodes) :
    parameterNames heading.tag (frame.node statements ends) = children.filterMap identifier? := by
  rw [parameterNames, childrenOf_node frame hends]
  simp only [reduceCtorEq, if_false, if_true, List.nil_append, List.append_nil, List.flatMap_cons,
    List.flatMap_nil]
  rw [childrenOf_procedure frame hstatements htag, hnodes]
  cases hunder <;> simp

theorem statementNodes_node :
    statementNodes (frame.node statements ends) = statements := by
  have hnone {heading : Payload} {nodes children : List Node} (h : Under heading nodes children)
      (htag : heading.tag ∉ Tag.statementTags) :
      nodes.filter (Tag.statementTags.contains ·.tag) = [] := by
    refine List.filter_eq_nil_iff.mpr fun n hn => ?_
    rw [h.tag_eq n hn, List.contains_iff_mem]
    exact htag
  have hall : statements.filter (Tag.statementTags.contains ·.tag) = statements :=
    List.filter_eq_self.mpr fun s hs => List.contains_iff_mem.mpr (hstatements s hs).tag_mem
  rw [statementNodes, childrenOf_node frame hends]
  simp only [reduceCtorEq, if_false, if_true, List.nil_append, List.append_nil, List.flatMap_cons,
    List.flatMap_nil]
  rw [procedure, List.filter_append, List.filter_append, hnone frame.isUsings (by decide),
    hnone frame.isReturnings (by decide), hall]
  rfl

/-- The syntax of a program is that of its parts. -/
theorem program_ofNode (policy : FractionPolicy) :
    Program.ofNode policy (frame.node statements ends) =
      { name := frame.nameText
        working := frame.working.map (Field.ofNode policy .workingStorage)
        linkage := frame.linkage.map (Field.ofNode policy .linkage)
        usings := frame.usings.filterMap identifier?
        returnings := frame.returnings.filterMap identifier?
        statements := statements.map Statement.ofNode } := by
  have husings :=
    parameterNames_node frame hends hstatements frame.isUsings (by decide) (by simp [Payload.tag])
  have hreturnings := parameterNames_node frame hends hstatements frame.isReturnings (by decide)
    (by simp [Payload.tag])
  rw [Program.ofNode, name_node, fieldNodes_node frame hends, fieldNodes_node frame hends,
    ← husings, ← hreturnings, statementNodes_node frame hends hstatements]
  rfl

end ProgramFrame

/-- The programs of a module are those of its shape. -/
theorem ModuleShape.programNodes_node (m : ModuleShape) :
    Syntax.programNodes m.node = m.programs.map ProgramShape.node := by
  have hname : ∀ n ∈ [m.name], n.tag = .identifier := by simp [m.isName.tag_eq]
  have hprograms : ∀ n ∈ m.programs.map ProgramShape.node, n.tag = .program := by
    intro n hn
    obtain ⟨shape, -, rfl⟩ := List.mem_map.mp hn
    rfl
  have hchildren : m.node.children = [m.name] ++ m.programs.map ProgramShape.node := rfl
  rw [Syntax.programNodes, Node.childrenOf, hchildren, List.filter_append, filter_is hname,
    filter_is hprograms]
  rfl

theorem Tag.eq_module_of_program_mem {tag : Tag} (h : .program ∈ tag.childRules.flatMap (·.tags)) :
    tag = .module := by
  revert h
  cases tag <;> decide

theorem Tag.module_not_mem (tag : Tag) : .module ∉ tag.childRules.flatMap (·.tags) := by
  cases tag <;> decide

/-- A program in a grammatical tree is the root, or it is one of the programs of the module that the
tree is. -/
theorem Syntax.eq_root_or_mem_programNodes {root n : Node}
    (hgrammar : root.grammatical = true) (hn : n ∈ root.nodes)
    (hprogram : n.tag = .program) : n = root ∨ root.tag = .module ∧ n ∈ programNodes root := by
  induction root using Node.induction_on with
  | node id payload location children ih =>
    obtain ⟨hfits, hchildren⟩ := grammatical_node hgrammar
    rcases Node.mem_nodes.mp hn with hroot | ⟨c, hc, hn⟩
    · exact Or.inl hroot
    · have htag : c.tag ∈ payload.tag.childRules.flatMap (·.tags) := tag_of_fits hfits hc
      rcases ih c hc (hchildren c hc) hn with rfl | ⟨hmodule, -⟩
      · -- only modules have programs under them
        rw [hprogram] at htag
        exact Or.inr
          ⟨Tag.eq_module_of_program_mem htag, List.mem_filter.mpr ⟨hc, by simp [Node.is, hprogram]⟩⟩
      · -- and a module is under no other node
        rw [hmodule] at htag
        exact absurd htag (Tag.module_not_mem payload.tag)

end CobolCompiler
