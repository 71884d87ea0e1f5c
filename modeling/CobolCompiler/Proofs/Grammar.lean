import CobolCompiler.Tree.Build
import Mathlib.Data.List.TakeWhile
import Mathlib.Data.Set.List

/-!
# The grammar of trees

The children that a node has in a well-formed tree, kind by kind, as a table: a list of rules, each
for one child, an optional child or any number of children, with the kinds that are allowed there.
`Node.grammatical` compares a whole tree with the table and can be run. It does not ask for a module
at the root.

Proofs do not work with the table. They use the shapes below, which write the children of each
construct out:

* `IsArgument` and `IsStatement` for what stands in a procedure;
* `ProgramShape` and `ModuleShape` for what stands around it.
-/

namespace CobolCompiler

variable {n : Node} {nodes : List Node} {rules : List ChildRule} {tag : Tag} {tags : List Tag}

/-! ### The table -/

/-- How often a child may occur. -/
inductive Times
  | once
  | optional
  | many
  deriving DecidableEq, Repr

/-- One place among the children of a node. -/
structure ChildRule where
  times : Times
  tags : List Tag
  deriving DecidableEq, Repr

namespace Tag

/-- What can be passed to a call. -/
def argumentTags : List Tag :=
  [.callUsingId, .numberLiteral, .stringLiteral, .callExpression]

/-- What a procedure is made of. -/
def statementTags : List Tag :=
  [.callStatement, .displayStatement, .gobackStatement]

/-- The children of each kind of node, in their order. A kind without rules is a leaf. The clauses
of a field may stand in any order, as only the first of each kind counts. -/
def childRules : Tag → List ChildRule
  | .module => [⟨.once, [.identifier]⟩, ⟨.many, [.program]⟩]
  | .program =>
    [⟨.once, [.identifier]⟩, ⟨.optional, [.exportMark]⟩, ⟨.optional, [.dataDivision]⟩,
     ⟨.once, [.procedureDivision]⟩, ⟨.optional, [.endProgram]⟩]
  | .dataDivision => [⟨.optional, [.workingStorageSection]⟩, ⟨.optional, [.linkageSection]⟩]
  | .workingStorageSection => [⟨.many, [.field]⟩]
  | .linkageSection => [⟨.many, [.field]⟩]
  | .field =>
    [⟨.once, [.level]⟩, ⟨.once, [.identifier]⟩,
     ⟨.many, [.picture, .usage, .numberLiteral, .stringLiteral]⟩]
  | .procedureDivision =>
    [⟨.optional, [.procedureUsings]⟩, ⟨.optional, [.procedureReturnings]⟩, ⟨.many, statementTags⟩]
  | .procedureUsings => [⟨.many, [.identifier]⟩]
  | .procedureReturnings => [⟨.many, [.identifier]⟩]
  | .callStatement =>
    [⟨.once, [.callId]⟩, ⟨.optional, [.callUsings]⟩, ⟨.optional, [.callReturnings]⟩]
  | .callExpression => [⟨.once, [.callId]⟩, ⟨.optional, [.callUsings]⟩]
  | .callId => [⟨.optional, [.callIdModule]⟩, ⟨.once, [.callIdProgram]⟩]
  | .callUsings => [⟨.many, argumentTags⟩]
  | .callReturnings => [⟨.many, [.callReturningId]⟩]
  | .displayStatement => [⟨.many, argumentTags⟩]
  | _ => []

end Tag

/-- Whether the kinds of some nodes are those that rules ask for, one rule after the other. -/
def fits : List ChildRule → List Node → Bool
  | [], nodes => nodes.isEmpty
  | ⟨.once, tags⟩ :: rules, nodes =>
    match nodes with
    | [] => false
    | n :: rest => tags.contains n.tag && fits rules rest
  | ⟨.optional, tags⟩ :: rules, nodes =>
    match nodes with
    | [] => fits rules []
    | n :: rest => if tags.contains n.tag then fits rules rest else fits rules (n :: rest)
  | ⟨.many, tags⟩ :: rules, nodes => fits rules (nodes.dropWhile (tags.contains ·.tag))

namespace Node

mutual

/-- Whether every node of a tree has the children that its kind asks for. -/
def grammatical : Node → Bool
  | ⟨_, payload, _, children⟩ => fits payload.tag.childRules children && allGrammatical children

/-- The same for several trees. -/
def allGrammatical : List Node → Bool
  | [] => true
  | n :: rest => n.grammatical && allGrammatical rest

end

open Build

/-- A module in which programs call each other: fields of all kinds, a call with a result, a call as
an argument, and displayed values. -/
def sampleModule : Node :=
  Build.module "SYSTEM" [
    program "DISPLAY" [
      leaf .exportMark,
      node .dataDivision [node .linkageSection [field 1 "VALUE" [leaf (.usage .any)]]],
      procedure ["VALUE"] [] []],
    program "ADD" [
      node .dataDivision [node .linkageSection [
        field 1 "LEFT" [leaf (.usage .comp2)],
        field 1 "RIGHT" [leaf (.usage .comp2)],
        field 1 "SUM" [leaf (.usage .comp2)]]],
      procedure ["LEFT", "RIGHT"] ["SUM"] [leaf .gobackStatement]],
    program "MAIN" [
      node .dataDivision [
        node .workingStorageSection [field 1 "COUNT" [leaf (.usage .comp2)]],
        node .linkageSection [
          field 1 "STEP" [leaf (.usage .comp2)],
          field 1 "TOTAL" [leaf (.usage .comp2)]]],
      procedure ["STEP"] [] [
        call "ADD" none [
          leaf (.callUsingId "STEP" false),
          callExpression "ADD" none [
            leaf (.callUsingId "COUNT" false), leaf (.numberLiteral "1")]] ["TOTAL"],
        node .displayStatement [
          leaf (.callUsingId "TOTAL" false), leaf (.stringLiteral "DONE")]],
      leaf (.endProgram "MAIN")]]

example : sampleModule.grammatical = true := by
  decide +kernel

theorem allGrammatical_iff (nodes : List Node) :
    allGrammatical nodes = true ↔ ∀ n ∈ nodes, n.grammatical = true := by
  induction nodes with
  | nil => simp [allGrammatical]
  | cons n rest ih => simp [allGrammatical, ih]

/-- A tree is reached from its leaves: what holds of a node when it holds of its children holds of
every node. -/
@[elab_as_elim]
theorem induction_on {motive : Node → Prop}
    (node : ∀ id payload location children, (∀ c ∈ children, motive c) →
      motive ⟨id, payload, location, children⟩) (n : Node) : motive n := by
  refine @Node.rec motive (fun children => ∀ c ∈ children, motive c) ?_ ?_ ?_ n
  · intro id payload location children ih
    exact node id payload location children ih
  · intro c hc
    cases hc
  · intro head tail hhead htail c hc
    rcases List.mem_cons.mp hc with rfl | hc
    · exact hhead
    · exact htail c hc

end Node

/-! ### What the rules say -/

theorem fits_nil (h : fits [] nodes = true) : nodes = [] := by
  simpa [fits] using h

theorem fits_once (h : fits (⟨.once, tags⟩ :: rules) nodes = true) :
    ∃ n rest, nodes = n :: rest ∧ n.tag ∈ tags ∧ fits rules rest = true := by
  cases nodes with
  | nil => simp [fits] at h
  | cons n rest =>
    simp only [fits, Bool.and_eq_true, List.contains_iff_mem] at h
    exact ⟨n, rest, rfl, h.1, h.2⟩

theorem fits_optional (h : fits (⟨.optional, tags⟩ :: rules) nodes = true) :
    ∃ found : Option Node, ∃ rest,
      nodes = found.toList ++ rest ∧ (∀ n ∈ found, n.tag ∈ tags) ∧ fits rules rest = true := by
  cases nodes with
  | nil => exact ⟨none, [], rfl, by simp, by simpa [fits] using h⟩
  | cons n rest =>
    simp only [fits] at h
    split at h
    · next hmem =>
      refine ⟨some n, rest, rfl, ?_, h⟩
      intro m hm
      obtain rfl := Option.some.inj hm
      exact List.contains_iff_mem.mp hmem
    · exact ⟨none, n :: rest, rfl, by simp, h⟩

theorem fits_many (h : fits (⟨.many, tags⟩ :: rules) nodes = true) :
    ∃ found rest, nodes = found ++ rest ∧ (∀ n ∈ found, n.tag ∈ tags) ∧ fits rules rest = true := by
  refine ⟨nodes.takeWhile (tags.contains ·.tag), nodes.dropWhile (tags.contains ·.tag),
    (List.takeWhile_append_dropWhile).symm, ?_, h⟩
  intro n hn
  have hcontains := List.mem_takeWhile_imp (p := fun m : Node => tags.contains m.tag) hn
  exact List.contains_iff_mem.mp hcontains

/-- Children are of kinds that the rules name. -/
theorem tag_of_fits {children : List Node} (h : fits rules children = true) (hn : n ∈ children) :
    n.tag ∈ rules.flatMap (·.tags) := by
  induction rules generalizing children with
  | nil =>
    rw [fits_nil h] at hn
    cases hn
  | cons rule rules ih =>
    obtain ⟨times, tags⟩ := rule
    rw [List.flatMap_cons, List.mem_append]
    cases times with
    | once =>
      obtain ⟨first, rest, rfl, hfirst, hrest⟩ := fits_once h
      rcases List.mem_cons.mp hn with rfl | hn
      · exact Or.inl hfirst
      · exact Or.inr (ih hrest hn)
    | optional =>
      obtain ⟨found, rest, rfl, hfound, hrest⟩ := fits_optional h
      rcases List.mem_append.mp hn with hn | hn
      · exact Or.inl (hfound n (Option.mem_toList.mp hn))
      · exact Or.inr (ih hrest hn)
    | many =>
      obtain ⟨found, rest, rfl, hfound, hrest⟩ := fits_many h
      rcases List.mem_append.mp hn with hn | hn
      · exact Or.inl (hfound n hn)
      · exact Or.inr (ih hrest hn)

/-! ### Shapes -/

/-- Nodes under a heading, which may be left out if there are none. -/
inductive Under (heading : Payload) : List Node → List Node → Prop
  | absent : Under heading [] []
  | present (id : Nat) (location : Location) (nodes : List Node) :
      Under heading [⟨id, heading, location, nodes⟩] nodes

/-- A name. -/
inductive IsName : Node → Prop
  | intro (id : Nat) (location : Location) (name : String) :
      IsName ⟨id, .identifier name, location, []⟩

/-- A field that takes a result of a call. -/
inductive IsTarget : Node → Prop
  | intro (id : Nat) (location : Location) (name : String) :
      IsTarget ⟨id, .callReturningId name, location, []⟩

/-- The name of a called program, of the same file or of a module. -/
inductive IsCallId : Node → Prop
  | own (id programId : Nat) (location programLocation : Location) (program : String) :
      IsCallId ⟨id, .callId, location, [⟨programId, .callIdProgram program, programLocation, []⟩]⟩
  | qualified (id ownerId programId : Nat) (location ownerLocation programLocation : Location)
      (owner program : String) :
      IsCallId ⟨id, .callId, location, [⟨ownerId, .callIdModule owner, ownerLocation, []⟩,
        ⟨programId, .callIdProgram program, programLocation, []⟩]⟩

/-- An argument of a call. -/
inductive IsArgument : Node → Prop
  | field (id : Nat) (location : Location) (name : String) (byContent : Bool) :
      IsArgument ⟨id, .callUsingId name byContent, location, []⟩
  | number (id : Nat) (location : Location) (text : String) :
      IsArgument ⟨id, .numberLiteral text, location, []⟩
  | string (id : Nat) (location : Location) (text : String) :
      IsArgument ⟨id, .stringLiteral text, location, []⟩
  | call (id : Nat) (location : Location) {callee : Node} {usings arguments : List Node}
      (hcallee : IsCallId callee)
      (husings : Under .callUsings usings arguments) (harguments : ∀ a ∈ arguments, IsArgument a) :
      IsArgument ⟨id, .callExpression, location, callee :: usings⟩

/-- A statement of a procedure. -/
inductive IsStatement : Node → Prop
  | call (id : Nat) (location : Location)
      {callee : Node} {usings arguments returnings targets : List Node} (hcallee : IsCallId callee)
      (husings : Under .callUsings usings arguments) (harguments : ∀ a ∈ arguments, IsArgument a)
      (hreturnings : Under .callReturnings returnings targets)
      (htargets : ∀ t ∈ targets, IsTarget t) :
      IsStatement ⟨id, .callStatement, location, callee :: (usings ++ returnings)⟩
  | display (id : Nat) (location : Location) {operands : List Node}
      (hoperands : ∀ a ∈ operands, IsArgument a) :
      IsStatement ⟨id, .displayStatement, location, operands⟩
  | goback (id : Nat) (location : Location) : IsStatement ⟨id, .gobackStatement, location, []⟩

/-- The declaration of a field; its clauses are leaves. -/
inductive IsField : Node → Prop
  | intro (id : Nat) (location : Location) {clauses : List Node}
      (hclauses : ∀ c ∈ clauses, c.children = [] ∧
        c.tag ∈ [Tag.level, .identifier, .picture, .usage, .numberLiteral, .stringLiteral]) :
      IsField ⟨id, .field, location, clauses⟩

/-- A data division, if there is one, with the fields of its two sections. -/
inductive IsData : List Node → List Node → List Node → Prop
  | absent : IsData [] [] []
  | present (id : Nat) (location : Location) {workings linkages working linkage : List Node}
      (hworking : Under .workingStorageSection workings working)
      (hlinkage : Under .linkageSection linkages linkage) :
      IsData [⟨id, .dataDivision, location, workings ++ linkages⟩] working linkage

/-- What stands around the statements of a program. The passes that rewrite a tree change the
statements and drop the end marker; this part of a program they leave as it is. -/
structure ProgramFrame where
  id : Nat
  location : Location
  name : Node
  exports : List Node
  data : List Node
  /-- The fields of the two sections. -/
  working : List Node
  linkage : List Node
  procedureId : Nat
  procedureLocation : Location
  usingsNodes : List Node
  /-- The names of the parameters. -/
  usings : List Node
  returningsNodes : List Node
  /-- The names of the results. -/
  returnings : List Node
  isName : IsName name
  isExport : Under .exportMark exports []
  isData : IsData data working linkage
  isWorking : ∀ f ∈ working, IsField f
  isLinkage : ∀ f ∈ linkage, IsField f
  isUsings : Under .procedureUsings usingsNodes usings
  areUsings : ∀ u ∈ usings, IsName u
  isReturnings : Under .procedureReturnings returningsNodes returnings
  areReturnings : ∀ r ∈ returnings, IsName r

namespace ProgramFrame

/-- The procedure division with some statements. -/
def procedure (f : ProgramFrame) (statements : List Node) : Node :=
  ⟨f.procedureId, .procedureDivision, f.procedureLocation,
    f.usingsNodes ++ (f.returningsNodes ++ statements)⟩

/-- The program with some statements and an end marker or none. -/
def node (f : ProgramFrame) (statements ends : List Node) : Node :=
  ⟨f.id, .program, f.location, f.name :: (f.exports ++ (f.data ++ f.procedure statements :: ends))⟩

end ProgramFrame

/-- A program with its statements and its end marker. -/
structure ProgramShape where
  frame : ProgramFrame
  statements : List Node
  ends : List Node
  areStatements : ∀ s ∈ statements, IsStatement s
  areEnds : ∃ marker, Under (.endProgram marker) ends []

/-- The node of a program. -/
def ProgramShape.node (p : ProgramShape) : Node :=
  p.frame.node p.statements p.ends

/-- A module with its programs. -/
structure ModuleShape where
  id : Nat
  location : Location
  name : Node
  isName : IsName name
  programs : List ProgramShape

/-- The node of a module. -/
def ModuleShape.node (m : ModuleShape) : Node :=
  ⟨m.id, .module, m.location, m.name :: m.programs.map (·.node)⟩

/-! ### From the table to the shapes -/

/-- The payload of a kind of which there is only one. -/
def Tag.heading? : Tag → Option Payload
  | .module => some .module
  | .program => some .program
  | .exportMark => some .exportMark
  | .dataDivision => some .dataDivision
  | .workingStorageSection => some .workingStorageSection
  | .linkageSection => some .linkageSection
  | .field => some .field
  | .procedureDivision => some .procedureDivision
  | .procedureUsings => some .procedureUsings
  | .procedureReturnings => some .procedureReturnings
  | .callStatement => some .callStatement
  | .callExpression => some .callExpression
  | .callId => some .callId
  | .callUsings => some .callUsings
  | .callReturnings => some .callReturnings
  | .displayStatement => some .displayStatement
  | .gobackStatement => some .gobackStatement
  | _ => none

variable {heading : Payload}

theorem payload_eq_of_heading {payload : Payload} (h : payload.tag.heading? = some heading) :
    payload = heading := by
  cases payload <;> simp only [Payload.tag, Tag.heading?, Option.some.injEq, reduceCtorEq] at h <;>
    exact h

theorem grammatical_node {id : Nat} {payload : Payload} {location : Location} {children : List Node}
    (h : (⟨id, payload, location, children⟩ : Node).grammatical = true) :
    fits payload.tag.childRules children = true ∧ ∀ c ∈ children, c.grammatical = true := by
  simp only [Node.grammatical, Bool.and_eq_true, Node.allGrammatical_iff] at h
  exact h

theorem payload_of_tag (htag : n.tag = tag) (hheading : tag.heading? = some heading) :
    n.payload = heading := by
  apply payload_eq_of_heading
  rw [show n.payload.tag = tag from htag, hheading]

theorem children_of_leaf (h : n.grammatical = true) (hleaf : n.tag.childRules = []) :
    n.children = [] := by
  obtain ⟨id, payload, location, children⟩ := n
  have hfits := (grammatical_node h).1
  rw [show payload.tag.childRules = [] from hleaf] at hfits
  exact fits_nil hfits

/-- An optional node of a kind without text is a heading with its children. -/
theorem under_of_optional {found : Option Node} (htag : ∀ n ∈ found, n.tag ∈ [tag])
    (hheading : tag.heading? = some heading) :
    Under heading found.toList ((found.map (·.children)).getD []) := by
  cases found with
  | none => exact .absent
  | some n =>
    have hpayload := payload_of_tag (List.mem_singleton.mp (htag n rfl)) hheading
    obtain ⟨id, payload, location, children⟩ := n
    subst hpayload
    exact .present id location children

/-- The children under a heading obey its single rule, if that rule allows any number of them. -/
theorem grammatical_under (found : Option Node) (hgrammatical : ∀ n ∈ found, n.grammatical = true)
    (htag : ∀ n ∈ found, n.tag ∈ [tag]) (hrules : tag.childRules = [⟨.many, tags⟩]) :
    ∀ c ∈ (found.map (·.children)).getD [], c.grammatical = true ∧ c.tag ∈ tags := by
  cases found with
  | none => simp
  | some n =>
    obtain ⟨id, payload, location, children⟩ := n
    have hpayload : payload.tag = tag := List.mem_singleton.mp (htag _ rfl)
    obtain ⟨hfits, hchildren⟩ := grammatical_node (hgrammatical _ rfl)
    rw [hpayload, hrules] at hfits
    obtain ⟨found, rest, hsplit, htags, hrest⟩ := fits_many hfits
    have hnil := fits_nil hrest
    subst hnil
    rw [List.append_nil] at hsplit
    subst hsplit
    intro c hc
    exact ⟨hchildren c hc, htags c hc⟩

/-- A leaf of a kind that holds a text. -/
theorem leaf_of_grammatical (make : String → Payload)
    (h : n.grammatical = true) (htag : n.tag = tag) (hleaf : tag.childRules = [])
    (hmake : ∀ payload : Payload, payload.tag = tag → ∃ text, payload = make text) :
    ∃ id location text, n = ⟨id, make text, location, []⟩ := by
  have hchildren := children_of_leaf h (by rw [htag, hleaf])
  obtain ⟨text, hpayload⟩ := hmake n.payload htag
  obtain ⟨id, payload, location, children⟩ := n
  exact ⟨id, location,
    text, by rw [show children = [] from hchildren, show payload = make text from hpayload]⟩

section shapes

variable (h : n.grammatical = true)

include h

theorem isName_of_grammatical (htag : n.tag = .identifier) : IsName n := by
  obtain ⟨id, location, name, rfl⟩ := leaf_of_grammatical .identifier h htag rfl
    fun | .identifier text, _ => ⟨text, rfl⟩
  exact .intro id location name

theorem isTarget_of_grammatical (htag : n.tag = .callReturningId) : IsTarget n := by
  obtain ⟨id, location, name, rfl⟩ := leaf_of_grammatical .callReturningId h htag rfl
    fun | .callReturningId text, _ => ⟨text, rfl⟩
  exact .intro id location name

theorem isCallId_of_grammatical (htag : n.tag = .callId) : IsCallId n := by
  have hpayload := payload_of_tag htag rfl
  obtain ⟨id, payload, location, children⟩ := n
  subst hpayload
  obtain ⟨hfits, hchildren⟩ := grammatical_node h
  obtain ⟨owner?, rest, rfl, howner, hfits⟩ := fits_optional hfits
  obtain ⟨program, rest, rfl, hprogram, hfits⟩ := fits_once hfits
  obtain rfl := fits_nil hfits
  obtain ⟨programId, programLocation, name, rfl⟩ := leaf_of_grammatical .callIdProgram
    (hchildren program (by simp)) (List.mem_singleton.mp hprogram) rfl
      fun | .callIdProgram text, _ => ⟨text, rfl⟩
  cases owner? with
  | none => exact .own id programId location programLocation name
  | some owner =>
    obtain ⟨ownerId, ownerLocation, ownerName, rfl⟩ := leaf_of_grammatical .callIdModule
      (hchildren owner (by simp)) (List.mem_singleton.mp (howner owner rfl)) rfl
        fun | .callIdModule text, _ => ⟨text, rfl⟩
    exact .qualified id ownerId programId location ownerLocation programLocation ownerName name

/-- Arguments have their shape. The induction also carries the arguments under the heading of a
call, which lie two levels below the call. -/
theorem isArgument_of_grammatical (htag : n.tag ∈ Tag.argumentTags) : IsArgument n := by
  suffices hboth : n.grammatical = true → (n.tag ∈ Tag.argumentTags → IsArgument n) ∧
      (n.tag = .callUsings → ∀ a ∈ n.children, IsArgument a) from (hboth h).1 htag
  clear h htag
  induction n using Node.induction_on with
  | node id payload location children ih =>
    intro h
    obtain ⟨hfits, hchildren⟩ := grammatical_node h
    constructor
    · intro htag
      have hleaf : payload.tag.childRules = [] → children = [] := children_of_leaf h
      cases payload <;>
        simp only [Node.tag, Payload.tag, Tag.argumentTags, List.mem_cons, List.not_mem_nil,
          or_false, reduceCtorEq, or_self] at htag
      case callUsingId name byContent => rw [hleaf rfl]; exact .field id location name byContent
      case numberLiteral text => rw [hleaf rfl]; exact .number id location text
      case stringLiteral text => rw [hleaf rfl]; exact .string id location text
      case callExpression =>
        obtain ⟨callee, rest, rfl, hcallee, hfits⟩ := fits_once hfits
        obtain ⟨found, rest, rfl, hfound, hfits⟩ := fits_optional hfits
        obtain rfl := fits_nil hfits
        rw [List.append_nil] at ih hchildren ⊢
        refine .call id location
          (isCallId_of_grammatical (hchildren callee (by simp)) (List.mem_singleton.mp hcallee))
          (under_of_optional hfound rfl) ?_
        cases found with
        | none => simp
        | some usings =>
          have husings := hchildren usings (by simp)
          exact (ih usings (by simp) husings).2 (List.mem_singleton.mp (hfound usings rfl))
    · -- under the heading of a call every child is an argument
      intro htag a ha
      rw [show payload.tag = .callUsings from htag] at hfits
      obtain ⟨found, rest, rfl, hfound, hfits⟩ := fits_many hfits
      obtain rfl := fits_nil hfits
      rw [List.append_nil] at ih hchildren ha
      have hmem : a ∈ found := by simpa using ha
      exact (ih a hmem (hchildren a hmem)).1 (hfound a hmem)

theorem isStatement_of_grammatical (htag : n.tag ∈ Tag.statementTags) : IsStatement n := by
  have hleaf := children_of_leaf h
  obtain ⟨id, payload, location, children⟩ := n
  obtain ⟨hfits, hchildren⟩ := grammatical_node h
  -- only three kinds of nodes are statements
  cases payload <;>
    simp only [Node.tag, Payload.tag, Tag.statementTags, List.mem_cons, List.not_mem_nil, or_false,
      reduceCtorEq, or_self] at htag
  case callStatement =>
    obtain ⟨callee, rest, rfl, hcallee, hfits⟩ := fits_once hfits
    obtain ⟨usings, rest, rfl, husings, hfits⟩ := fits_optional hfits
    obtain ⟨returnings, rest, rfl, hreturnings, hfits⟩ := fits_optional hfits
    obtain rfl := fits_nil hfits
    rw [List.append_nil] at hchildren ⊢
    have harguments := grammatical_under usings (fun u hu => hchildren u (by simp_all)) husings rfl
    have htargets :=
      grammatical_under returnings (fun r hr => hchildren r (by simp_all)) hreturnings rfl
    refine .call id location
      (isCallId_of_grammatical (hchildren callee (by simp)) (List.mem_singleton.mp hcallee))
      (under_of_optional husings rfl) ?_ (under_of_optional hreturnings rfl) ?_
    · intro a ha
      exact isArgument_of_grammatical (harguments a ha).1 (harguments a ha).2
    · intro target htarget
      exact isTarget_of_grammatical (htargets target htarget).1
        (List.mem_singleton.mp (htargets target htarget).2)
  case displayStatement =>
    obtain ⟨operands, rest, rfl, hoperands, hfits⟩ := fits_many hfits
    obtain rfl := fits_nil hfits
    rw [List.append_nil] at hchildren ⊢
    refine .display id location ?_
    intro a ha
    exact isArgument_of_grammatical (hchildren a ha) (hoperands a ha)
  case gobackStatement =>
    rw [show children = [] from hleaf rfl]
    exact .goback id location

theorem isField_of_grammatical (htag : n.tag = .field) : IsField n := by
  have hpayload := payload_of_tag htag rfl
  obtain ⟨id, payload, location, children⟩ := n
  subst hpayload
  obtain ⟨hfits, hchildren⟩ := grammatical_node h
  refine .intro id location ?_
  intro c hc
  have htag : c.tag ∈ [Tag.level, .identifier, .picture, .usage, .numberLiteral, .stringLiteral] :=
    tag_of_fits hfits hc
  refine ⟨children_of_leaf (hchildren c hc) ?_, htag⟩
  simp only [List.mem_cons, List.not_mem_nil, or_false] at htag
  rcases htag with htag | htag | htag | htag | htag | htag <;> rw [htag] <;> rfl

end shapes

theorem isData_of_grammatical {found : Option Node} (h : ∀ n ∈ found, n.grammatical = true)
    (htag : ∀ n ∈ found, n.tag ∈ [Tag.dataDivision]) :
    ∃ working linkage, IsData found.toList working linkage ∧ (∀ f ∈ working, IsField f) ∧
      ∀ f ∈ linkage, IsField f := by
  cases found with
  | none => exact ⟨[], [], .absent, by simp, by simp⟩
  | some n =>
    have hpayload := payload_of_tag (List.mem_singleton.mp (htag n rfl)) rfl
    have h := h n rfl
    obtain ⟨id, payload, location, children⟩ := n
    subst hpayload
    obtain ⟨hfits, hchildren⟩ := grammatical_node h
    obtain ⟨workings, rest, rfl, hworkings, hfits⟩ := fits_optional hfits
    obtain ⟨linkages, rest, rfl, hlinkages, hfits⟩ := fits_optional hfits
    obtain rfl := fits_nil hfits
    rw [List.append_nil] at hchildren ⊢
    have hworking :=
      grammatical_under workings (fun w hw => hchildren w (by simp_all)) hworkings rfl
    have hlinkage :=
      grammatical_under linkages (fun l hl => hchildren l (by simp_all)) hlinkages rfl
    refine ⟨_, _, .present id location (under_of_optional hworkings rfl)
      (under_of_optional hlinkages rfl), ?_, ?_⟩
    · intro f hf
      exact isField_of_grammatical (hworking f hf).1 (List.mem_singleton.mp (hworking f hf).2)
    · intro f hf
      exact isField_of_grammatical (hlinkage f hf).1 (List.mem_singleton.mp (hlinkage f hf).2)

theorem exists_programShape (h : n.grammatical = true) (htag : n.tag = .program) :
    ∃ p : ProgramShape, n = p.node := by
  have hpayload := payload_of_tag htag rfl
  obtain ⟨id, payload, location, children⟩ := n
  subst hpayload
  obtain ⟨hfits, hchildren⟩ := grammatical_node h
  obtain ⟨name, rest, rfl, hname, hfits⟩ := fits_once hfits
  obtain ⟨exports, rest, rfl, hexports, hfits⟩ := fits_optional hfits
  obtain ⟨data, rest, rfl, hdata, hfits⟩ := fits_optional hfits
  obtain ⟨procedure, rest, rfl, hprocedure, hfits⟩ := fits_once hfits
  obtain ⟨ends, rest, rfl, hends, hfits⟩ := fits_optional hfits
  obtain rfl := fits_nil hfits
  rw [List.append_nil] at hchildren ⊢
  obtain ⟨working, linkage, hisData, hworking, hlinkage⟩ :=
    isData_of_grammatical (fun d hd => hchildren d (by simp_all)) hdata
  -- the procedure division
  have hpayload := payload_of_tag (List.mem_singleton.mp hprocedure) rfl
  have hprocedure := hchildren procedure (by simp)
  obtain ⟨procedureId, payload, procedureLocation, children⟩ := procedure
  subst hpayload
  obtain ⟨hfits, hparts⟩ := grammatical_node hprocedure
  obtain ⟨usings, rest, rfl, husings, hfits⟩ := fits_optional hfits
  obtain ⟨returnings, rest, rfl, hreturnings, hfits⟩ := fits_optional hfits
  obtain ⟨statements, rest, rfl, hstatements, hfits⟩ := fits_many hfits
  obtain rfl := fits_nil hfits
  rw [List.append_nil] at hparts ⊢
  have husingNames := grammatical_under usings (fun u hu => hparts u (by simp_all)) husings rfl
  have hreturningNames :=
    grammatical_under returnings (fun r hr => hparts r (by simp_all)) hreturnings rfl
  -- the export mark and the end marker are leaves
  have hexport : Under .exportMark exports.toList [] := by
    have hunder := under_of_optional hexports rfl
    cases exports with
    | none => exact .absent
    | some mark =>
      have hmark := children_of_leaf (hchildren mark (by simp))
        (by rw [List.mem_singleton.mp (hexports mark rfl)]; rfl)
      rw [Option.map_some, Option.getD_some, hmark] at hunder
      exact hunder
  have hend : ∃ marker, Under (.endProgram marker) ends.toList [] := by
    cases ends with
    | none => exact ⟨"", .absent⟩
    | some mark =>
      obtain ⟨markId, markLocation, marker, rfl⟩ := leaf_of_grammatical .endProgram
        (hchildren mark (by simp)) (List.mem_singleton.mp (hends mark rfl)) rfl
          fun | .endProgram text, _ => ⟨text, rfl⟩
      exact ⟨marker, .present markId markLocation []⟩
  let frame : ProgramFrame :=
    { id, location, name, exports := exports.toList, data := data.toList, working, linkage
      procedureId, procedureLocation
      usingsNodes := usings.toList, returningsNodes := returnings.toList
      usings := _, returnings := _
      isName := isName_of_grammatical (hchildren name (by simp)) (List.mem_singleton.mp hname)
      isExport := hexport, isData := hisData, isWorking := hworking, isLinkage := hlinkage
      isUsings := under_of_optional husings rfl
      areUsings := fun u hu =>
        isName_of_grammatical (husingNames u hu).1 (List.mem_singleton.mp (husingNames u hu).2)
      isReturnings := under_of_optional hreturnings rfl
      areReturnings := fun r hr =>
        isName_of_grammatical (hreturningNames r hr).1
          (List.mem_singleton.mp (hreturningNames r hr).2) }
  refine ⟨⟨frame, statements, ends.toList, ?_, hend⟩, rfl⟩
  intro s hs
  exact isStatement_of_grammatical (hparts s (by simp [hs])) (hstatements s hs)

/-- A grammatical tree with a module at its root is a module with programs. -/
theorem exists_moduleShape (h : n.grammatical = true) (htag : n.tag = .module) :
    ∃ m : ModuleShape, n = m.node := by
  have hpayload := payload_of_tag htag rfl
  obtain ⟨id, payload, location, children⟩ := n
  subst hpayload
  obtain ⟨hfits, hchildren⟩ := grammatical_node h
  obtain ⟨name, rest, rfl, hname, hfits⟩ := fits_once hfits
  obtain ⟨programs, rest, rfl, hprograms, hfits⟩ := fits_many hfits
  obtain rfl := fits_nil hfits
  rw [List.append_nil] at hchildren ⊢
  have hshapes : programs ∈ Set.range (List.map ProgramShape.node) := by
    rw [Set.range_list_map]
    intro p hp
    obtain ⟨shape, hshape⟩ :=
      exists_programShape (hchildren p (by simp [hp])) (List.mem_singleton.mp (hprograms p hp))
    exact ⟨shape, hshape.symm⟩
  obtain ⟨shapes, rfl⟩ := hshapes
  exact ⟨⟨id, location, name,
    isName_of_grammatical (hchildren name (by simp)) (List.mem_singleton.mp hname), shapes⟩, rfl⟩

end CobolCompiler
