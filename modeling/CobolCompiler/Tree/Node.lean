import CobolCompiler.Data.Usage
import CobolCompiler.Picture.Basic
import CobolCompiler.Source.Location

/-!
# Syntax trees

A source file is given as a tree of nodes. A node has a payload, which says what kind of construct
it is and holds the text of leaves, a location, and children in source order. It also has an
identity: what is learned about a node is recorded under its identity and stays attached to it while
the tree around it is rearranged.

The children that each kind of node has in a well-formed tree are given with the constructors of
`Payload`; no function here relies on them.
-/

namespace CobolCompiler

/-- The kinds of nodes. -/
inductive Tag
  | module
  | program
  | exportMark
  | identifier
  | dataDivision
  | workingStorageSection
  | linkageSection
  | field
  | level
  | picture
  | usage
  | numberLiteral
  | stringLiteral
  | procedureDivision
  | procedureUsings
  | procedureReturnings
  | callStatement
  | callExpression
  | callId
  | callIdModule
  | callIdProgram
  | callUsings
  | callUsingId
  | callReturnings
  | callReturningId
  | displayStatement
  | gobackStatement
  | endProgram
  deriving DecidableEq, Repr, Inhabited

namespace Tag

/-- Every kind of node. -/
def all : List Tag :=
  [.module, .program, .exportMark, .identifier, .dataDivision, .workingStorageSection,
    .linkageSection, .field, .level, .picture, .usage, .numberLiteral, .stringLiteral,
    .procedureDivision, .procedureUsings, .procedureReturnings, .callStatement, .callExpression,
    .callId, .callIdModule, .callIdProgram, .callUsings, .callUsingId, .callReturnings,
    .callReturningId, .displayStatement, .gobackStatement, .endProgram]

/-- The name of a kind of node in messages. -/
def name : Tag → String
  | .module => "Module"
  | .program => "Program"
  | .exportMark => "Export"
  | .identifier => "Identifier"
  | .dataDivision => "DataDivision"
  | .workingStorageSection => "WorkingStorageSection"
  | .linkageSection => "LinkageSection"
  | .field => "Field"
  | .level => "Level"
  | .picture => "Picture"
  | .usage => "Usage"
  | .numberLiteral => "NumberLiteral"
  | .stringLiteral => "StringLiteral"
  | .procedureDivision => "ProcedureDivision"
  | .procedureUsings => "ProcedureUsings"
  | .procedureReturnings => "ProcedureReturnings"
  | .callStatement => "CallStatement"
  | .callExpression => "CallExpression"
  | .callId => "CallId"
  | .callIdModule => "CallIdModule"
  | .callIdProgram => "CallIdProgram"
  | .callUsings => "CallUsings"
  | .callUsingId => "CallUsingId"
  | .callReturnings => "CallReturnings"
  | .callReturningId => "CallReturningId"
  | .displayStatement => "DisplayStatement"
  | .gobackStatement => "GobackStatement"
  | .endProgram => "EndProgram"

/-- The kind of node of a name. -/
def ofName? (name : String) : Option Tag :=
  all.find? (·.name = name)

end Tag

/-- What a node is. The comments give the children of each construct, with `?` for an optional child
and `*` for any number of them. -/
inductive Payload
  /-- `identifier`, `program`*. -/
  | module
  /-- `identifier`, `exportMark`?, `dataDivision`?, `procedureDivision`, `endProgram`?. -/
  | program
  | exportMark
  | identifier (name : String)
  /-- `workingStorageSection`?, `linkageSection`?. -/
  | dataDivision
  /-- `field`*. -/
  | workingStorageSection
  /-- `field`*. -/
  | linkageSection
  /-- `level`, `identifier`, `picture`?, `usage`?, and a literal?. -/
  | field
  | level (number : Nat)
  | picture (picture : Picture)
  | usage (usage : Usage)
  /-- A number as it is written, such as `-12.50`. -/
  | numberLiteral (text : String)
  | stringLiteral (text : String)
  /-- `procedureUsings`?, `procedureReturnings`?, statements*. -/
  | procedureDivision
  /-- `identifier`*. -/
  | procedureUsings
  /-- `identifier`*. -/
  | procedureReturnings
  /-- `callId`, `callUsings`?, `callReturnings`?. -/
  | callStatement
  /-- `callId`, `callUsings`?. -/
  | callExpression
  /-- `callIdModule`?, `callIdProgram`. -/
  | callId
  | callIdModule (name : String)
  | callIdProgram (name : String)
  /-- `callUsingId`, literals and `callExpression`s. -/
  | callUsings
  /-- A field passed to a call, by reference or by content. -/
  | callUsingId (name : String) (byContent : Bool)
  /-- `callReturningId`*. -/
  | callReturnings
  | callReturningId (name : String)
  /-- Operands, of the same kinds as call arguments. -/
  | displayStatement
  | gobackStatement
  | endProgram (name : String)
  deriving DecidableEq, Repr, Inhabited

namespace Payload

/-- The kind of node a payload belongs to. -/
def tag : Payload → Tag
  | .module => .module
  | .program => .program
  | .exportMark => .exportMark
  | .identifier _ => .identifier
  | .dataDivision => .dataDivision
  | .workingStorageSection => .workingStorageSection
  | .linkageSection => .linkageSection
  | .field => .field
  | .level _ => .level
  | .picture _ => .picture
  | .usage _ => .usage
  | .numberLiteral _ => .numberLiteral
  | .stringLiteral _ => .stringLiteral
  | .procedureDivision => .procedureDivision
  | .procedureUsings => .procedureUsings
  | .procedureReturnings => .procedureReturnings
  | .callStatement => .callStatement
  | .callExpression => .callExpression
  | .callId => .callId
  | .callIdModule _ => .callIdModule
  | .callIdProgram _ => .callIdProgram
  | .callUsings => .callUsings
  | .callUsingId _ _ => .callUsingId
  | .callReturnings => .callReturnings
  | .callReturningId _ => .callReturningId
  | .displayStatement => .displayStatement
  | .gobackStatement => .gobackStatement
  | .endProgram _ => .endProgram

/-- The text of a leaf that holds one. -/
def text? : Payload → Option String
  | .identifier s | .numberLiteral s | .stringLiteral s | .callIdModule s | .callIdProgram s
  | .callUsingId s _ | .callReturningId s | .endProgram s => some s
  | _ => none

end Payload

/-- A node of a syntax tree. -/
structure Node where
  /-- Its identity. -/
  id : Nat
  payload : Payload
  location : Location
  children : List Node
  deriving Repr, Inhabited

namespace Node

/-- The kind of a node. -/
def tag (n : Node) : Tag :=
  n.payload.tag

/-- Whether a node is of a kind. -/
def is (n : Node) (tag : Tag) : Bool :=
  n.tag = tag

/-- The children of a kind. -/
def childrenOf (n : Node) (tag : Tag) : List Node :=
  n.children.filter (·.is tag)

/-- The first child of a kind. -/
def child? (n : Node) (tag : Tag) : Option Node :=
  n.children.find? (·.is tag)

mutual

/-- The first node of a kind below this one, parents before their children. -/
def first? (tag : Tag) : Node → Option Node
  | ⟨_, _, _, children⟩ => firstIn? tag children

/-- The first node of a kind among some nodes and what is below them. -/
def firstIn? (tag : Tag) : List Node → Option Node
  | [] => none
  | n :: rest =>
    if n.is tag then some n
    else match n.first? tag with
      | some found => some found
      | none => firstIn? tag rest

end

/-- The name that the first `identifier` child gives. -/
def name? (n : Node) : Option String :=
  n.children.findSome? fun c => match c.payload with
    | .identifier name => some name
    | _ => none

/-- The name of a node, empty if it has none. -/
def name (n : Node) : String :=
  n.name?.getD ""

/-- The place of the name, or of the node itself if it has none. -/
def nameLocation (n : Node) : Location :=
  ((n.child? .identifier).map (·.location)).getD n.location

/-- The arguments of a call, in the order of the tree. -/
def arguments (call : Node) : List Node :=
  (call.childrenOf .callUsings).flatMap (·.children)

/-- The fields that a call's results go to. -/
def returnings (call : Node) : List Node :=
  (call.childrenOf .callReturnings).flatMap (·.children)

/-- The same node elsewhere. -/
def located (n : Node) (location : Location) : Node :=
  { n with location }

mutual

/-- Give every node of a tree an identity of its own, counting up from a number, parents before
their children. The result has the first number that was not used. -/
def renumber (next : Nat) : Node → Node × Nat
  | ⟨_, payload, location, children⟩ =>
    let (children, after) := renumberAll (next + 1) [] children
    (⟨next, payload, location, children⟩, after)

/-- Give every node of several trees an identity of its own, after those already done, which are
given last first. -/
def renumberAll (next : Nat) (done : List Node) : List Node → List Node × Nat
  | [] => (done.reverse, next)
  | n :: rest =>
    let (n, after) := renumber next n
    renumberAll after (n :: done) rest

end

end Node

end CobolCompiler
