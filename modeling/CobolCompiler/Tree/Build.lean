import CobolCompiler.Picture.Reader
import CobolCompiler.Tree.Node

/-!
# Building trees

Constructors for trees that are not read from a file. What they build stands nowhere and has no
identity of its own yet; a tree is numbered when it enters a compilation.
-/

namespace CobolCompiler.Build

open Number

/-- A node with children. -/
def node (payload : Payload) (children : List Node) : Node :=
  ⟨0, payload, Location.none, children⟩

/-- A node without children. -/
def leaf (payload : Payload) : Node :=
  node payload []

/-- A list of children under one node, which is left out if there are none. -/
def optional (payload : Payload) (children : List Node) : List Node :=
  if children.isEmpty then [] else [node payload children]

/-- A name. -/
def identifier (name : String) : Node :=
  leaf (.identifier name)

/-- A module with its programs. -/
def module (name : String) (programs : List Node) : Node :=
  node .module (identifier name :: programs)

/-- A program; its parts are the export mark, the divisions and the end marker. -/
def program (name : String) (parts : List Node) : Node :=
  node .program (identifier name :: parts)

/-- A field; its clauses are picture, usage and value. -/
def field (level : Nat) (name : String) (clauses : List Node) : Node :=
  node .field (leaf (.level level) :: identifier name :: clauses)

/-- A picture clause from its written form. -/
def picture (text : String) : Except ValueError Node := do
  return leaf (.picture (← Picture.parse text))

/-- A procedure division with its parameters, its results and its statements. -/
def procedure (usings returnings : List String) (statements : List Node) : Node :=
  node .procedureDivision
    (optional .procedureUsings (usings.map identifier)
      ++ optional .procedureReturnings (returnings.map identifier) ++ statements)

/-- The name of a called program, with the module it is in. -/
def callId (program : String) (module? : Option String) : Node :=
  node .callId
    ((module?.map fun m => leaf (.callIdModule m)).toList ++ [leaf (.callIdProgram program)])

/-- A call statement. -/
def call (program : String) (module? : Option String) (usings : List Node)
    (returnings : List String) : Node :=
  node .callStatement
    (callId program module? :: optional .callUsings usings
      ++ optional .callReturnings (returnings.map fun r => leaf (.callReturningId r)))

/-- A call used as an argument. -/
def callExpression (program : String) (module? : Option String) (usings : List Node) : Node :=
  node .callExpression (callId program module? :: optional .callUsings usings)

end CobolCompiler.Build
