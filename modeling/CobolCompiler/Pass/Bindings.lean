import CobolCompiler.Scope.Globals
import CobolCompiler.Tree.Node

/-!
# Bindings

What has been learned about the nodes of a tree, by their identities: the program that a declaration
declares, the field that a declaration or a reference stands for, the program that a call calls, and
for an argument its type and the usage of the parameter that takes it.
-/

namespace CobolCompiler

/-- What is known about nodes. -/
structure Bindings where
  programs : Std.TreeMap Nat ProgramId
  fields : Std.TreeMap Nat FieldId
  callees : Std.TreeMap Nat ProgramId
  types : Std.TreeMap Nat ArgumentType
  params : Std.TreeMap Nat Usage

namespace Bindings

/-- Nothing is known. -/
def empty : Bindings :=
  ⟨∅, ∅, ∅, ∅, ∅⟩

instance : Inhabited Bindings := ⟨empty⟩

/-- The program a node declares. -/
def program? (b : Bindings) (n : Node) : Option ProgramId :=
  b.programs[n.id]?

/-- The field a node declares or refers to. -/
def field? (b : Bindings) (n : Node) : Option FieldId :=
  b.fields[n.id]?

/-- The program a call calls. -/
def callee? (b : Bindings) (n : Node) : Option ProgramId :=
  b.callees[n.id]?

/-- The type of an argument. -/
def type? (b : Bindings) (n : Node) : Option ArgumentType :=
  b.types[n.id]?

/-- The usage of the parameter that takes an argument. -/
def param? (b : Bindings) (n : Node) : Option Usage :=
  b.params[n.id]?

/-- Record the program a node declares. -/
def bindProgram (b : Bindings) (n : Node) (id : ProgramId) : Bindings :=
  { b with programs := b.programs.insert n.id id }

/-- Record the field a node declares or refers to. -/
def bindField (b : Bindings) (n : Node) (id : FieldId) : Bindings :=
  { b with fields := b.fields.insert n.id id }

/-- Record the program a call calls. -/
def bindCallee (b : Bindings) (n : Node) (id : ProgramId) : Bindings :=
  { b with callees := b.callees.insert n.id id }

/-- Record the type of an argument. -/
def setType (b : Bindings) (n : Node) (type : ArgumentType) : Bindings :=
  { b with types := b.types.insert n.id type }

/-- Record the usage of the parameter that takes an argument. -/
def setParam (b : Bindings) (n : Node) (usage : Usage) : Bindings :=
  { b with params := b.params.insert n.id usage }

/-! ### What a record changes -/

theorem field?_bindField (b : Bindings) (n m : Node) (id : FieldId) :
    (b.bindField n id).field? m = if n.id = m.id then some id else b.field? m := by
  simp [bindField, field?, Std.TreeMap.getElem?_insert]

theorem callee?_bindCallee (b : Bindings) (n m : Node) (id : ProgramId) :
    (b.bindCallee n id).callee? m = if n.id = m.id then some id else b.callee? m := by
  simp [bindCallee, callee?, Std.TreeMap.getElem?_insert]

theorem type?_setType (b : Bindings) (n m : Node) (type : ArgumentType) :
    (b.setType n type).type? m = if n.id = m.id then some type else b.type? m := by
  simp [setType, type?, Std.TreeMap.getElem?_insert]

theorem param?_setParam (b : Bindings) (n m : Node) (usage : Usage) :
    (b.setParam n usage).param? m = if n.id = m.id then some usage else b.param? m := by
  simp [setParam, param?, Std.TreeMap.getElem?_insert]

/-! ### Descriptions -/

/-- The name of a program with its module and its file. -/
def qualifiedName (g : Globals) (id : ProgramId) : String :=
  let program := g.program id
  let chunk := g.chunk program.owner
  let owner := g.module chunk.owner
  s!"{owner.name}/{chunk.name}/{program.name}"

/-- The text of a leaf, or the name of its usage. -/
def leafText? : Payload → Option String
  | .usage u => some u.tag
  | payload => payload.text?

/-- All that is known about a node, in words; nothing if nothing is known. -/
def describe? (b : Bindings) (g : Globals) (n : Node) : Option String :=
  let fieldText (id : FieldId) : String :=
    let field := g.field id
    s!"field={field.name}/{field.home.text}"
  let parts := [
    (b.program? n).map fun id => s!"program={(g.program id).name}",
    (b.field? n).map fieldText,
    (b.callee? n).map fun id => s!"callee={qualifiedName g id}",
    (b.type? n).map fun type => s!"type={type.text}",
    (b.param? n).map fun usage => s!"param={usage.tag}"].filterMap id
  if parts.isEmpty then none
  else
    let leaf := ((leafText? n.payload).map fun text => s!" {text}").getD ""
    some (s!"{n.tag.name}{leaf}: " ++ " ".intercalate parts)

end Bindings

end CobolCompiler
