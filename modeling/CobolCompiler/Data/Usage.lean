/-!
# Usages

The usage of a field says how its value is stored, and serves as its type. A parameter of usage ANY
takes every argument, any other parameter takes arguments of its own usage; a number literal takes
the shape of whichever numeric parameter receives it.
-/

namespace CobolCompiler

/-- How a field is stored. -/
inductive Usage
  /-- A double-precision floating-point number. -/
  | comp2
  /-- A fixed-point decimal of at most 18 digits. -/
  | comp4
  /-- A character string. -/
  | display
  /-- A value of any usage; for parameters only. -/
  | any
  deriving DecidableEq, Repr, Inhabited

namespace Usage

/-- Every usage. -/
def all : List Usage :=
  [.comp2, .comp4, .display, .any]

/-- The name of a usage in source text. -/
def tag : Usage → String
  | .comp2 => "COMP-2"
  | .comp4 => "COMP-4"
  | .display => "DISPLAY"
  | .any => "ANY"

/-- The usage of a name. -/
def ofTag? (tag : String) : Option Usage :=
  all.find? (·.tag = tag)

/-- Whether a parameter of usage `param` takes a value of usage `found`. -/
def accepts (param found : Usage) : Bool :=
  param = .any || param = found

theorem accepts_iff {param found : Usage} :
    param.accepts found = true ↔ param = .any ∨ param = found := by
  simp [accepts]

@[simp] theorem ofTag?_tag (u : Usage) : ofTag? u.tag = some u := by
  cases u <;> decide

end Usage

/-- The type of a call argument. -/
inductive ArgumentType
  | usage (u : Usage)
  /-- A number literal. -/
  | numericLiteral
  deriving DecidableEq, Repr, Inhabited

namespace ArgumentType

/-- Whether an argument can be passed to a parameter. -/
def fits : ArgumentType → Usage → Bool
  | .usage found, param => param.accepts found
  | .numericLiteral, param => param ≠ .display

/-- The name of an argument type in messages. -/
def text : ArgumentType → String
  | .usage u => u.tag
  | .numericLiteral => "numeric literal"

end ArgumentType

/-- A section of the data division. -/
inductive Section
  | workingStorage
  | linkage
  deriving DecidableEq, Repr, Inhabited

/-- The name of a section. -/
def Section.text : Section → String
  | .workingStorage => "WORKING-STORAGE"
  | .linkage => "LINKAGE"

end CobolCompiler
