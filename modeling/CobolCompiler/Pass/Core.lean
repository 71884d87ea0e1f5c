import CobolCompiler.Pass.Declaration
import CobolCompiler.Pass.Generation

/-!
# The core passes

The passes that every session has, with what they ask of the order. `static-typing` does nothing
itself; it marks the point at which all calls are known to be right.
-/

namespace CobolCompiler.Pass

/-- The pass that enters all declarations into the scopes. -/
def defineDeclare : String := "define-declare"

/-- The pass that checks the names after END PROGRAM and drops them. -/
def endMarker : String := "end-marker"

/-- The pass that gives every declared field its usage type. -/
def resolveDeclare : String := "resolve-declare"

/-- The pass that writes DISPLAY as a call. -/
def displayStatement : String := "display-statement"

/-- The pass that finds the program that each call names. -/
def resolveProcedureSymbol : String := "resolve-procedure-symbol"

/-- The pass that gives every argument its type. -/
def resolveExpressionType : String := "resolve-expression-type"

/-- The pass that compares the arguments of each call with the linkage fields of the called
program. -/
def checkProcedureType : String := "check-procedure-type"

/-- The pass that marks the point after which all calls are right. -/
def staticTyping : String := "static-typing"

/-- The pass that puts the arguments of each call in the order of the stack. -/
def reverseCallUsings : String := "reverse-call-usings"

/-- The pass that writes the code of all programs. -/
def bytecodeGeneration : String := "bytecode-generation"

/-- The core passes, in the order of their registration. -/
def core : List Pass :=
  [⟨⟨defineDeclare, [], []⟩, true, Declaration.define⟩,
   ⟨⟨endMarker, [defineDeclare], [resolveDeclare]⟩, true, Declaration.endMarkers⟩,
   ⟨⟨resolveDeclare, [defineDeclare], []⟩, true, Declaration.usageTypes⟩,
   ⟨⟨displayStatement, [resolveDeclare], [resolveProcedureSymbol]⟩, false, CallSite.lowerDisplay⟩,
   ⟨⟨resolveProcedureSymbol, [resolveDeclare], [staticTyping]⟩, false, CallSite.resolve⟩,
   ⟨⟨resolveExpressionType, [resolveProcedureSymbol], [checkProcedureType]⟩, false,
     CallSite.argumentTypes⟩,
   ⟨⟨checkProcedureType, [resolveExpressionType], [staticTyping]⟩, false, CallSite.check⟩,
   ⟨⟨staticTyping, [], []⟩, false, fun root => pure root⟩,
   ⟨⟨reverseCallUsings, [staticTyping], [bytecodeGeneration]⟩, false, Generation.reverseArguments⟩,
   ⟨⟨bytecodeGeneration, [staticTyping], []⟩, false, Generation.generate⟩]

end CobolCompiler.Pass
