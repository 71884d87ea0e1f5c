import CobolCompiler.Data.Usage

/-!
# Problems

What can be wrong with a source file. Each problem carries what its message needs, and has a code
that stays the same over time; some have a hint for the user.
-/

namespace CobolCompiler

/-- A mistake in a source file. -/
inductive Problem
  | parse (message : String)
  | redefinition (name : String)
  | undefined (name : String)
  | badLevel (level : Nat)
  | badSignPicture (name : String)
  | manyVirtualDecimalPoint (name : String)
  | badDefaultValue (name reason : String)
  | incompatibleComp4Picture (name : String)
  | pictureNotAllowed (name : String) (usage : Usage)
  | notInLinkageSection (name : String)
  | exceedComp4Precision (name : String) (digits : Nat)
  | mutableArgumentRedefinition (name : String)
  | expressionReturnsNothing (program : String)
  | usingWithDefaultValue (name : String)
  | usingCountMismatch (program : String) (expected found : Nat)
  | returningCountMismatch (program : String) (expected found : Nat)
  | argumentTypeMismatch (position : Nat) (expected : Usage) (found : ArgumentType)
  | returningTypeMismatch (position : Nat) (expected found : Usage)
  | endMarkerMismatch (expected found : String)
  | anyOutsideLinkage (name : String)
  | exceedLiteralPrecision (literal : String)
  | badNumericLiteral (literal : String)
  | unexpectedArgument (argument : String)
  deriving DecidableEq, Repr

namespace Problem

/-- The wording of a problem. -/
def message : Problem → String
  | .parse message => message
  | .redefinition name => s!"'{name}' is already defined"
  | .undefined name => s!"'{name}' is not defined"
  | .badLevel level => s!"level number {level} is outside 1..=77"
  | .badSignPicture name => s!"sign 'S' of '{name}' must be the first picture character"
  | .manyVirtualDecimalPoint name => s!"picture of '{name}' has more than one 'V'"
  | .badDefaultValue name reason => s!"bad default value for '{name}': {reason}"
  | .incompatibleComp4Picture name => s!"picture of '{name}' is not compatible with COMP-4"
  | .pictureNotAllowed name usage => s!"{usage.tag} field '{name}' cannot have a picture"
  | .notInLinkageSection name => s!"'{name}' must be declared in the linkage section"
  | .exceedComp4Precision name digits =>
    s!"picture of '{name}' has {digits} digits, COMP-4 allows at most 18"
  | .mutableArgumentRedefinition name => s!"'{name}' is passed more than once as a mutable argument"
  | .expressionReturnsNothing program =>
    s!"'{program}' has no returning value to use as an expression"
  | .usingWithDefaultValue name => s!"parameter '{name}' cannot have a default value"
  | .usingCountMismatch program expected found =>
    s!"'{program}' expects {expected} using argument(s), found {found}"
  | .returningCountMismatch program expected found =>
    s!"'{program}' returns {expected} value(s), {found} requested"
  | .argumentTypeMismatch position expected found =>
    s!"argument {position} type mismatch: expected {expected.tag}, found {found.text}"
  | .returningTypeMismatch position expected found =>
    s!"returning {position} type mismatch: expected {expected.tag}, found {found.tag}"
  | .endMarkerMismatch expected found =>
    s!"END PROGRAM '{found}' does not match program '{expected}'"
  | .anyOutsideLinkage name => s!"ANY field '{name}' is only allowed in the linkage section"
  | .exceedLiteralPrecision literal => s!"literal {literal} exceeds 18 digits of precision"
  | .badNumericLiteral literal => s!"'{literal}' is not a valid number"
  | .unexpectedArgument argument => s!"{argument} is not a valid call argument"

/-- The code of a problem. -/
def code : Problem → String
  | .parse .. => "CBL0001"
  | .redefinition .. => "CBL0002"
  | .undefined .. => "CBL0003"
  | .badLevel .. => "CBL0004"
  | .badSignPicture .. => "CBL0005"
  | .manyVirtualDecimalPoint .. => "CBL0006"
  | .badDefaultValue .. => "CBL0007"
  | .incompatibleComp4Picture .. => "CBL0008"
  | .pictureNotAllowed .. => "CBL0009"
  | .notInLinkageSection .. => "CBL0010"
  | .exceedComp4Precision .. => "CBL0011"
  | .mutableArgumentRedefinition .. => "CBL0012"
  | .expressionReturnsNothing .. => "CBL0013"
  | .usingWithDefaultValue .. => "CBL0014"
  | .usingCountMismatch .. => "CBL0015"
  | .returningCountMismatch .. => "CBL0016"
  | .argumentTypeMismatch .. => "CBL0017"
  | .returningTypeMismatch .. => "CBL0018"
  | .endMarkerMismatch .. => "CBL0019"
  | .anyOutsideLinkage .. => "CBL0020"
  | .exceedLiteralPrecision .. => "CBL0021"
  | .badNumericLiteral .. => "CBL0022"
  | .unexpectedArgument .. => "CBL0023"

/-- A hint on how to mend a problem. -/
def help? : Problem → Option String
  | .badLevel .. => some "Use a level number between 01 and 77"
  | .exceedComp4Precision .. => some "Use COMP-2 for values that need more than 18 digits"
  | .notInLinkageSection .. => some "Procedure parameters are declared in the LINKAGE SECTION"
  | .mutableArgumentRedefinition .. => some "Pass one of the arguments BY CONTENT"
  | .returningCountMismatch .. =>
    some "A call may request fewer returning values than declared, never more"
  | _ => none

/-- What a second location has to do with a problem. -/
def relatedMessage : Problem → String
  | .redefinition .. => "previously defined here"
  | .mutableArgumentRedefinition .. => "first passed here"
  | .argumentTypeMismatch .. | .returningTypeMismatch .. => "parameter declared here"
  | _ => "related location"

end Problem

end CobolCompiler
