import CobolCompiler.Picture.Layout

/-!
# Options
-/

namespace CobolCompiler

/-- How a session compiles. -/
structure Options where
  /-- Whether source text is in free format; told to the parser. -/
  freeFormat : Bool := false
  /-- The directory with the system's declaration files, if they are to be read. -/
  system? : Option String := none
  /-- What becomes of excess fraction digits in defaults. -/
  policy : FractionPolicy := .truncate
  deriving DecidableEq, Repr, Inhabited

end CobolCompiler
