import CobolCompiler.Data.Usage
import Std.Data.TreeMap

/-!
# Symbols

What a name can stand for: a built-in usage, a module, a chunk (the part of a module that one source
file contributes), a program or a field. Modules, chunks, programs and fields are known by number,
in the order in which they were declared. A table maps names to symbols; defining a name again
replaces what it stood for.
-/

namespace CobolCompiler

/-- The number of a module. -/
structure ModuleId where
  index : Nat
  deriving DecidableEq, Repr, Inhabited

/-- The number of a chunk. -/
structure ChunkId where
  index : Nat
  deriving DecidableEq, Repr, Inhabited

/-- The number of a program. -/
structure ProgramId where
  index : Nat
  deriving DecidableEq, Repr, Inhabited

instance : Ord ProgramId := ⟨compareOn ProgramId.index⟩

instance : Std.TransOrd ProgramId :=
  inferInstanceAs (Std.TransCmp (compareOn ProgramId.index))

instance : Std.LawfulEqOrd ProgramId where
  eq_of_compare {a b} h := by
    cases a
    cases b
    exact congrArg ProgramId.mk (Std.LawfulEqOrd.compare_eq_iff_eq.mp h)

/-- The number of a field. -/
structure FieldId where
  index : Nat
  deriving DecidableEq, Repr, Inhabited

instance : Ord FieldId := ⟨compareOn FieldId.index⟩

instance : Std.TransOrd FieldId :=
  inferInstanceAs (Std.TransCmp (compareOn FieldId.index))

instance : Std.LawfulEqOrd FieldId where
  eq_of_compare {a b} h := by
    cases a
    cases b
    exact congrArg FieldId.mk (Std.LawfulEqOrd.compare_eq_iff_eq.mp h)

/-- What a name stands for. -/
inductive Symbol
  | usage (usage : Usage)
  | module (id : ModuleId)
  | chunk (id : ChunkId)
  | program (id : ProgramId)
  /-- A field, with the section it was declared in. -/
  | field (id : FieldId) (home : Section)
  deriving DecidableEq, Repr, Inhabited

/-- A place where names are looked up. -/
inductive ScopeId
  | global
  | module (id : ModuleId)
  | chunk (id : ChunkId)
  | program (id : ProgramId)
  deriving DecidableEq, Repr, Inhabited

/-- A table of names. -/
structure Table where
  entries : Std.TreeMap String Symbol

namespace Table

instance : Inhabited Table := ⟨⟨∅⟩⟩

/-- A table without names. -/
def empty : Table :=
  ⟨∅⟩

/-- What a name stands for. -/
def get? (t : Table) (name : String) : Option Symbol :=
  t.entries[name]?

/-- Give a name a meaning, instead of one it may have had. -/
def define (t : Table) (name : String) (symbol : Symbol) : Table :=
  ⟨t.entries.insert name symbol⟩

/-- The number of names. -/
def size (t : Table) : Nat :=
  t.entries.size

@[simp] theorem get?_empty (name : String) : empty.get? name = none := by
  simp [empty, get?]

theorem get?_define (t : Table) (name other : String) (symbol : Symbol) :
    (t.define name symbol).get? other = if name = other then some symbol else t.get? other := by
  simp [get?, define, Std.TreeMap.getElem?_insert]

@[simp] theorem get?_define_self (t : Table) (name : String) (symbol : Symbol) :
    (t.define name symbol).get? name = some symbol := by
  simp [get?_define]

end Table

end CobolCompiler
