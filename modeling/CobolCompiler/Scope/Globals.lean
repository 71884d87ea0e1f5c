import CobolCompiler.Picture.Layout
import CobolCompiler.Scope.Symbol
import CobolCompiler.Source.Location

/-!
# Scopes

Scopes nest: programs lie in a chunk, chunks in a module, and all modules in the global scope. The
global scope holds every symbol, and refers to each by its number. It starts with the four built-in
usages.

* A module's table has its chunks and the programs that any of them exports.
* A chunk's table has the programs declared in its file.
* A program has two tables, one for each section; working storage comes first when a name is looked
  up.

A name is looked up in one scope (`Globals.member?`) or in a scope and then those around it
(`Globals.resolve?`). Defining a name never fails; whether it may be defined again is for the caller
to decide.
-/

namespace CobolCompiler

/-- A value that a field is declared with. -/
inductive DefaultValue
  | number (text : String)
  | string (text : String)
  deriving DecidableEq, Repr, Inhabited

/-- A data item of a program. -/
structure Field where
  name : String
  home : Section
  level : Nat
  usage : Usage
  /-- Its picture, merged. -/
  picture? : Option Picture
  /-- Its type, once its usage has been looked up. -/
  type? : Option Usage
  location : Location
  default? : Option DefaultValue
  /-- How a COMP-4 field is stored. -/
  comp4? : Option Comp4
  deriving DecidableEq, Repr

namespace Field

instance : Inhabited Field :=
  ⟨"", .workingStorage, 1, .display, none, none, Location.none, none, none⟩

/-- The type of a field: the one that was looked up, or else its usage. -/
def type (f : Field) : Usage :=
  f.type?.getD f.usage

end Field

/-- A module. -/
structure ModuleScope where
  name : String
  /-- Its chunks, in the order of their declaration. -/
  chunks : Array ChunkId
  table : Table
  deriving Inhabited

/-- The part of a module that one source file contributes. -/
structure ChunkScope where
  /-- The name of the source file. -/
  name : String
  owner : ModuleId
  /-- Its programs, in the order of their declaration. -/
  programs : Array ProgramId
  table : Table
  deriving Inhabited

/-- A program. -/
structure ProgramScope where
  name : String
  owner : ChunkId
  exported : Bool
  location : Location
  /-- The fields of both sections, in the order of their declaration. -/
  fields : Array FieldId
  /-- The parameters of the procedure. -/
  usings : Array FieldId
  /-- The results of the procedure. -/
  returnings : Array FieldId
  working : Table
  linkage : Table
  deriving Inhabited

namespace ProgramScope

/-- A program without fields. -/
def declare (name : String) (owner : ChunkId) (exported : Bool) (location : Location) :
    ProgramScope :=
  ⟨name, owner, exported, location, #[], #[], #[], Table.empty, Table.empty⟩

/-- The table of a section. -/
def tableOf (p : ProgramScope) : Section → Table
  | .workingStorage => p.working
  | .linkage => p.linkage

/-- Define a name. Linkage fields go to their own table, and all else to working storage. -/
def define (p : ProgramScope) (name : String) (symbol : Symbol) : ProgramScope :=
  match symbol with
  | .field _ .linkage => { p with linkage := p.linkage.define name symbol }
  | _ => { p with working := p.working.define name symbol }

/-- What a name stands for in a program; working storage hides linkage. -/
def member? (p : ProgramScope) (name : String) : Option Symbol :=
  p.working.get? name <|> p.linkage.get? name

/-- The field of a name. -/
def field? (p : ProgramScope) (name : String) : Option FieldId :=
  match p.member? name with
  | some (.field id _) => some id
  | _ => none

end ProgramScope

/-- The global scope, which holds all symbols. -/
structure Globals where
  table : Table
  modules : Array ModuleScope
  chunks : Array ChunkScope
  programs : Array ProgramScope
  fields : Array Field
  deriving Inhabited

namespace Globals

/-- The built-in usages and nothing else. -/
def initial : Globals :=
  { table := Usage.all.foldl (fun t u => t.define u.tag (.usage u)) Table.empty
    modules := #[], chunks := #[], programs := #[], fields := #[] }

/-! ### Looking up by number -/

/-- A module by its number. -/
def module (g : Globals) (id : ModuleId) : ModuleScope :=
  g.modules.getD id.index default

/-- A chunk by its number. -/
def chunk (g : Globals) (id : ChunkId) : ChunkScope :=
  g.chunks.getD id.index default

/-- A program by its number. -/
def program (g : Globals) (id : ProgramId) : ProgramScope :=
  g.programs.getD id.index default

/-- A field by its number. -/
def field (g : Globals) (id : FieldId) : Field :=
  g.fields.getD id.index default

/-! ### Declaring -/

/-- Change a module. -/
def modifyModule (g : Globals) (id : ModuleId) (f : ModuleScope → ModuleScope) : Globals :=
  { g with modules := g.modules.modify id.index f }

/-- Change a chunk. -/
def modifyChunk (g : Globals) (id : ChunkId) (f : ChunkScope → ChunkScope) : Globals :=
  { g with chunks := g.chunks.modify id.index f }

/-- Change a program. -/
def modifyProgram (g : Globals) (id : ProgramId) (f : ProgramScope → ProgramScope) : Globals :=
  { g with programs := g.programs.modify id.index f }

/-- Change a field. -/
def modifyField (g : Globals) (id : FieldId) (f : Field → Field) : Globals :=
  { g with fields := g.fields.modify id.index f }

/-- The module of a name, if the name stands for one. -/
def module? (g : Globals) (name : String) : Option ModuleId :=
  match g.table.get? name with
  | some (.module id) => some id
  | _ => none

/-- Define a name in the global scope. -/
def define (g : Globals) (name : String) (symbol : Symbol) : Globals :=
  { g with table := g.table.define name symbol }

/-- The module of a name, added on its first use. -/
def addModule (g : Globals) (name : String) : ModuleId × Globals :=
  match g.module? name with
  | some id => (id, g)
  | none =>
    let id := ⟨g.modules.size⟩
    (id, { g with modules := g.modules.push ⟨name, #[], Table.empty⟩
                  table := g.table.define name (.module id) })

/-- A new chunk of a module. -/
def addChunk (g : Globals) (owner : ModuleId) (name : String) : ChunkId × Globals :=
  let id := ⟨g.chunks.size⟩
  let g := { g with chunks := g.chunks.push ⟨name, owner, #[], Table.empty⟩ }
  (id, g.modifyModule owner fun m =>
    { m with chunks := m.chunks.push id, table := m.table.define name (.chunk id) })

/-- A new program. Its chunk knows it, and so does its module if it is exported. -/
def addProgram (g : Globals) (p : ProgramScope) : ProgramId × Globals :=
  let id := ⟨g.programs.size⟩
  let owner := (g.chunk p.owner).owner
  let g := g.modifyChunk p.owner fun c =>
    { c with programs := c.programs.push id, table := c.table.define p.name (.program id) }
  let g := if p.exported then
      g.modifyModule owner fun m => { m with table := m.table.define p.name (.program id) }
    else g
  (id, { g with programs := g.programs.push p })

/-- A new field of a program. -/
def addField (g : Globals) (owner : ProgramId) (field : Field) : FieldId × Globals :=
  let id := ⟨g.fields.size⟩
  let g := g.modifyProgram owner fun p =>
    let p := p.define field.name (.field id field.home)
    { p with fields := p.fields.push id }
  (id, { g with fields := g.fields.push field })

/-- Define a name in the global scope or in a program. -/
def defineIn (g : Globals) (scope : ScopeId) (name : String) (symbol : Symbol) : Globals :=
  match scope with
  | .global => g.define name symbol
  | .module id => g.modifyModule id fun m => { m with table := m.table.define name symbol }
  | .chunk id => g.modifyChunk id fun c => { c with table := c.table.define name symbol }
  | .program id => g.modifyProgram id (·.define name symbol)

/-! ### Looking up by name -/

/-- What a name stands for in one scope. -/
def member? (g : Globals) (scope : ScopeId) (name : String) : Option Symbol :=
  match scope with
  | .global => g.table.get? name
  | .module id => (g.module id).table.get? name
  | .chunk id => (g.chunk id).table.get? name
  | .program id => (g.program id).member? name

/-- The scope around a scope. -/
def enclosing? (g : Globals) : ScopeId → Option ScopeId
  | .global => none
  | .module _ => some .global
  | .chunk id => some (.module (g.chunk id).owner)
  | .program id => some (.chunk (g.program id).owner)

/-- A scope and those around it, innermost first. -/
def chain (g : Globals) : ScopeId → List ScopeId
  | .global => [.global]
  | .module id => [.module id, .global]
  | .chunk id => [.chunk id, .module (g.chunk id).owner, .global]
  | .program id =>
    let owner := (g.program id).owner
    [.program id, .chunk owner, .module (g.chunk owner).owner, .global]

/-- What a name stands for in a scope, or else in the nearest scope around it that knows the
name. -/
def resolve? (g : Globals) (scope : ScopeId) (name : String) : Option Symbol :=
  (g.chain scope).findSome? (g.member? · name)

/-- A program that a module exports. -/
def moduleProgram? (g : Globals) (id : ModuleId) (name : String) : Option ProgramId :=
  match (g.module id).table.get? name with
  | some (.program p) => some p
  | _ => none

/-- A program of a chunk. -/
def chunkProgram? (g : Globals) (id : ChunkId) (name : String) : Option ProgramId :=
  match (g.chunk id).table.get? name with
  | some (.program p) => some p
  | _ => none

/-- The chain of a scope is the scope and the chain of the one around it. -/
theorem chain_eq (g : Globals) (scope : ScopeId) :
    g.chain scope = scope :: ((g.enclosing? scope).map g.chain).getD [] := by
  cases scope <;> rfl

end Globals

end CobolCompiler
