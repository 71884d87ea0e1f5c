/-!
# Files

A small store of files under one working directory. A path is a text with slashes between its parts;
a part `.` stays where it is, a part `..` goes up, and a slash at the end asks for a directory.
Directories are there as long as a file below them is. Reading and writing follow a path part by
part, so that a missing part, and a file where a directory is needed, are told apart. Paths and
names have a greatest length.

A place is known by the parts that lead to it from the working directory; places outside of it begin
with `..`.

Walking through a directory is a parameter of a store: it finds what it finds, or it fails. The walk
`inNameOrder` finds the files themselves.
-/

namespace CobolCompiler

/-- Why a path cannot be read or written. -/
inductive FileError
  | notFound
  | notADirectory
  | isADirectory
  /-- A path or a name in it is too long. -/
  | nameTooLong
  /-- A path has a character zero in it. -/
  | zeroByte
  deriving DecidableEq, Repr

/-- The wording of a file error. -/
def FileError.message : FileError → String
  | .notFound => "No such file or directory (os error 2)"
  | .notADirectory => "Not a directory (os error 20)"
  | .isADirectory => "Is a directory (os error 21)"
  | .nameTooLong => "File name too long (os error 36)"
  | .zeroByte => "file name contained an unexpected NUL byte"

/-- Files by the parts of their paths. -/
abbrev Files := List (List String × List UInt8)

/-- Why a walk through a directory cannot go on. -/
structure WalkError where
  message : String
  deriving DecidableEq, Repr

/-- What a walk through a directory finds: the parts that lead to it from the directory on, and
whether it is a file. -/
structure FileStore.Entry where
  parts : List String
  isFile : Bool
  deriving DecidableEq, Repr

/-- The entries below a directory of the files, in the order in which they are found. -/
abbrev Walk := Files → List String → Except WalkError (List FileStore.Entry)

/-- The walk that finds the files below a directory in the order of their names, part by part. What
lies above the directory is not below it. -/
def Walk.inNameOrder : Walk := fun files directory =>
  let below := files.filterMap fun (path, _) =>
    let rest := path.drop directory.length
    if directory.isPrefixOf path && rest.head? ≠ some ".." && rest ≠ [] then some rest else none
  .ok ((below.mergeSort fun a b => !decide (b < a)).map (⟨·, true⟩))

/-- Files, and how directories are walked through. -/
structure FileStore where
  files : Files
  walk : Walk

/-- What a path leads to. -/
inductive FileStore.Target
  | file (content : List UInt8)
  | directory
  | missing
  deriving Repr

namespace FileStore

/-- No files. -/
def empty : FileStore :=
  ⟨[], .inNameOrder⟩

/-- The content of a file. -/
def content? (store : FileStore) (parts : List String) : Option (List UInt8) :=
  store.files.lookup parts

/-- Whether a place is a directory: the working directory, one above it, or one that a file is below
of. -/
def isDirectory (store : FileStore) (parts : List String) : Bool :=
  parts.all (· = "..") || store.files.any fun (path, _) => parts.isPrefixOf path && parts.length <
    path.length

/-- What stands at a place. -/
def target (store : FileStore) (parts : List String) : Target :=
  match store.content? parts with
  | some content => .file content
  | none => if store.isDirectory parts then .directory else .missing

/-- The greatest number of bytes of a name. -/
def maxName : Nat := 255

/-- The greatest number of bytes of a path. -/
def maxPath : Nat := 4095

/-- Look up a place by its name in its directory. -/
def lookUp (store : FileStore) (place : List String) : Except FileError Target :=
  if place.getLast?.any (·.utf8ByteSize > maxName) then .error .nameTooLong
    else .ok (store.target place)

/-- The place of a part in a directory. -/
def enter (here : List String) (part : String) : List String :=
  if part = "" || part = "." then here
  else if part = ".." && here.any (· ≠ "..") then here.dropLast
  else here ++ [part]

/-- Follow the parts of a path from a directory. The last part may lead to anything, the parts
before it to directories only. -/
def follow (store : FileStore) (here : List String) : List String → Except FileError (List String)
  | [] => .ok here
  | part :: rest =>
    let next := enter here part
    if rest.all (·.isEmpty) then .ok next
    else match store.lookUp next with
      | .ok .directory => store.follow next rest
      | .ok (.file _) => .error .notADirectory
      | .ok .missing => .error .notFound
      | .error e => .error e

/-- What stands between the slashes of a text. -/
def betweenSlashes : List Char → List (List Char)
  | [] => [[]]
  | '/' :: rest => [] :: betweenSlashes rest
  | c :: rest => (betweenSlashes rest).modifyHead (c :: ·)

/-- The parts of a path. -/
def partsOf (path : String) : List String :=
  (betweenSlashes path.toList).map String.ofList

/-- The place a path leads to. -/
def resolve (store : FileStore) (path : String) : Except FileError (List String) :=
  if path.toList.contains '\x00' then .error .zeroByte
  else if path.isEmpty then .error .notFound
  else if path.utf8ByteSize > maxPath then .error .nameTooLong
  else store.follow [] (partsOf path)

/-- Whether a path asks for a directory. -/
def asksDirectory (path : String) : Bool :=
  path.endsWith "/"

/-- The content of the file a path leads to. -/
def read (store : FileStore) (path : String) : Except FileError (List UInt8) := do
  match ← store.lookUp (← store.resolve path) with
  | .file content => if asksDirectory path then throw .notADirectory else return content
  | .directory => throw .isADirectory
  | .missing => throw .notFound

/-- Put a file at a place, instead of one that may be there. -/
def put (store : FileStore) (place : List String) (content : List UInt8) : FileStore :=
  { store with files := (place, content) :: store.files.filter (·.1 ≠ place) }

/-- Write a file. Its directory must be there. -/
def write (store : FileStore) (path : String) (content : List UInt8) :
    Except FileError FileStore := do
  let place ← store.resolve path
  if asksDirectory path then
    throw .isADirectory
  match ← store.lookUp place with
  | .directory => throw .isADirectory
  | _ => return store.put place content

/-- Put a file, and the directories above it. -/
def place (store : FileStore) (path : String) (content : List UInt8) : FileStore :=
  store.put ((partsOf path).filter fun part => part ≠ "" && part ≠ ".") content

/-- A path with one more part. -/
def join (path part : String) : String :=
  if path.isEmpty || path.endsWith "/" then path ++ part else s!"{path}/{part}"

/-- The paths of the files below a directory whose names end in a given way, in the order of the
walk; none if there is no such directory. -/
def search (store : FileStore) (directory ending : String) : Except WalkError (List String) :=
  match store.resolve directory with
  | .error _ => .ok []
  | .ok place =>
    if store.isDirectory place then do
      let entries ← store.walk store.files place
      let found := entries.filter fun e => e.isFile && e.parts.getLast?.any (·.endsWith ending)
      return found.map fun e => e.parts.foldl join directory
    else .ok []

end FileStore

end CobolCompiler
