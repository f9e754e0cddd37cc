import Synopsis.Path
import Synopsis.Text.Utf8

/-! Files and directories below the current directory, as a value. Names are texts, every file can
be read, and nothing is a link. -/
namespace Synopsis

/-- Where a file or directory is: the names that lead to it from the current directory. -/
abbrev Location := List String

inductive Entry where
  | file (bytes : List UInt8)
  | directory
  deriving DecidableEq, Repr, Inhabited

/-- Why a path could not be followed, read or written. -/
inductive IoError where
  | notFound | notDirectory | isDirectory
  deriving DecidableEq, Repr

def IoError.message : IoError → String
  | notFound => "No such file or directory (os error 2)"
  | notDirectory => "Not a directory (os error 20)"
  | isDirectory => "Is a directory (os error 21)"

/-- What is stored at which location. The directories that lead to an entry exist too. -/
structure FileTree where
  entries : List (Location × Entry)
  deriving DecidableEq, Repr, Inhabited

namespace FileTree

def empty : FileTree := ⟨[]⟩

/-- Stores an entry instead of what its location held. -/
def put (t : FileTree) (l : Location) (e : Entry) : FileTree :=
  ⟨t.entries.filter (fun x => x.1 != l) ++ [(l, e)]⟩

/-- What is at a location. -/
def get? (t : FileTree) (l : Location) : Option Entry :=
  match t.entries.lookup l with
  | some e => some e
  | none =>
    if l.isEmpty || t.entries.any (fun x => l.isPrefixOf x.1) then some .directory else none

def bytes? (t : FileTree) (l : Location) : Option (List UInt8) :=
  match t.get? l with
  | some (.file bs) => some bs
  | _ => none

/-- One step along a path. Nothing above the current directory is known. -/
def step (t : FileTree) (l : Location) (part : List Char) : Except IoError Location :=
  match t.get? l with
  | none => .error .notFound
  | some (.file _) => .error .notDirectory
  | some .directory =>
    if part.isEmpty || part == ['.'] then .ok l
    else if part == ['.', '.'] then if l.isEmpty then .error .notFound else .ok l.dropLast
    else .ok (l ++ [String.ofList part])

/-- Follows a path up to its last name, which need not exist. -/
def follow (t : FileTree) (path : String) : Except IoError Location :=
  if path.isEmpty || Path.isAbsolute path then .error .notFound
  else (Path.parts path).foldlM t.step []

/-- Follows a path to something that exists. -/
def find (t : FileTree) (path : String) : Except IoError (Location × Entry) := do
  let l ← t.follow path
  match t.get? l with
  | some e => .ok (l, e)
  | none => .error .notFound

def exists_ (t : FileTree) (path : String) : Bool := (t.find path).toOption.isSome

def isFile (t : FileTree) (path : String) : Bool :=
  match t.find path with
  | .ok (_, .file _) => true
  | _ => false

/-- The bytes of the file a path leads to. -/
def read (t : FileTree) (path : String) : Except IoError (List UInt8) :=
  match t.find path with
  | .ok (_, .file bs) => .ok bs
  | .ok (_, .directory) => .error .isDirectory
  | .error e => .error e

/-- Makes the missing directories along a path. -/
def makeDirectories (t : FileTree) (path : String) : Except IoError FileTree :=
  if path.isEmpty then .ok t
  else if Path.isAbsolute path then .error .notFound
  else do
    let (t, _) ← (Path.parts path).foldlM (fun (t, l) part => do
      let l ← t.step l part
      match t.get? l with
      | some .directory => .ok (t, l)
      | some (.file _) => .error .notDirectory
      | none => .ok (t.put l .directory, l)) (t, [])
    .ok t

/-- Writes a file, new or not, into a directory that exists. -/
def write (t : FileTree) (path : String) (bytes : List UInt8) : Except IoError FileTree := do
  let l ← t.follow path
  match t.get? l with
  | some .directory => .error .isDirectory
  | _ => .ok (t.put l (.file bytes))

end FileTree

end Synopsis
