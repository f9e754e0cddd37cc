import Synopsis.Config
import Synopsis.Ignore
import Synopsis.Language

/-! The source files below a root, as the settings select them. -/
namespace Synopsis

/-- A source file that was selected. -/
structure SourceFile where
  location : Location
  /-- The path from the root. -/
  path : String
  language : String
  size : Nat
  deriving DecidableEq, Repr, Inhabited

structure ScanResult where
  /-- In the order of their paths. -/
  files : List SourceFile := []
  totalSize : Nat := 0
  /-- How many files were seen but not kept. -/
  skipped : Nat := 0
  deriving DecidableEq, Repr, Inhabited

/-- Which list of patterns a setting belongs to. -/
inductive PatternList where
  | included | excluded
  deriving DecidableEq, Repr

/-- Why nothing was scanned. -/
inductive ScanError where
  | noRoot (root : String) (cause : IoError)
  | badPattern (list : PatternList) (pattern : String) (cause : GlobError)
  deriving DecidableEq, Repr

/-- The message of an error and those of its causes. -/
def ScanError.messages : ScanError → List String
  | noRoot root cause => ["path not found: " ++ root, cause.message]
  | badPattern list pattern cause =>
    [match list with
      | .included => "invalid --include glob"
      | .excluded => "invalid --exclude glob",
     "bad pattern: " ++ pattern,
     "error parsing glob '" ++ pattern ++ "': " ++ cause.message]

/-- The patterns of a scan, read. -/
structure PathFilter where
  included : List Glob := []
  excluded : List Glob := []

namespace PathFilter

/-- Reads the patterns of a list, up to the first that is malformed. -/
def readAll (list : PatternList) : List String → Except ScanError (List Glob)
  | [] => .ok []
  | p :: ps =>
    match Glob.ofPattern p with
    | .error e => .error (.badPattern list p e)
    | .ok g => (readAll list ps).map (g :: ·)

def ofSettings (s : ScanSettings) : Except ScanError PathFilter := do
  let included ← readAll .included s.included
  let excluded ← readAll .excluded s.excluded
  return { included, excluded }

def allows (f : PathFilter) (path : String) : Bool :=
  (f.included.isEmpty || f.included.any (·.accepts path)) && !f.excluded.any (·.accepts path)

end PathFilter

/-- Names that start with a dot are hidden, except for the two that stand for directories. -/
def isHidden (name : String) : Bool :=
  name.toList.head? == some '.' && name != "." && name != ".."

/-- The language of a file that the settings keep: it is not hidden unless hidden files are
wanted, its extension is known, the patterns allow its path, and it is not too large. -/
def keptLanguage? (s : ScanSettings) (filter : PathFilter) (name path : String) (size : Nat) :
    Option String := do
  guard (s.includeHidden || !isHidden name)
  let language ← Language.ofPath? name
  guard (filter.allows path)
  guard (size ≤ s.maxFileSize)
  return language

/-- The ignore file of the settings: it is read once if it is found, and otherwise a bare name
is looked for in every directory. -/
def ignoreSources (t : FileTree) (root : String) (s : ScanSettings) : Ignore.Sources :=
  let usual := [".briefignore"]
  let name := s.ignoreFile
  let once (path : String) : Ignore.Sources :=
    match t.read path with
    | .ok bytes => ⟨usual, Ignore.rulesOf bytes⟩
    | .error _ => ⟨usual, []⟩
  if name.isEmpty || name == ".gitignore" || name == ".briefignore" then ⟨usual, []⟩
  else if (Path.components name).length == 1 && !Path.isAbsolute name then
    if t.isFile (Path.join root name) then once (Path.join root name)
    else if t.isFile name then once name
    else ⟨usual ++ [name], []⟩
  else once name

/-- Whether the walk from the root enters a directory or sees a file. -/
def isAdmitted (t : FileTree) (s : ScanSettings) (sources : Ignore.Sources) (root : String)
    (base : Location) (names : Location) (isDirectory : Bool) : Bool :=
  let name := names.getLast?.getD ""
  let path := Path.withoutDot (Path.join root (Text.join "/" names))
  name != ".git" &&
    match sources.verdict? t (base ++ names) path isDirectory with
    | some .ignore => false
    | some .allow => true
    | none => s.includeHidden || !isHidden name

/-- The walk reaches a file if it enters every directory on the way. `names` leads from the
root to the file. -/
def isReached (t : FileTree) (s : ScanSettings) (sources : Ignore.Sources) (root : String)
    (base : Location) (names : Location) : Bool :=
  (List.range names.length).all fun i =>
    isAdmitted t s sources root base (names.take (i + 1)) (i + 1 < names.length)

/-- The files below a location, each with the names that lead to it and its size. -/
def FileTree.filesBelow (t : FileTree) (base : Location) : List (Location × Nat) :=
  t.entries.filterMap fun (l, e) =>
    match e with
    | .file bytes => if base.isPrefixOf l then some (l.drop base.length, bytes.length) else none
    | .directory => none

/-- Sorts the seen files into those kept and those skipped. -/
def selectFiles (s : ScanSettings) (filter : PathFilter) (base : Location)
    (seen : List (Location × Nat)) : ScanResult :=
  let kept := seen.filterMap fun (names, size) =>
    let path := Text.join "/" names
    (keptLanguage? s filter (names.getLast?.getD "") path size).map fun language =>
      { location := base ++ names, path, language, size : SourceFile }
  { files := kept.mergeSort fun a b => Text.le a.path b.path
    totalSize := (kept.map (·.size)).foldr (· + ·) 0
    skipped := seen.length - kept.length }

/-- Scans a root: a directory, or a single file, to which no ignore rules apply. -/
def FileTree.scan (t : FileTree) (root : String) (s : ScanSettings) :
    Except ScanError ScanResult :=
  match t.find root with
  | .error e => .error (.noRoot root e)
  | .ok (base, entry) => do
    let filter ← PathFilter.ofSettings s
    match entry with
    | .file bytes =>
      return selectFiles s filter base.dropLast [(base.drop (base.length - 1), bytes.length)]
    | .directory =>
      let sources := ignoreSources t root s
      return selectFiles s filter base
        ((t.filesBelow base).filter fun x => isReached t s sources root base x.1)

end Synopsis
