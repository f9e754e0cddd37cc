import Synopsis.FileTree
import Synopsis.Glob

/-! Ignore files: their lines as rules, and the verdict of the rules of several files. The notation
is that of `.gitignore` files, as it is documented. -/
namespace Synopsis.Ignore

/-- One line of an ignore file. -/
structure Rule where
  glob : Glob
  /-- The rule takes back what earlier rules ignore. -/
  allows : Bool := false
  /-- The rule concerns directories only. -/
  onlyDirectories : Bool := false
  deriving Inhabited

inductive Verdict where
  | ignore | allow
  deriving DecidableEq, Repr

/-- Drops the last character if it is the given one. -/
def dropLastIf (c : Char) (cs : List Char) : List Char :=
  if cs.getLast? == some c then cs.dropLast else cs

/-- The pattern of a line whose marks have been taken off. Without a slash it matches at any
depth, and a final `**` needs something below. -/
def pattern (anchored : Bool) (body : List Char) : String :=
  let placed := if anchored || body.contains '/' || body == ['*', '*'] then body
    else ['*', '*', '/'] ++ body
  String.ofList (if ['/', '*', '*'].isSuffixOf placed then placed ++ ['/', '*'] else placed)

/-- Reads one line. Blank lines, comments and malformed patterns give no rule. -/
def Rule.ofLine? (line : List Char) : Option Rule :=
  if line.head? == some '#' then none
  else
    let line := if ['\\', ' '].isSuffixOf line then line else Text.trimEnd line
    if line.isEmpty then none
    else
      let escaped := ['\\', '!'].isPrefixOf line || ['\\', '#'].isPrefixOf line
      let allows := line.head? == some '!'
      let body := if escaped || allows then line.drop 1 else line
      let anchored := !escaped && body.head? == some '/'
      let body := if anchored then body.drop 1 else body
      let onlyDirectories := body.getLast? == some '/'
      let body := if onlyDirectories then dropLastIf '\\' body.dropLast else body
      match Glob.ofIgnorePattern (pattern anchored body) with
      | .ok glob => some { glob, allows, onlyDirectories }
      | .error _ => none

/-- The lines of an ignore file, up to the first that is not UTF-8. -/
def readableLines (bytes : List UInt8) : List (List Char) :=
  Text.linesAux (((Text.splitWhere (· == some '\n') (Utf8.decode bytes)).takeWhile
    (·.all Option.isSome)).map (·.filterMap id))

/-- The rules of an ignore file. A byte order mark before the first line is dropped. -/
def rulesOf (bytes : List UInt8) : List Rule :=
  match readableLines bytes with
  | [] => []
  | first :: rest => (first.dropWhile (· == '\uFEFF') :: rest).filterMap Rule.ofLine?

/-- The last rule that applies to a path decides. -/
def verdict? (rules : List Rule) (path : String) (isDirectory : Bool) : Option Verdict :=
  (rules.reverse.find? fun r => (isDirectory || !r.onlyDirectories) && r.glob.accepts path).map
    fun r => if r.allows then .allow else .ignore

/-- The path of a location as seen from a directory above it. -/
def pathFrom (directory : Location) (l : Location) : String :=
  Text.join "/" (l.drop directory.length)

/-- The directories above a location, the closest first and the current directory last. -/
def directoriesAbove (l : Location) : List Location :=
  ((List.range l.length).map (l.take ·)).reverse

/-- Where rules come from. -/
structure Sources where
  /-- Names of files with rules for their own directory, besides the usual ones. -/
  names : List String := []
  /-- Rules for paths from the current directory. -/
  extra : List Rule := []

/-- The rules that files of the given names in a directory hold together. -/
def rulesIn (t : FileTree) (directory : Location) (files : List Location) : List Rule :=
  files.flatMap fun f => ((t.bytes? (directory ++ f)).map rulesOf).getD []

/-- The closest directory whose files have a verdict decides. -/
def closest? (t : FileTree) (files : List Location) (l : Location) (isDirectory : Bool) :
    Option Verdict :=
  (directoriesAbove l).findSome? fun d =>
    verdict? (rulesIn t d files) (pathFrom d l) isDirectory

/-- Files with rules for their directory, the strongest kind first. -/
def Sources.kinds (s : Sources) : List (List Location) :=
  [s.names.map fun n => [n], [[".ignore"]], [[".gitignore"]], [[".git", "info", "exclude"]]]

/-- The verdict on a location: a stronger kind of file wins over a weaker one, and among files
of one kind the closest. `path` is how the location is reached from the current directory. -/
def Sources.verdict? (s : Sources) (t : FileTree) (l : Location) (path : String)
    (isDirectory : Bool) : Option Verdict :=
  (s.kinds.findSome? fun files => closest? t files l isDirectory).or
    (Ignore.verdict? s.extra path isDirectory)

end Synopsis.Ignore
