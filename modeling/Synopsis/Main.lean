import Synopsis.Cli

/-! The command-line program. It sees the files below the current directory. -/
namespace Synopsis.Cli

/-- Reads all that is below a directory. -/
partial def readDirectory (directory : IO.FS.DirEntry) (location : Location) (t : FileTree) :
    IO FileTree := do
  let mut t := t
  for entry in ← directory.path.readDir do
    let inner := location ++ [entry.fileName]
    if ← entry.path.isDir then
      t ← readDirectory entry inner (t.put inner .directory)
    else
      t := t.put inner (.file (← IO.FS.readBinFile entry.path).toList)
  return t

def environmentNames : List String :=
  ["BRIEF_FORMAT", "BRIEF_MAX_FILE_SIZE", "BRIEF_INCLUDE_BODY", "BRIEF_INCLUDE_PRIVATE",
   "BRIEF_INCLUDE_IMPORTS"]

def readEnvironment : IO Config.Environment := do
  let mut env := []
  for name in environmentNames do
    if let some value ← IO.getEnv name then env := env ++ [(name, value)]
  return env

/-- Carries out the effects of a run. -/
def finish (r : Report) : IO Unit := do
  if let some path := r.written then
    if let some parent := Path.parent? path then
      if !parent.isEmpty then IO.FS.createDirAll parent
    if let .ok bytes := r.files.read path then
      IO.FS.writeBinFile path ⟨bytes.toArray⟩
  IO.print r.stdout
  if let some s := r.summary then IO.eprintln (s.line toString)

end Synopsis.Cli

open Synopsis.Cli in
def main (args : List String) : IO UInt32 := do
  match Invocation.parse args with
  | .error .usage => IO.eprintln "error: invalid arguments, see --help"; return 2
  | .error .help => IO.print helpText; return 0
  | .error .version => IO.print versionText; return 0
  | .ok i =>
    match i.run (← readEnvironment) (← readDirectory ⟨".", "."⟩ [] .empty) with
    | .error e => IO.eprintln ("Error: " ++ e.message); return 1
    | .ok r => finish r; return 0
