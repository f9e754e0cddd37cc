import Synopsis.Cli.Arguments
import Synopsis.Package
import Synopsis.Parsers

/-! A run of the program: from arguments, environment and files to what is printed and
written. -/
namespace Synopsis.Cli

/-- Why a run fails. -/
inductive RunError where
  | unsupportedMode (mode : String)
  | pathNotFound (path : String)
  | config (e : ConfigError)
  | package (e : PackageError)
  | cannotCreate (path : String)
  | cannotWrite (path : String)
  deriving DecidableEq, Repr

def RunError.message : RunError → String
  | unsupportedMode mode => "unsupported mode '" ++ mode ++ "' (only 'sig' is available)"
  | pathNotFound path => "path not found: " ++ path
  | config e => e.message
  | package e => e.messages.headD ""
  | cannotCreate path => "failed to create " ++ path
  | cannotWrite path => "failed to write " ++ path

/-- The totals that are reported at the end. -/
structure Summary where
  files : Nat
  signatures : Nat
  tokens : Option Nat
  errors : Nat
  deriving DecidableEq, Repr

/-- The totals in one line; errors are mentioned if there are any. -/
def Summary.line (s : Summary) (showTokens : Nat → String) : String :=
  "Files: " ++ toString s.files ++ ", Signatures: " ++ toString s.signatures ++
    (match s.tokens with
      | some n => ", Tokens: " ++ showTokens n
      | none => "") ++
    (if s.errors = 0 then "" else ", Errors: " ++ toString s.errors)

def Summary.ofPackage (p : Package) : Summary :=
  ⟨p.totalFiles, p.totalSignatures, p.tokens, p.errors⟩

/-- What a run prints and which files there are afterwards. -/
structure Report where
  stdout : String := ""
  summary : Option Summary := none
  /-- The file that was written, if any. -/
  written : Option String := none
  files : FileTree

/-- The directory whose configuration holds for a path. -/
def configRoot (t : FileTree) (path : String) : String :=
  if t.isFile path then (Path.parent? path).getD "." else path

/-- The settings of a run: those of the path, adjusted and checked again. -/
def settings (t : FileTree) (env : Config.Environment) (i : Invocation) (path : String) :
    Except ConfigError Config := do
  let c := i.adjust (← Config.load t (configRoot t path) env)
  match c.validate with
  | .ok _ => return c
  | .error e => .error (.rejected e)

/-- Writes the document to a file, with the directories it needs. -/
def writeOutput (t : FileTree) (path content : String) : Except RunError FileTree := do
  let t ← match Path.parent? path with
    | some parent => (t.makeDirectories parent).mapError fun _ => .cannotCreate parent
    | none => .ok t
  (t.write path (Utf8.encode content)).mapError fun _ => .cannotWrite path

/-- What the program takes from libraries: parsers, and the encoding that it counts tokens in. -/
structure Libraries where
  parsers : Parsers
  encoding? : Option (String → Nat) := none

/-- A run over some libraries. -/
def Invocation.runWith (lib : Libraries) (i : Invocation) (env : Config.Environment)
    (t : FileTree) : Except RunError Report := do
  let registry := lib.parsers.registry
  if i.languages then
    return { stdout := String.join (registry.languages.map (· ++ "\n")), files := t }
  let mode := i.mode.getD "sig"
  let path := i.path.getD "."
  if mode ≠ "sig" then throw (.unsupportedMode mode)
  if !t.exists_ path then throw (.pathNotFound path)
  let c ← (settings t env i path).mapError .config
  let p ← (t.package registry c path lib.encoding?).mapError .package
  let summary := some (Summary.ofPackage p)
  match c.output.path with
  | some out => return { summary, written := some out, files := ← writeOutput t out p.content }
  | none => return { stdout := p.content, summary, files := t }

end Synopsis.Cli
