import Synopsis.Config.Load

/-! The command line: its flags and options, and reading them. -/
namespace Synopsis.Cli

/-- What the command line asks for. -/
structure Invocation where
  path : Option String := none
  mode : Option String := none
  format : Option String := none
  output : Option String := none
  ignoreFile : Option String := none
  includeHidden : Bool := false
  includeBody : Bool := false
  includePrivate : Bool := false
  includeImports : Bool := false
  noTree : Bool := false
  noTokens : Bool := false
  maxSize : Option Nat := none
  included : List String := []
  excluded : List String := []
  goVisibility : Option GoVisibility := none
  languages : Bool := false
  deriving DecidableEq, Repr, Inhabited

/-- Why nothing is to be done: the command line is wrong, or only information is wanted. -/
inductive Stop where
  | usage | help | version
  deriving DecidableEq, Repr

/-- What an option does with the invocation so far. -/
inductive Action where
  /-- A switch, with whether it is on already. -/
  | switch (isOn : Invocation → Bool) (turnOn : Invocation → Invocation)
  /-- An option with a value; `none` if it is given twice or the value is wrong. -/
  | option (valueName : String) (set : Invocation → String → Option Invocation)
  | stop (s : Stop)

structure Flag where
  short : Option Char := none
  long : String
  about : String
  action : Action

/-- Sets what may be given once. -/
def once (get : Invocation → Option α) (set : Invocation → α → Invocation)
    (read : String → Option α) (i : Invocation) (value : String) : Option Invocation :=
  if (get i).isSome then none else (read value).map (set i)

def nonEmpty (s : String) : Option String := if s.isEmpty then none else some s

/-- All flags, in the order in which help lists them. -/
def flags : List Flag :=
  [{ short := some 'm', long := "mode"
     about := "Extraction mode (only \"sig\" is supported) [default: sig]"
     action := .option "MODE" (once (·.mode) (fun i v => { i with mode := some v }) some) },
   { short := some 'f', long := "format", about := "Output format: xml, md, markdown, json"
     action := .option "FORMAT" (once (·.format) (fun i v => { i with format := some v }) some) },
   { short := some 'o', long := "output", about := "Write output to FILE instead of stdout"
     action := .option "FILE"
      (once (·.output) (fun i v => { i with output := some v }) nonEmpty) },
   { short := some 'i', long := "ignore", about := "Additional ignore file (default: .gitignore)"
     action := .option "FILE"
      (once (·.ignoreFile) (fun i v => { i with ignoreFile := some v }) some) },
   { long := "include-hidden", about := "Include hidden files and directories"
     action := .switch (·.includeHidden) fun i => { i with includeHidden := true } },
   { long := "include-body", about := "Keep function and class bodies"
     action := .switch (·.includeBody) fun i => { i with includeBody := true } },
   { long := "include-private", about := "Keep non-exported declarations"
     action := .switch (·.includePrivate) fun i => { i with includePrivate := true } },
   { long := "include-imports", about := "Extract import and export statements"
     action := .switch (·.includeImports) fun i => { i with includeImports := true } },
   { long := "no-tree", about := "Omit the directory tree"
     action := .switch (·.noTree) fun i => { i with noTree := true } },
   { long := "no-tokens", about := "Skip the token estimate"
     action := .switch (·.noTokens) fun i => { i with noTokens := true } },
   { long := "max-size", about := "Skip files larger than BYTES"
     action := .option "BYTES"
      (once (·.maxSize) (fun i v => { i with maxSize := some v }) Config.sizeOfText?) },
   { long := "include", about := "Glob patterns to include files (repeatable)"
     action := .option "GLOB" fun i v => some { i with included := i.included ++ [v] } },
   { long := "exclude", about := "Glob patterns to exclude files (repeatable)"
     action := .option "GLOB" fun i v => some { i with excluded := i.excluded ++ [v] } },
   { long := "go-visibility", about := "Go export rule: capitalized, package-level"
     action := .option "GO_VISIBILITY"
      (once (·.goVisibility) (fun i v => { i with goVisibility := some v })
        GoVisibility.ofWord?) },
   { long := "languages", about := "List supported languages and exit"
     action := .switch (·.languages) fun i => { i with languages := true } },
   { short := some 'h', long := "help", about := "Print help", action := .stop .help },
   { short := some 'V', long := "version", about := "Print version", action := .stop .version }]

def versionText : String := "brief 0.4.0\n"

def Flag.usage (f : Flag) : String :=
  (match f.short with
    | some c => "-" ++ String.singleton c ++ ", --"
    | none => "    --") ++ f.long ++
  match f.action with
  | .option name _ => " <" ++ name ++ ">"
  | _ => ""

def helpText : String :=
  let width := (flags.map (·.usage.length)).foldl max 0
  "Extract function and type signatures from a codebase for LLM context\n\n" ++
  "Usage: brief [OPTIONS] [PATH]\n\nArguments:\n" ++
  "  [PATH]  Directory or file to package [default: .]\n\nOptions:\n" ++
  String.join (flags.map fun f =>
    "  " ++ f.usage.pushn ' ' (width - f.usage.length) ++ "  " ++ f.about ++ "\n")

/-- The only positional argument. It may be given once and must not be empty. -/
def setPath (i : Invocation) (value : String) : Except Stop Invocation :=
  if i.path.isSome || value.isEmpty then .error .usage else .ok { i with path := some value }

/-- Applies a flag with the value attached to it, if any, and the arguments that follow.
A value of its own must not look like a flag. -/
def Flag.apply (f : Flag) (i : Invocation) (attached : Option String) (rest : List String) :
    Except Stop (Invocation × List String) :=
  let set (change : Option Invocation) (rest : List String) :=
    match change with
    | some i => .ok (i, rest)
    | none => .error .usage
  match f.action, attached, rest with
  | .switch isOn turnOn, none, _ => if isOn i then .error .usage else .ok (turnOn i, rest)
  | .switch .., some _, _ => .error .usage
  | .stop s, none, _ => .error s
  | .stop _, some _, _ => .error .usage
  | .option _ change, some v, _ => set (change i v) rest
  | .option _ change, none, v :: rest =>
    if v.toList.head? == some '-' && v != "-" then .error .usage else set (change i v) rest
  | .option .., none, [] => .error .usage

/-- Applies the short flags of one argument. After a switch more may follow. -/
def applyShort (i : Invocation) (rest : List String) :
    List Char → Except Stop (Invocation × List String)
  | [] => .ok (i, rest)
  | c :: cs =>
    match flags.find? (·.short == some c) with
    | none => .error .usage
    | some f =>
      match f.action with
      | .option .. =>
        let attached := match cs with
          | [] => none
          | '=' :: v => some (String.ofList v)
          | v => some (String.ofList v)
        f.apply i attached rest
      | _ =>
        match f.apply i none rest with
        | .ok (i, rest) => applyShort i rest cs
        | .error s => .error s

def applyLong (i : Invocation) (body : List Char) (rest : List String) :
    Except Stop (Invocation × List String) :=
  let name := body.takeWhile (· ≠ '=')
  let attached := match body.drop name.length with
    | _ :: v => some (String.ofList v)
    | [] => none
  match flags.find? (·.long == String.ofList name) with
  | none => .error .usage
  | some f => f.apply i attached rest

/-- Reads the arguments in order; after `--` all are positional. -/
def readArguments : Nat → Invocation → List String → Except Stop Invocation
  | _, i, [] => .ok i
  | 0, i, _ => .ok i
  | n + 1, i, arg :: rest =>
    let next (step : Except Stop (Invocation × List String)) :=
      match step with
      | .ok (i, rest) => readArguments n i rest
      | .error s => .error s
    match arg.toList with
    | ['-', '-'] => rest.foldlM setPath i
    | '-' :: '-' :: body => next (applyLong i body rest)
    | '-' :: c :: cs => next (applyShort i rest (c :: cs))
    | _ => next ((setPath i arg).map (·, rest))

def Invocation.parse (args : List String) : Except Stop Invocation :=
  readArguments args.length {} args

/-- Settings after the command line, which wins over file and environment. -/
def Invocation.adjust (i : Invocation) (c : Config) : Config where
  output :=
    { format := i.format.getD c.output.format
      path := i.output.or c.output.path
      tree := c.output.tree && !i.noTree
      tokens := c.output.tokens && !i.noTokens }
  extract :=
    { includeBody := c.extract.includeBody || i.includeBody
      includePrivate := c.extract.includePrivate || i.includePrivate
      includeImports := c.extract.includeImports || i.includeImports
      goVisibility := i.goVisibility.getD c.extract.goVisibility }
  scan :=
    { includeHidden := c.scan.includeHidden || i.includeHidden
      maxFileSize := i.maxSize.getD c.scan.maxFileSize
      ignoreFile := i.ignoreFile.getD c.scan.ignoreFile
      included := c.scan.included ++ i.included
      excluded := c.scan.excluded ++ i.excluded }

end Synopsis.Cli
