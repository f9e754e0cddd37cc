import Synopsis.Config
import Synopsis.Config.Toml
import Synopsis.FileTree

/-! Settings from a configuration file and from the environment. -/
namespace Synopsis

/-- Why a configuration could not be loaded. -/
inductive ConfigError where
  | unreadable (path : String)
  | malformed (path : String)
  | rejected (e : SettingsError)
  deriving DecidableEq, Repr

def ConfigError.message : ConfigError → String
  | unreadable path => "failed to read " ++ path
  | malformed path => "invalid config in " ++ path
  | rejected e => e.message

namespace Toml.Item

def string? : Item → Option String
  | str s => some s
  | _ => none

def bool? : Item → Option Bool
  | bool b => some b
  | _ => none

/-- An unsigned number of 64 bits. -/
def size? : Item → Option Nat
  | int n => if 0 ≤ n && n < Int.ofNat UInt64.size then some n.toNat else none
  | _ => none

def items? : Item → Option (List Item)
  | array items | tables items => some items
  | _ => none

def strings? (i : Item) : Option (List String) := i.items? >>= List.mapM string?

def isEmptyContainer : Item → Bool
  | array [] | tables [] | table _ [] => true
  | _ => false

/-- The rule by its word, or as the only key of a table, with nothing below. -/
def goVisibility? : Item → Option GoVisibility
  | str w => GoVisibility.ofWord? w
  | table _ [(w, i)] => if i.isEmptyContainer then GoVisibility.ofWord? w else none
  | _ => none

/-- The fields of a record by name. A list gives them in order. -/
def record? (names : List String) : Item → Option (List (String × Item))
  | table _ fields => some fields
  | array items | tables items => some (names.zip items)
  | _ => none

end Toml.Item

namespace Config
open Toml

/-- A field, its default if it is missing, or nothing if it has the wrong type. -/
def field (fields : Fields) (name : String) (dflt : α) (read : Item → Option α) : Option α :=
  match fields.lookup name with
  | none => some dflt
  | some item => read item

def readOutput (item : Item) : Option OutputSettings := do
  let fs ← item.record? ["format", "path", "tree", "tokens"]
  let dflt : OutputSettings := {}
  return {
    format := ← field fs "format" dflt.format Item.string?
    path := ← field fs "path" dflt.path fun i => i.string?.map some
    tree := ← field fs "tree" dflt.tree Item.bool?
    tokens := ← field fs "tokens" dflt.tokens Item.bool? }

def readExtract (item : Item) : Option Options := do
  let fs ← item.record? ["include_body", "include_private", "include_imports", "go_visibility"]
  let dflt : Options := {}
  return {
    includeBody := ← field fs "include_body" dflt.includeBody Item.bool?
    includePrivate := ← field fs "include_private" dflt.includePrivate Item.bool?
    includeImports := ← field fs "include_imports" dflt.includeImports Item.bool?
    goVisibility := ← field fs "go_visibility" dflt.goVisibility Item.goVisibility? }

def readScan (item : Item) : Option ScanSettings := do
  let fs ← item.record? ["include_hidden", "max_file_size", "ignore_file", "include", "exclude"]
  let dflt : ScanSettings := {}
  return {
    includeHidden := ← field fs "include_hidden" dflt.includeHidden Item.bool?
    maxFileSize := ← field fs "max_file_size" dflt.maxFileSize Item.size?
    ignoreFile := ← field fs "ignore_file" dflt.ignoreFile Item.string?
    included := ← field fs "include" dflt.included Item.strings?
    excluded := ← field fs "exclude" dflt.excluded Item.strings? }

/-- Settings from the text of a configuration file. Unknown keys say nothing. -/
def ofText? (text : String) : Option Config := do
  let fs ← Toml.parse text
  return {
    output := ← field fs "output" {} readOutput
    extract := ← field fs "extract" {} readExtract
    scan := ← field fs "scan" {} readScan }

/-- An unsigned number of 64 bits in decimal digits, with at most a plus sign before them. -/
def sizeOfText? (s : String) : Option Nat :=
  let ds := match s.toList with
    | '+' :: ds => ds
    | ds => ds
  if ds.isEmpty || !ds.all Char.isDigit then none
  else
    let n := ds.foldl (fun v c => v * 10 + (c.toNat - 48)) 0
    if n < UInt64.size then some n else none

def boolOfText? : String → Option Bool
  | "true" => some true
  | "false" => some false
  | _ => none

/-- Variables of the environment by name. -/
abbrev Environment := List (String × String)

/-- A variable that can be read, or else the value so far. -/
def override (env : Environment) (name : String) (read : String → Option α) (value : α) : α :=
  ((env.lookup name) >>= read).getD value

/-- Settings after the environment has been looked at. -/
def withEnvironment (c : Config) (env : Environment) : Config :=
  { c with
    output := { c.output with format := override env "BRIEF_FORMAT" some c.output.format }
    scan := { c.scan with
      maxFileSize := override env "BRIEF_MAX_FILE_SIZE" sizeOfText? c.scan.maxFileSize }
    extract := { c.extract with
      includeBody := override env "BRIEF_INCLUDE_BODY" boolOfText? c.extract.includeBody
      includePrivate := override env "BRIEF_INCLUDE_PRIVATE" boolOfText? c.extract.includePrivate
      includeImports :=
        override env "BRIEF_INCLUDE_IMPORTS" boolOfText? c.extract.includeImports } }

/-- Where the configuration of a root is kept. -/
def pathFor (root : String) : String := Path.join (Path.join root ".brief") "config.toml"

/-- Settings of the configuration file, or the default ones if there is no such file. -/
def ofFile (t : FileTree) (root : String) : Except ConfigError Config :=
  let path := pathFor root
  match t.read path with
  | .error _ => .ok {}
  | .ok bytes =>
    match Utf8.text? bytes with
    | none => .error (.unreadable path)
    | some text =>
      match ofText? text with
      | none => .error (.malformed path)
      | some c => .ok c

/-- The settings for a root: file, then environment; they have to be acceptable. -/
def load (t : FileTree) (root : String) (env : Environment) : Except ConfigError Config := do
  let c := (← ofFile t root).withEnvironment env
  match c.validate with
  | .ok _ => return c
  | .error e => .error (.rejected e)

end Config

end Synopsis
