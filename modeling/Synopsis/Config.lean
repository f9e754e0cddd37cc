import Synopsis.Kind

/-! Settings of a run, and which of them are acceptable. -/
namespace Synopsis

/-- How the document is written. -/
structure OutputSettings where
  format : String := "xml"
  /-- The file to write instead of standard output. -/
  path : Option String := none
  tree : Bool := true
  tokens : Bool := true
  deriving DecidableEq, Repr, Inhabited

/-- Which files are read. -/
structure ScanSettings where
  includeHidden : Bool := false
  /-- Larger files are passed over. -/
  maxFileSize : Nat := 512000
  /-- A further ignore file, or nothing if empty. -/
  ignoreFile : String := ".gitignore"
  /-- Patterns of which a path has to match one, unless there are none. -/
  included : List String := []
  /-- Patterns of which a path must match none. -/
  excluded : List String := []
  deriving DecidableEq, Repr, Inhabited

structure Config where
  output : OutputSettings := {}
  extract : Options := {}
  scan : ScanSettings := {}
  deriving DecidableEq, Repr, Inhabited

/-- Why settings are rejected. -/
inductive SettingsError where
  | unknownFormat (format : String)
  | zeroFileSize
  deriving DecidableEq, Repr

namespace Config

/-- The format names a configuration may use. -/
def formats : List String := ["xml", "md", "markdown", "json"]

/-- Lower case as far as it can give an ASCII letter: the Kelvin sign becomes `k`. -/
def foldCase (c : Char) : Char := if c = '\u212A' then 'k' else c.toLower

/-- Rejects an unknown format or a size limit of zero, in this order. -/
def validate (c : Config) : Except SettingsError Unit :=
  if !formats.contains (c.output.format.map foldCase) then
    .error (.unknownFormat c.output.format)
  else if c.scan.maxFileSize = 0 then .error .zeroFileSize
  else .ok ()

end Config

def SettingsError.message : SettingsError → String
  | unknownFormat f =>
    "invalid format '" ++ f ++ "' (expected one of: " ++ ", ".intercalate Config.formats ++ ")"
  | zeroFileSize => "max_file_size must be greater than 0"

end Synopsis
