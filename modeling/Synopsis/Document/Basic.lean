import Synopsis.Kind
import Synopsis.Text.Basic

/-! What a packed document says, before it is written in one of the formats. -/
namespace Synopsis

/-- What was extracted from one file, or why nothing was. -/
structure FileReport where
  path : String
  language : String
  signatures : List Signature := []
  imports : List Dependency := []
  error : Option String := none
  size : Nat := 0
  deriving DecidableEq, Repr, Inhabited

def FileReport.isOk (f : FileReport) : Bool := f.error.isNone

/-- The contents of a document. An empty tree means none is shown. -/
structure Document where
  tree : String := ""
  files : List FileReport := []
  totalSignatures : Nat := 0
  totalSize : Nat := 0
  includeImports : Bool := false
  deriving DecidableEq, Repr, Inhabited

/-- How a document is written. -/
inductive OutputFormat where
  | xml | markdown | json
  deriving DecidableEq, Repr, Inhabited

/-- A format name that no writer answers to, in lower case. -/
structure UnknownFormat where
  name : String
  deriving DecidableEq, Repr

def UnknownFormat.message (e : UnknownFormat) : String :=
  "unsupported format: " ++ e.name ++ " (expected xml, md, markdown or json)"

namespace OutputFormat

def word : OutputFormat → String
  | xml => "xml"
  | markdown => "markdown"
  | json => "json"

/-- The names a format answers to. -/
def ofLowerName? : String → Option OutputFormat
  | "xml" => some xml
  | "md" | "markdown" => some markdown
  | "json" => some json
  | _ => none

/-- Finds a format by name; the case of ASCII letters does not matter. -/
def ofName (name : String) : Except UnknownFormat OutputFormat :=
  match ofLowerName? (Text.asciiLower name) with
  | some f => .ok f
  | none => .error ⟨Text.asciiLower name⟩

end OutputFormat

end Synopsis
