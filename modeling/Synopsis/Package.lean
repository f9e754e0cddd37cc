import Synopsis.Document
import Synopsis.Extract
import Synopsis.PathTree
import Synopsis.Scan
import Synopsis.Tokens

/-! From a root to a document: scan, extract, write. -/
namespace Synopsis

/-- Extracts one file. What goes wrong is recorded, and nothing else then. -/
def extractFile (read : Except IoError (List UInt8)) (r : Registry) (o : Options) (path : String)
    (language : String) (size : Nat) : FileReport :=
  match read with
  | .error e => { path, language, size, error := some ("read failed: " ++ e.message) }
  | .ok bytes =>
    match r.extract (Utf8.lossy bytes) language o with
    | .error e => { path, language, size, error := some e.message }
    | .ok x => { path, language, size, signatures := x.signatures, imports := x.imports }

/-- Reads what is at a location. -/
def FileTree.readAt (t : FileTree) (l : Location) : Except IoError (List UInt8) :=
  match t.get? l with
  | some (.file bytes) => .ok bytes
  | some .directory => .error .isDirectory
  | none => .error .notFound

/-- A written document with the totals of its run. -/
structure Package where
  content : String
  format : OutputFormat
  totalFiles : Nat
  totalSignatures : Nat
  totalSize : Nat
  tokens : Option Nat
  errors : Nat
  skipped : Nat
  deriving DecidableEq, Repr

inductive PackageError where
  | format (e : UnknownFormat)
  | scan (e : ScanError)
  deriving DecidableEq, Repr

def PackageError.messages : PackageError → List String
  | format e => [e.message]
  | scan e => e.messages

/-- The document of the files of a scan. -/
def documentOf (t : FileTree) (r : Registry) (c : Config) (scanned : ScanResult) : Document :=
  let files := scanned.files.map fun f =>
    extractFile (t.readAt f.location) r c.extract f.path f.language f.size
  { tree := if c.output.tree then drawPaths (files.map (·.path)) else ""
    files
    totalSignatures := (files.map (·.signatures.length)).foldr (· + ·) 0
    totalSize := scanned.totalSize
    includeImports := c.extract.includeImports }

/-- Packs a root, a directory or a single file, into one document, and counts its tokens in an
encoding if there is one. -/
def FileTree.package (t : FileTree) (r : Registry) (c : Config) (root : String)
    (encoding? : Option (String → Nat) := none) : Except PackageError Package := do
  let format ← (OutputFormat.ofName c.output.format).mapError .format
  let scanned ← (t.scan root c.scan).mapError .scan
  let document := documentOf t r c scanned
  let content := document.render format
  return {
    content, format
    totalFiles := document.files.length
    totalSignatures := document.totalSignatures
    totalSize := document.totalSize
    tokens := if c.output.tokens then some (Tokens.count encoding? content) else none
    errors := (document.files.filter fun f => !f.isOk).length
    skipped := scanned.skipped }

end Synopsis
