import Synopsis.Document.Basic

/-! Documents as Markdown. -/
namespace Synopsis.Markdown

/-- Backticks inside code spans are escaped. -/
def escapeChar : Char → String
  | '\x60' => "\\\x60"
  | c => String.singleton c

def escape (s : String) : String := String.join (s.toList.map escapeChar)

/-- The line that opens and closes a code block. -/
def fence : String := "\x60\x60\x60"

def code (s : String) : String := "\x60" ++ escape s ++ "\x60"

/-- Every line of a text becomes a line of a quotation. -/
def quoted (s : String) : String :=
  "> " ++ String.join (s.toList.map fun c =>
    if c = '\n' then "\n> " else String.singleton c) ++ "\n\n"

def rule : String := "---\n\n"

/-- What a code block without signatures says. -/
def placeholder (language : String) : String :=
  if language = "python" then "# (empty)" else "// (empty)"

def writeTree (tree : String) : String :=
  if tree.isEmpty then ""
  else "## Directory Tree\n\n" ++ fence ++ "\n" ++ tree ++ "\n" ++ fence ++ "\n\n"

def writeSymbols (d : Document) : String :=
  if d.totalSignatures = 0 then ""
  else "## Symbols\n\n" ++
    String.join ((d.files.flatMap (·.signatures)).map fun s => "- " ++ code s.text ++ "\n") ++
    "\n" ++ rule

def writeImport (d : Dependency) : String :=
  "- " ++ d.direction.word ++ " " ++ code d.path ++
    (if d.name.isEmpty then "" else " " ++ code d.name) ++ "\n"

def writeImports (ds : List Dependency) : String :=
  if ds.isEmpty then "" else "**Imports:**\n\n" ++ String.join (ds.map writeImport) ++ "\n"

def writeBlock (f : FileReport) : String :=
  fence ++ f.language ++ "\n" ++
    (if f.signatures.isEmpty then placeholder f.language ++ "\n" else "") ++
    String.join (f.signatures.map fun s => s.text ++ "\n") ++ fence ++ "\n\n"

def writeDocs (f : FileReport) : String :=
  String.join ((f.signatures.filter fun s => !s.doc.isEmpty).map fun s => quoted (escape s.doc))

def writeContents (includeImports : Bool) (f : FileReport) : String :=
  match f.error with
  | some e => "> **Error:** " ++ escape e ++ "\n\n"
  | none =>
    (if includeImports then writeImports f.imports else "") ++ writeBlock f ++ writeDocs f

def writeFile (includeImports : Bool) (f : FileReport) : String :=
  "### " ++ f.path ++ "\n\n" ++ writeContents includeImports f ++ rule

def render (d : Document) : String :=
  "# Brief Output\n\n" ++ writeTree d.tree ++ writeSymbols d ++ "## Files\n\n" ++
    String.join (d.files.map (writeFile d.includeImports))

end Synopsis.Markdown
