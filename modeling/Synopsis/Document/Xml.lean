import Synopsis.Document.Basic

/-! Documents as XML. Every text of the document passes through `escape`, so none can be
taken for markup. -/
namespace Synopsis.Xml

/-- The five characters with a meaning in markup are written as entities. -/
def escapeChar : Char → String
  | '&' => "&amp;"
  | '<' => "&lt;"
  | '>' => "&gt;"
  | '"' => "&quot;"
  | '\'' => "&apos;"
  | c => String.singleton c

def escape (s : String) : String := String.join (s.toList.map escapeChar)

def writeImport (d : Dependency) : String :=
  "        <" ++ d.direction.word ++ " line=\"" ++ toString d.line ++ "\"" ++
    (if d.name.isEmpty then "" else " name=\"" ++ escape d.name ++ "\"") ++ ">" ++
    escape d.path ++ "</" ++ d.direction.word ++ ">\n"

def writeSignature (s : Signature) : String :=
  "      <signature>" ++ escape s.text ++ "</signature>\n" ++
    (if s.doc.isEmpty then "" else "      <doc>" ++ escape s.doc ++ "</doc>\n")

def writeImports (ds : List Dependency) : String :=
  if ds.isEmpty then ""
  else "      <imports>\n" ++ String.join (ds.map writeImport) ++ "      </imports>\n"

/-- A file with an error shows nothing else. -/
def writeContents (includeImports : Bool) (f : FileReport) : String :=
  match f.error with
  | some e => "      <error>" ++ escape e ++ "</error>\n"
  | none =>
    (if includeImports then writeImports f.imports else "") ++
      String.join (f.signatures.map writeSignature)

def writeFile (includeImports : Bool) (f : FileReport) : String :=
  "    <file path=\"" ++ escape f.path ++ "\" language=\"" ++ escape f.language ++ "\">\n" ++
    writeContents includeImports f ++ "    </file>\n"

def writeTree (tree : String) : String :=
  if tree.isEmpty then "" else "    <tree>" ++ escape tree ++ "</tree>\n"

/-- The texts of all signatures, unless the document counts none. -/
def writeSymbols (d : Document) : String :=
  if d.totalSignatures = 0 then ""
  else "    <symbols>\n" ++
    String.join ((d.files.flatMap (·.signatures)).map fun s =>
      "      - " ++ escape s.text ++ "\n") ++
    "    </symbols>\n"

def render (d : Document) : String :=
  "<?xml version=\"1.0\" encoding=\"UTF-8\"?>\n<brief>\n  <metadata>\n" ++ writeTree d.tree ++
    writeSymbols d ++ "  </metadata>\n  <files>\n" ++
    String.join (d.files.map (writeFile d.includeImports)) ++ "  </files>\n</brief>\n"

end Synopsis.Xml
