import Synopsis.Document.Basic

/-! Documents as JSON: a value type, its indented form and the shape of a document. -/
namespace Synopsis

/-- The JSON values a document uses. Fields keep their order. -/
inductive JsonValue where
  | bool (b : Bool)
  | num (n : Nat)
  | str (s : String)
  | arr (items : List JsonValue)
  | obj (fields : List (String × JsonValue))
  deriving Repr, Inhabited

namespace JsonValue

def hexDigit (n : Nat) : Char := if n < 10 then Char.ofNat (48 + n) else Char.ofNat (87 + n)

/-- Quotes, backslashes and control characters are escaped, the common ones by a letter. -/
def escapeChar (c : Char) : List Char :=
  if c = '"' then ['\\', '"']
  else if c = '\\' then ['\\', '\\']
  else if c = '\n' then ['\\', 'n']
  else if c = '\r' then ['\\', 'r']
  else if c = '\t' then ['\\', 't']
  else if c = '\x08' then ['\\', 'b']
  else if c = '\x0c' then ['\\', 'f']
  else if c.toNat < 32 then ['\\', 'u', '0', '0', hexDigit (c.toNat / 16), hexDigit (c.toNat % 16)]
  else [c]

def quote (s : String) : String := "\"" ++ String.ofList (s.toList.flatMap escapeChar) ++ "\""

/-- A new line, indented by two spaces for each level. -/
def newline (depth : Nat) : String := "\n" ++ "".pushn ' ' (2 * depth)

mutual

/-- The indented form of a value that stands at a level. -/
def write (depth : Nat) : JsonValue → String
  | bool b => if b then "true" else "false"
  | num n => toString n
  | str s => quote s
  | arr [] => "[]"
  | arr (v :: vs) =>
    "[" ++ newline (depth + 1) ++ write (depth + 1) v ++ writeItems (depth + 1) vs ++
      newline depth ++ "]"
  | obj [] => "\x7b\x7d"
  | obj ((k, v) :: fs) =>
    "\x7b" ++ newline (depth + 1) ++ quote k ++ ": " ++ write (depth + 1) v ++
      writeFields (depth + 1) fs ++ newline depth ++ "\x7d"

def writeItems (depth : Nat) : List JsonValue → String
  | [] => ""
  | v :: vs => "," ++ newline depth ++ write depth v ++ writeItems depth vs

def writeFields (depth : Nat) : List (String × JsonValue) → String
  | [] => ""
  | (k, v) :: fs =>
    "," ++ newline depth ++ quote k ++ ": " ++ write depth v ++ writeFields depth fs

end

def pretty (v : JsonValue) : String := write 0 v

def ofSignature (s : Signature) : JsonValue :=
  obj [("name", str s.name), ("kind", str s.kind.word), ("text", str s.text), ("doc", str s.doc),
    ("line", num s.line), ("endLine", num s.endLine), ("language", str s.language),
    ("exported", bool s.exported)]

def ofDependency (d : Dependency) : JsonValue :=
  obj [("type", str d.direction.word), ("path", str d.path), ("name", str d.name),
    ("line", num d.line)]

/-- Imports are left out when there are none, and so is the error. -/
def ofFile (f : FileReport) : JsonValue :=
  obj ([("path", str f.path), ("language", str f.language),
      ("signatures", arr (f.signatures.map ofSignature))] ++
    (if f.imports.isEmpty then [] else [("imports", arr (f.imports.map ofDependency))]) ++
    (match f.error with
      | some e => [("error", str e)]
      | none => []))

/-- The tree is left out when it is empty. -/
def ofDocument (d : Document) : JsonValue :=
  obj ((if d.tree.isEmpty then [] else [("tree", str d.tree)]) ++
    [("files", arr (d.files.map ofFile)), ("totalSignatures", num d.totalSignatures),
      ("totalSize", num d.totalSize)])

def render (d : Document) : String := (ofDocument d).pretty ++ "\n"

end JsonValue

end Synopsis
