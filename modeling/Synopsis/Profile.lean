import Synopsis.Body
import Synopsis.ImportPath
import Synopsis.Kind
import Synopsis.Tree.Parser

/-! What extraction needs to know about one language. -/
open Synopsis.Tree

namespace Synopsis

/-- A language: its parser, the queries for declarations and for imports, the captures that have a
meaning, the kind of each node kind, and the rules of the language. -/
structure Profile where
  parser : Parser
  query : String
  importQuery : Option String := none
  roles : List String := ["name", "signature", "doc", "kind"]
  kinds : List (String × String)
  /-- The kind of a declaration, given its node kind, listed kind and text; `none` drops it. -/
  reclassify : String → Kind → String → Option Kind := fun _ k _ => some k
  /-- Whether a declaration with a name and a text is public. -/
  isExported : String → String → Options → Bool := fun name _ _ => !name.isEmpty
  /-- A declaration's text without its body; `none` if the cut splits a character. -/
  stripBody : Kind → List Char → Option (List Char) := fun _ cs => some (Text.trim cs)
  normalizeImport : String → String := ImportPath.clean

namespace Profile

/-- The kind of a node kind: from the table, else by its name. -/
def kindOf (p : Profile) (nodeKind : String) : Kind :=
  Kind.ofWord ((p.kinds.lookup nodeKind).getD nodeKind)

/-- The text without its body, whole where the cut splits a character. -/
def strip (p : Profile) (k : Kind) (text : String) : String :=
  String.ofList ((p.stripBody k text.toList).getD (Text.trim text.toList))

end Profile

end Synopsis
