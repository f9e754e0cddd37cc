import Synopsis.Tree.Node

/-! What is asked of a parsing library: a parser for each language, and queries over its trees. The
library itself stays open, and with it the grammars; the program is the same over each. -/
namespace Synopsis.Tree

/-- Captured places, each under its name. -/
abbrev Captures := List (String × Place)

structure Match where
  captures : Captures

/-- A query that was read: the names it captures under, and its matches in a tree, in order. -/
structure Query where
  captureNames : List String
  matchesIn : Source → Node → List Match

/-- The parser of one language. Its grammar may not fit the library, which then gives the reason;
a query may not be readable, and a source may have no tree. -/
structure Parser where
  refusal : Option String := none
  readQuery : String → Except String Query
  parse : String → Option Node

/-- The tree of a source, or why there is none. -/
def Parser.tree (p : Parser) (text : String) : Except String Node :=
  match p.refusal with
  | some reason => .error reason
  | none =>
    match p.parse text with
    | some root => .ok root
    | none => .error "parser produced no tree"

end Synopsis.Tree
