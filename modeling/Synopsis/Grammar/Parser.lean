import Synopsis.Grammar.Patterns
import Synopsis.Grammar.Recovery

/-! The parser of a grammar. It reads the queries that name kinds and fields of its trees, and gives
a tree for every source. It is one parser among others: extraction asks no more of it than of
any. -/
open Synopsis.Tree

namespace Synopsis.Grammar

variable {σ : Type}

/-- The kinds and fields of a grammar's trees. -/
def Rules.vocabulary (g : Rules σ) : Patterns.Vocabulary :=
  let kinds := g.root :: "comment" :: g.symbols.flatMap fun x => (g.rule x).kinds
  let fields := g.symbols.flatMap fun x => (g.rule x).fields
  ⟨kinds.contains, fields.contains⟩

/-- Reads a query, or words what is wrong with it. -/
def readQuery (v : Patterns.Vocabulary) (text : String) : Except String Query :=
  match Patterns.parse v text with
  | .ok q => .ok q.query
  | .error e => .error (e.message text)

def Rules.parser (g : Rules σ) : Parser where
  readQuery := readQuery g.vocabulary
  parse := fun text => some (g.parse text)

end Synopsis.Grammar
