import Synopsis.Grammar.CFamily
import Synopsis.Grammar.Go
import Synopsis.Grammar.Java
import Synopsis.Grammar.Parser
import Synopsis.Grammar.Python
import Synopsis.Grammar.TypeScript
import Synopsis.Parsers

/-! The built-in languages over the parsers that come with the program. Their grammars cover the
common syntax of the languages; what lies outside is repaired like a mistake. -/
namespace Synopsis

def Parsers.bundled : Parsers where
  go := Grammar.Go.grammar.parser
  typescript := (Grammar.TypeScript.grammar false).parser
  tsx := (Grammar.TypeScript.grammar true).parser
  python := Grammar.Python.grammar.parser
  c := (Grammar.CFamily.grammar .c).parser
  cpp := (Grammar.CFamily.grammar .cpp).parser
  java := Grammar.Java.grammar.parser

def builtins : List (String × Profile) := Parsers.bundled.builtins

def Registry.withBuiltins : Registry := Parsers.bundled.registry

/-- The Go parser with queries of one's own. -/
def Profile.overGo (query : String) (importQuery : Option String)
    (kinds : List (String × String)) : Profile where
  parser := Parsers.bundled.go
  query := query
  importQuery := importQuery
  kinds := kinds

end Synopsis
