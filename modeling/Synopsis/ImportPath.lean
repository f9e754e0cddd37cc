import Synopsis.Text.Basic

/-! The form in which an import is recorded. -/
namespace Synopsis.ImportPath
open Text

/-- Drops from both ends the characters satisfying `p`. -/
def trimBoth (p : Char → Bool) (cs : List Char) : List Char := dropEndWhile p (cs.dropWhile p)

def isQuote (c : Char) : Bool := c == '"' || c == '\'' || c == '\x60'

def isAngle (c : Char) : Bool := c == '<' || c == '>'

/-- Whole statements stay; anything else loses quotes and then angle brackets around it. -/
def clean (raw : String) : String :=
  let t := trim raw.toList
  if "import ".toList.isPrefixOf t || "from ".toList.isPrefixOf t ||
      "#include".toList.isPrefixOf t then String.ofList t
  else String.ofList (trimBoth isAngle (trimBoth isQuote t))

/-- A module name without the quotes around it. -/
def unquoted (raw : String) : String := String.ofList (trimBoth isQuote (trim raw.toList))

/-- A Go import specification as a statement. -/
def goStatement (raw : String) : String :=
  let t := trim raw.toList
  if "import ".toList.isPrefixOf t then String.ofList t else "import " ++ String.ofList t

end Synopsis.ImportPath
