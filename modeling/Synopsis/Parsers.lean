import Synopsis.Profile.C
import Synopsis.Profile.Cpp
import Synopsis.Profile.Go
import Synopsis.Profile.Java
import Synopsis.Profile.Python
import Synopsis.Profile.TypeScript
import Synopsis.Registry

/-! The languages known from the start, over the parsers for them. -/
open Synopsis.Tree

namespace Synopsis

/-- A parser for each grammar. That of `tsx` takes elements in angle brackets. -/
structure Parsers where
  go : Parser
  typescript : Parser
  tsx : Parser
  python : Parser
  c : Parser
  cpp : Parser
  java : Parser

namespace Parsers

/-- The built-in languages by tag. -/
def builtins (P : Parsers) : List (String × Profile) :=
  [("go", Profile.go P.go), ("typescript", Profile.script P.typescript),
   ("javascript", Profile.script P.typescript), ("tsx", Profile.script P.tsx),
   ("jsx", Profile.script P.tsx), ("python", Profile.python P.python), ("c", Profile.c P.c),
   ("cpp", Profile.cpp P.cpp), ("java", Profile.java P.java)]

/-- The registry of the built-in languages that compile. -/
def registry (P : Parsers) : Registry := Registry.empty.addAll P.builtins

end Parsers

end Synopsis
