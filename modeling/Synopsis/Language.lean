import Synopsis.Path

/-! Which language a file is in, by its extension. -/
namespace Synopsis.Language

/-- Extensions in lower case, each with the tag of its language. -/
def extensions : List (String × String) :=
  [("go", "go"), ("ts", "typescript"), ("mts", "typescript"), ("cts", "typescript"),
   ("tsx", "tsx"), ("js", "javascript"), ("mjs", "javascript"), ("cjs", "javascript"),
   ("jsx", "jsx"), ("py", "python"), ("pyi", "python"), ("c", "c"), ("h", "c"),
   ("cpp", "cpp"), ("cc", "cpp"), ("cxx", "cpp"), ("hpp", "cpp"), ("hh", "cpp"),
   ("hxx", "cpp"), ("java", "java")]

/-- Leading dots and the case of ASCII letters do not matter. -/
def ofExtension? (ext : String) : Option String :=
  extensions.lookup (Text.asciiLower (String.ofList (ext.toList.dropWhile (· == '.'))))

def ofPath? (path : String) : Option String := Path.extension? path >>= ofExtension?

end Synopsis.Language
