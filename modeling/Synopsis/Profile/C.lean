import Synopsis.Profile

/-! C. -/
namespace Synopsis.Profile

def cQuery : String :=
"(function_definition
  declarator: (function_declarator
    declarator: (identifier) @name)) @signature @kind

(function_definition
  declarator: (pointer_declarator
    declarator: (function_declarator
      declarator: (identifier) @name))) @signature @kind

(declaration
  declarator: (function_declarator
    declarator: (identifier) @name)) @signature @kind

(translation_unit
  (declaration
    declarator: (init_declarator
      declarator: (identifier) @name)) @signature @kind)

(struct_specifier
  name: (type_identifier) @name) @signature @kind

(enum_specifier
  name: (type_identifier) @name) @signature @kind

(type_definition
  declarator: (type_identifier) @name) @signature @kind

(preproc_function_def
  name: (identifier) @name) @signature @kind

(preproc_def
  name: (identifier) @name) @signature @kind
"

/-- Prototypes and variables are both declarations; parentheses tell them apart. -/
def cReclassify (nodeKind : String) (kind : Kind) (text : String) : Option Kind :=
  if nodeKind == "declaration" then
    if text.toList.contains '(' && text.toList.contains ')' then some .function
    else some .variable_
  else some kind

def cStrip : Kind → List Char → Option (List Char)
  | .function, cs => Body.stripBraced? false true cs
  | _, cs => some (Text.trim cs)

def c (parser : Tree.Parser) : Profile where
  parser := parser
  query := cQuery
  importQuery := some "(preproc_include) @import_path\n"
  kinds := [("function_definition", "function"), ("declaration", "function"),
    ("struct_specifier", "struct"), ("enum_specifier", "enum"), ("type_definition", "typedef"),
    ("preproc_function_def", "macro"), ("preproc_def", "macro")]
  reclassify := cReclassify
  stripBody := cStrip

end Synopsis.Profile
