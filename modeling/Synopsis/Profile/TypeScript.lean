import Synopsis.Profile

/-! TypeScript and JavaScript. With elements in angle brackets they have another parser, and all
else is the same. -/
namespace Synopsis.Profile

def scriptQuery : String :=
"(function_declaration
  name: (identifier) @name) @signature @kind

(export_statement
  (function_declaration
    name: (identifier) @name)) @signature @kind

(lexical_declaration
  (variable_declarator
    name: (identifier) @name
    value: (arrow_function))) @signature @kind

(method_definition
  name: (property_identifier) @name) @signature @kind

(class_declaration
  name: (type_identifier) @name) @signature @kind

(abstract_class_declaration
  name: (type_identifier) @name) @signature @kind

(interface_declaration
  name: (type_identifier) @name) @signature @kind

(type_alias_declaration
  name: (type_identifier) @name) @signature @kind

(enum_declaration
  name: (identifier) @name) @signature @kind
"

def scriptImportQuery : String :=
"(import_statement
  source: (string) @import_path)

(export_statement
  source: (string) @import_path) @export_type

(export_statement
  declaration: (function_declaration
    name: (identifier) @export_name))

(export_statement
  declaration: (class_declaration
    name: (type_identifier) @export_name))

(export_statement
  declaration: (abstract_class_declaration
    name: (type_identifier) @export_name))

(export_statement
  declaration: (interface_declaration
    name: (type_identifier) @export_name))

(export_statement
  declaration: (type_alias_declaration
    name: (type_identifier) @export_name))

(export_statement
  declaration: (enum_declaration
    name: (identifier) @export_name))

(export_statement
  declaration: (lexical_declaration
    (variable_declarator
      name: (identifier) @export_name)))

(export_statement
  (export_clause
    (export_specifier
      name: (identifier) @export_name)))
"

/-- Words that may stand before the binding word or `function`. -/
def leadWords : List (List Char) := ["export", "default", "declare", "async"].map String.toList

/-- The text binds a name, as in `const f = () => 1`. -/
def isBinding (cs : List Char) : Bool :=
  match (Text.words cs).find? (fun w => !leadWords.contains w) with
  | some w => (["const", "let", "var"].map String.toList).contains w
  | none => false

/-- Bindings end before their arrow, functions and classes before their body. -/
def scriptStrip : Kind → List Char → Option (List Char)
  | .function, cs | .method, cs | .export_, cs =>
    if isBinding (Text.trim cs) then Body.stripArrow? cs else Body.stripBraced? true true cs
  | .class_, cs => Body.stripBraced? true false cs
  | .variable_, cs => Body.stripArrow? cs
  | _, cs => some (Text.trim cs)

def script (parser : Tree.Parser) : Profile where
  parser := parser
  query := scriptQuery
  importQuery := some scriptImportQuery
  kinds := [("function_declaration", "function"), ("method_definition", "method"),
    ("class_declaration", "class"), ("abstract_class_declaration", "class"),
    ("interface_declaration", "interface"), ("type_alias_declaration", "type"),
    ("enum_declaration", "enum"), ("arrow_function", "function"),
    ("variable_declaration", "variable"), ("variable_declarator", "function"),
    ("lexical_declaration", "function"), ("export_statement", "export")]
  stripBody := scriptStrip
  normalizeImport := ImportPath.unquoted

end Synopsis.Profile
