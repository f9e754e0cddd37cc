import Synopsis.Profile

/-! C++. -/
namespace Synopsis.Profile

def cppQuery : String :=
"; free functions
(function_definition
  declarator: (function_declarator
    declarator: (identifier) @name)) @signature @kind

(function_definition
  declarator: (pointer_declarator
    declarator: (function_declarator
      declarator: (identifier) @name))) @signature @kind

(function_definition
  declarator: (reference_declarator
    (function_declarator
      declarator: (identifier) @name))) @signature @kind

(declaration
  declarator: (function_declarator
    declarator: (identifier) @name)) @signature @kind

(declaration
  declarator: (pointer_declarator
    declarator: (function_declarator
      declarator: (identifier) @name))) @signature @kind

(declaration
  declarator: (reference_declarator
    (function_declarator
      declarator: (identifier) @name))) @signature @kind

; types
(class_specifier
  name: (type_identifier) @name) @signature @kind

(struct_specifier
  name: (type_identifier) @name) @signature @kind

(enum_specifier
  name: (type_identifier) @name) @signature @kind

(type_definition
  declarator: (type_identifier) @name) @signature @kind

(preproc_function_def
  name: (identifier) @name) @signature @kind

(preproc_def
  name: (identifier) @name) @signature @kind

; member functions declared in a class body
(field_declaration
  declarator: (function_declarator
    declarator: (field_identifier) @name)) @signature @kind

(field_declaration
  declarator: (pointer_declarator
    declarator: (function_declarator
      declarator: (field_identifier) @name))) @signature @kind

(field_declaration
  declarator: (reference_declarator
    (function_declarator
      declarator: (field_identifier) @name))) @signature @kind

; out-of-line definitions: Type::method, Type::Type
(function_definition
  declarator: (function_declarator
    declarator: (qualified_identifier
      name: (identifier) @name))) @signature @kind

; destructors
(function_definition
  declarator: (function_declarator
    declarator: (destructor_name
      (identifier) @name))) @signature @kind

(declaration
  declarator: (function_declarator
    declarator: (destructor_name
      (identifier) @name))) @signature @kind

; operator overloads
(function_definition
  declarator: (function_declarator
    declarator: (operator_name) @name)) @signature @kind

(function_definition
  declarator: (function_declarator
    declarator: (qualified_identifier
      name: (operator_name) @name))) @signature @kind

(field_declaration
  declarator: (function_declarator
    declarator: (operator_name) @name)) @signature @kind

(namespace_definition
  name: (namespace_identifier) @name) @signature @kind

; templates
(template_declaration
  (function_definition
    declarator: (function_declarator
      declarator: (identifier) @name))) @signature @kind

(template_declaration
  (function_definition
    declarator: (pointer_declarator
      declarator: (function_declarator
        declarator: (identifier) @name)))) @signature @kind

(template_declaration
  (class_specifier
    name: (type_identifier) @name)) @signature @kind

(template_declaration
  (struct_specifier
    name: (type_identifier) @name)) @signature @kind

(template_declaration
  (declaration
    declarator: (function_declarator
      declarator: (identifier) @name))) @signature @kind
"

/-- Everything with a braced body loses it, type definitions, enumerations and macros
excepted. -/
def cppStrip (kind : Kind) (cs : List Char) : Option (List Char) :=
  match kind with
  | .function | .method | .constructor | .destructor | .class_ | .struct | .namespace_
  | .template => Body.stripBraced? true kind.isCallable cs
  | _ => some (Text.trim cs)

def cpp (parser : Tree.Parser) : Profile where
  parser := parser
  query := cppQuery
  importQuery := some "(preproc_include) @import_path\n"
  kinds := [("function_definition", "function"), ("declaration", "function"),
    ("struct_specifier", "struct"), ("enum_specifier", "enum"), ("type_definition", "typedef"),
    ("preproc_function_def", "macro"), ("preproc_def", "macro"), ("class_specifier", "class"),
    ("field_declaration", "method"), ("template_declaration", "template"),
    ("namespace_definition", "namespace")]
  stripBody := cppStrip

end Synopsis.Profile
