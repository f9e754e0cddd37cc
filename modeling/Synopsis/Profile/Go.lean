import Synopsis.Profile
import Synopsis.Visibility

/-! Go. -/
namespace Synopsis.Profile

def goQuery : String :=
"(function_declaration
  name: (identifier) @name) @signature @kind

(method_declaration
  name: (field_identifier) @name) @signature @kind

(type_declaration
  (type_spec
    name: (type_identifier) @name)) @signature @kind

(source_file
  (var_declaration
    (var_spec
      name: (identifier) @name)) @signature @kind)

(source_file
  (const_declaration
    (const_spec
      name: (identifier) @name)) @signature @kind)
"

def goKinds : List (String × String) :=
  [("function_declaration", "function"), ("method_declaration", "method"),
   ("type_declaration", "type"), ("var_declaration", "variable"),
   ("const_declaration", "variable")]

/-- Functions and methods lose their body; all else stays whole. -/
def goStrip : Kind → List Char → Option (List Char)
  | .function, cs | .method, cs => Body.stripBraced? false true cs
  | _, cs => some (Text.trim cs)

def go (parser : Tree.Parser) : Profile where
  parser := parser
  query := goQuery
  importQuery := some "(import_spec) @import_path\n"
  kinds := goKinds
  isExported := fun name _ o => Visibility.goExported name o.goVisibility
  stripBody := goStrip
  normalizeImport := ImportPath.goStatement

end Synopsis.Profile
