import Synopsis.Profile

/-! Python. -/
namespace Synopsis.Profile

def pythonQuery : String :=
"(function_definition
  name: (identifier) @name) @signature @kind

(class_definition
  name: (identifier) @name) @signature @kind

(module
  (expression_statement
    (assignment
      left: (identifier) @name)) @signature @kind)
"

def pythonImportQuery : String :=
"(import_statement
  name: (dotted_name) @import_path)

(import_statement
  name: (aliased_import
    name: (dotted_name) @import_path))

(import_from_statement
  module_name: (dotted_name) @import_path)

(import_from_statement
  module_name: (relative_import) @import_path)
"

/-- The text between the first opening and the first closing parenthesis, if the latter comes
later and not at once. -/
def firstParens? (cs : List Char) : Option (List Char) :=
  let (before, rest) := cs.span (· != '(')
  match rest with
  | [] => none
  | _ :: inner =>
    if before.contains ')' then none
    else
      let (params, close) := inner.span (· != ')')
      if close.isEmpty || params.isEmpty then none else some params

/-- The first parameter is `self` or `cls`. -/
def isPythonMethod (text : String) : Bool :=
  match firstParens? text.toList with
  | none => false
  | some params =>
    let first := Text.trim ((params.takeWhile (· != ',')).takeWhile (· != ':'))
    first == "self".toList || first == "cls".toList

def pythonStrip : Kind → List Char → Option (List Char)
  | .function, cs | .method, cs | .class_, cs => Body.stripColon? cs
  | _, cs => some (Text.trim cs)

def python (parser : Tree.Parser) : Profile where
  parser := parser
  query := pythonQuery
  importQuery := some pythonImportQuery
  kinds := [("function_definition", "function"), ("class_definition", "class"),
    ("expression_statement", "variable"), ("assignment", "variable")]
  reclassify := fun _ kind text =>
    some (if kind = .function && isPythonMethod text then .method else kind)
  stripBody := pythonStrip

end Synopsis.Profile
