import Synopsis.Profile
import Synopsis.Visibility

/-! Java. -/
namespace Synopsis.Profile

def javaQuery : String :=
"(class_declaration
  name: (identifier) @name) @signature @kind

(interface_declaration
  name: (identifier) @name) @signature @kind

(method_declaration
  name: (identifier) @name) @signature @kind

(constructor_declaration
  name: (identifier) @name) @signature @kind

(enum_declaration
  name: (identifier) @name) @signature @kind

(annotation_type_declaration
  name: (identifier) @name) @signature @kind

(record_declaration
  name: (identifier) @name) @signature @kind

(field_declaration
  (variable_declarator
    name: (identifier) @name)) @signature @kind
"

/-- Instance fields are dropped; fields whose text has `static` become variables. -/
def javaReclassify (_ : String) (kind : Kind) (text : String) : Option Kind :=
  if kind = .field then
    if Text.containsWord "static" text then some .variable_ else none
  else some kind

/-- Methods and types lose their body, unless a method ends in a semicolon. -/
def javaStrip : Kind → List Char → Option (List Char)
  | .method, cs | .constructor, cs =>
    let t := Text.trim cs
    if t.getLast? == some ';' then some t else Body.stripBraced? true true t
  | .class_, cs | .interface, cs | .enum, cs | .annotationType, cs | .record, cs =>
    Body.stripBraced? true false cs
  | _, cs => some (Text.trim cs)

def java (parser : Tree.Parser) : Profile where
  parser := parser
  query := javaQuery
  importQuery := some "(import_declaration) @import_path\n"
  kinds := [("class_declaration", "class"), ("interface_declaration", "interface"),
    ("method_declaration", "method"), ("constructor_declaration", "constructor"),
    ("enum_declaration", "enum"), ("annotation_type_declaration", "annotation"),
    ("record_declaration", "record"), ("field_declaration", "field")]
  reclassify := javaReclassify
  isExported := fun name text _ => !name.isEmpty && !Visibility.javaPrivate text
  stripBody := javaStrip

end Synopsis.Profile
