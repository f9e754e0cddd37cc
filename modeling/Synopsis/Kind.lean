/-! What an extracted declaration is, and the records extraction produces. -/
namespace Synopsis

/-- The category of a declaration. `other` keeps a word outside the vocabulary. -/
inductive Kind where
  | function | method | class_ | struct | interface | enum | typedef | macro_ | type
  | variable_ | constructor | destructor | namespace_ | template | record | annotationType
  | field | export_
  | other (word : String)
  deriving DecidableEq, Repr, Inhabited

namespace Kind

/-- The words of the vocabulary, each with its kind. -/
def vocabulary : List (String × Kind) :=
  [("function", function), ("method", method), ("class", class_), ("struct", struct),
   ("interface", interface), ("enum", enum), ("typedef", typedef), ("macro", macro_),
   ("type", type), ("variable", variable_), ("constructor", constructor),
   ("destructor", destructor), ("namespace", namespace_), ("template", template),
   ("record", record), ("annotation", annotationType), ("field", field), ("export", export_)]

/-- The kind named by a word; a word outside the vocabulary is kept. -/
def ofWord (w : String) : Kind := (vocabulary.lookup w).getD (other w)

def word : Kind → String
  | function => "function" | method => "method" | class_ => "class" | struct => "struct"
  | interface => "interface" | enum => "enum" | typedef => "typedef" | macro_ => "macro"
  | type => "type" | variable_ => "variable" | constructor => "constructor"
  | destructor => "destructor" | namespace_ => "namespace" | template => "template"
  | record => "record" | annotationType => "annotation" | field => "field" | export_ => "export"
  | other w => w

def isOther : Kind → Bool
  | other _ => true
  | _ => false

/-- Kinds whose body starts after a parameter list. -/
def isCallable : Kind → Bool
  | function | method | constructor | destructor | export_ => true
  | _ => false

end Kind

/-- One extracted declaration. Lines count from 1 and span the whole declaration. -/
structure Signature where
  name : String
  kind : Kind
  text : String
  doc : String
  line : Nat
  endLine : Nat
  language : String
  exported : Bool
  deriving DecidableEq, Repr, Inhabited

/-- Whether a dependency record brings a name in or gives one out. -/
inductive Direction where
  | import_ | export_
  deriving DecidableEq, Repr, Inhabited

def Direction.word : Direction → String
  | .import_ => "import"
  | .export_ => "export"

/-- One import, include or export statement. -/
structure Dependency where
  direction : Direction
  path : String
  name : String
  line : Nat
  deriving DecidableEq, Repr, Inhabited

/-- How Go declarations are judged public. -/
inductive GoVisibility where
  | capitalized | packageLevel
  deriving DecidableEq, Repr, Inhabited

def GoVisibility.word : GoVisibility → String
  | .capitalized => "capitalized"
  | .packageLevel => "package-level"

def GoVisibility.ofWord? : String → Option GoVisibility
  | "capitalized" => some .capitalized
  | "package-level" => some .packageLevel
  | _ => none

/-- What extraction keeps. -/
structure Options where
  includePrivate : Bool := false
  includeBody : Bool := false
  includeImports : Bool := false
  goVisibility : GoVisibility := .capitalized
  deriving DecidableEq, Repr, Inhabited

end Synopsis
