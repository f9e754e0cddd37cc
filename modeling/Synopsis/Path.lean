import Synopsis.Text.Basic

/-! Slash-separated paths as text. Empty parts and parts `.` after the first position say
nothing. -/
namespace Synopsis.Path

/-- The parts between slashes. -/
def parts (path : String) : List (List Char) := Text.splitWhere (· == '/') path.toList

def isAbsolute (path : String) : Bool := path.toList.head? == some '/'

/-- The parts that say something; a leading `.` does. -/
def components (path : String) : List (List Char) :=
  match parts path with
  | [] => []
  | first :: rest =>
    (if first.isEmpty then [] else [first]) ++ rest.filter fun w => !w.isEmpty && w != ['.']

/-- The name a path ends in; a path that ends in `..` or is only `.` has none. -/
def fileName? (path : String) : Option String :=
  match (components path).getLast? with
  | some w => if w == ['.', '.'] || w == ['.'] then none else some (String.ofList w)
  | none => none

/-- What follows the last dot of a file name, unless that dot starts the name. -/
def extension? (path : String) : Option String := do
  let name ← fileName? path
  match name.toList.reverse.span (· != '.') with
  | (_, []) => none
  | (_, [_]) => none
  | (ext, _) => some (String.ofList ext.reverse)

/-- A path continued by a relative one. -/
def join (base rest : String) : String :=
  if base.isEmpty || base.toList.getLast? == some '/' then base ++ rest else base ++ "/" ++ rest

/-- Drops slashes and parts `.` at the end, given the parts in reverse order. -/
def dropIdle : List (List Char) → List (List Char)
  | [] => []
  | [w] => [w]
  | w :: v :: rest => if w.isEmpty || w == ['.'] then dropIdle (v :: rest) else w :: v :: rest

def ofParts (ws : List (List Char)) : String :=
  Text.join "/" (ws.map String.ofList)

/-- The path without its last component, if it has one. -/
def parent? (path : String) : Option String :=
  match dropIdle (parts path).reverse with
  | [] => none
  | [w] => if w.isEmpty then none else some ""
  | _ :: rest =>
    match dropIdle rest with
    | [[]] => some "/"
    | ws => some (ofParts ws.reverse)

/-- Drops one leading `./`. -/
def withoutDot (path : String) : String :=
  match path.toList with
  | '.' :: '/' :: rest => String.ofList rest
  | _ => path

end Synopsis.Path
