import Synopsis.Text.Basic

/-! Slash-separated paths drawn as a directory tree. -/
namespace Synopsis

/-- Named subtrees in the order of their names, each name once. -/
inductive PathTree where
  | node (children : List (String × PathTree))
  deriving Repr, Inhabited

namespace PathTree

def empty : PathTree := node []

/-- The non-empty names of a path. -/
def names (path : String) : List String :=
  ((Text.splitWhere (· == '/') path.toList).filter (fun w => !w.isEmpty)).map String.ofList

/-- Changes the subtree of a name, which is empty if the name is new. -/
def place (name : String) (change : PathTree → PathTree) :
    List (String × PathTree) → List (String × PathTree)
  | [] => [(name, change empty)]
  | (n, t) :: children =>
    if name < n then (name, change empty) :: (n, t) :: children
    else if name = n then (n, change t) :: children
    else (n, t) :: place name change children

/-- Adds a path, given by its names. -/
def insert : List String → PathTree → PathTree
  | [], t => t
  | name :: rest, node children => node (place name (insert rest) children)

def ofPaths (paths : List String) : PathTree :=
  paths.foldl (fun t p => insert (names p) t) empty

mutual

/-- The lines below a node that stands at the given indentation. -/
def linesBelow (indent : String) : PathTree → List String
  | node children => childLines indent children

def childLines (indent : String) : List (String × PathTree) → List String
  | [] => []
  | [(name, t)] => (indent ++ "└── " ++ name) :: linesBelow (indent ++ "    ") t
  | (name, t) :: next :: rest =>
    (indent ++ "├── " ++ name) :: linesBelow (indent ++ "│   ") t ++
      childLines indent (next :: rest)

end

/-- One line for each name; the outermost names carry no connector. -/
def lines : PathTree → List String
  | node children => children.flatMap fun (name, t) => name :: linesBelow "" t

/-- The drawing, without line feeds at its end. -/
def render (t : PathTree) : String :=
  String.ofList (Text.dropEndWhile (· == '\n') (Text.join "\n" t.lines).toList)

end PathTree

/-- The drawing of a list of paths. -/
def drawPaths (paths : List String) : String := (PathTree.ofPaths paths).render

end Synopsis
