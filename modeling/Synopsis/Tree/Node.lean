/-! Syntax trees with their places in the source. -/
namespace Synopsis.Tree

/-- A source text with the row (counted from 0) of every position. -/
structure Source where
  chars : Array Char
  rows : Array Nat
  deriving Inhabited

namespace Source

def size (s : Source) : Nat := s.chars.size

def char? (s : Source) (i : Nat) : Option Char := s.chars[i]?

/-- The row of a position: the number of line feeds before it. -/
def row (s : Source) (i : Nat) : Nat := s.rows[i]?.getD 0

/-- The rows of all positions of a list of characters, the end included. -/
def rowsFrom (row : Nat) : List Char → List Nat
  | [] => [row]
  | c :: cs => row :: rowsFrom (if c == '\n' then row + 1 else row) cs

def ofString (text : String) : Source :=
  let cs := text.toList
  { chars := cs.toArray, rows := (rowsFrom 0 cs).toArray }

/-- The characters from `start` up to `stop`. -/
def slice (s : Source) (start stop : Nat) : String :=
  String.ofList (s.chars.extract start stop).toList

end Source

/-- A node: its kind, whether it is named (and not a piece of punctuation), the field under
which its parent holds it, the positions and rows where it starts and ends, its children. -/
structure Node where
  kind : String
  named : Bool
  field : String
  start : Nat
  stop : Nat
  row : Nat
  endRow : Nat
  children : List Node
  deriving Inhabited, Repr

namespace Node

/-- Kinds treated as comments when looking for documentation. -/
def commentKinds : List String := ["comment", "line_comment", "block_comment"]

def isComment (n : Node) : Bool := commentKinds.contains n.kind

def text (n : Node) (s : Source) : String := s.slice n.start n.stop

end Node

/-- A node in its tree: the siblings before it, nearest first, and the place of its parent. -/
inductive Place where
  | mk (node : Node) (before : List Node) (parent : Option Place)

namespace Place

def node : Place → Node
  | mk n _ _ => n

def before : Place → List Node
  | mk _ b _ => b

def parent : Place → Option Place
  | mk _ _ p => p

def root (n : Node) : Place := mk n [] none

/-- The places of `nodes`, children of `parent`, after the siblings `before`. -/
def childrenFrom (parent : Place) (before : List Node) : List Node → List Place
  | [] => []
  | n :: ns => mk n before (some parent) :: childrenFrom parent (n :: before) ns

def children (p : Place) : List Place := childrenFrom p [] p.node.children

def prevNamed? (p : Place) : Option Node := p.before.find? (·.named)

end Place

end Synopsis.Tree
