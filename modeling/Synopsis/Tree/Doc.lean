import Synopsis.Comment
import Synopsis.Tree.Node

/-! The documentation of a declaration: the comments directly above it. -/
namespace Synopsis.Tree

/-- Nodes that wrap a declaration; comments sit above the wrapper. -/
def wrapperKinds : List String :=
  ["decorated_definition", "export_statement", "template_declaration"]

/-- The place whose preceding siblings hold the documentation: the outermost wrapper that can
be reached without passing a comment. -/
def Place.anchor : Place → Place
  | .mk n before none => .mk n before none
  | .mk n before (some parent) =>
    if wrapperKinds.contains parent.node.kind &&
        !((before.find? (·.named)).any Node.isComment) then parent.anchor
    else .mk n before (some parent)

/-- The run of comments that ends just above row `next`, nearest first: no blank line
between two of them, and none on a row on which its previous sibling ends. -/
def commentRun (next : Nat) : List Node → List Node
  | [] => []
  | n :: rest =>
    if !n.named then commentRun next rest
    else if !n.isComment || n.endRow + 1 < next then []
    else if rest.head?.any (fun p => p.endRow == n.row) then []
    else n :: commentRun n.row rest

/-- The cleaned text of the comments directly above a declaration. -/
def Place.doc (p : Place) (s : Source) : String :=
  let a := p.anchor
  let block := (commentRun a.node.row a.before).reverse.map (fun n => Comment.cleaned (n.text s))
  Text.join "\n" (block.filter (fun c => !c.isEmpty))

end Synopsis.Tree
