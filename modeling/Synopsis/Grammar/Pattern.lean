import Synopsis.Tree.Parser

/-! Patterns over syntax trees and the order of their matches. -/
open Synopsis.Tree

namespace Synopsis.Grammar

/-- A node of a kind, held under a field if one is named, with its captures and with
children that match in order. `adjacent` asks for the named sibling directly after the
previous match. -/
inductive Pattern where
  | mk (field kind : String) (adjacent : Bool) (captures : List String)
      (children : List Pattern)
  deriving Inhabited, Repr

def Pattern.adjacent : Pattern → Bool
  | .mk _ _ a _ _ => a

/-- One way to match: the captures, and the last node matched with its depth. -/
structure Way where
  captures : Captures
  last : Node
  depth : Nat

/-- The places where a pattern may match next, each with the places after it. -/
def candidates (adjacent : Bool) : List Place → List (Place × List Place)
  | [] => []
  | p :: ps =>
    if adjacent then
      if p.node.named then [(p, ps)] else candidates adjacent ps
    else (p, ps) :: candidates adjacent ps

mutual

/-- The ways a pattern matches at a place of a given depth, after `seen`. -/
def Pattern.at (depth : Nat) (place : Place) (seen : Captures) : Pattern → List Way
  | .mk field kind _ captures children =>
    let n := place.node
    if n.named && n.kind == kind && (field == "" || n.field == field) then
      Pattern.among (depth + 1) place.children
        ⟨seen ++ captures.map (fun c => (c, place)), n, depth⟩ children
    else []

/-- The ways patterns match siblings in order, after what was found before. -/
def Pattern.among (depth : Nat) (places : List Place) (found : Way) :
    List Pattern → List Way
  | [] => [found]
  | p :: rest =>
    (candidates p.adjacent places).flatMap fun (place, later) =>
      (Pattern.at depth place found.captures p).flatMap fun f =>
        Pattern.among depth later f rest

end

/-- Groups of sibling patterns. -/
abbrev Patterns := List (List Pattern)

mutual

/-- The names under which a pattern captures, in order. -/
def Pattern.captureNames : Pattern → List String
  | .mk _ _ _ captures children => Pattern.captureNamesList children ++ captures

def Pattern.captureNamesList : List Pattern → List String
  | [] => []
  | p :: ps => p.captureNames ++ Pattern.captureNamesList ps

end

/-- A match with what decides its rank: where its last node starts and how deep it lies,
how deep its first node lies, and the number of its group in the query. -/
structure RankedMatch where
  captures : Captures
  lastStart : Nat
  lastDepth : Nat
  depth : Nat
  group : Nat

/-- A match comes when its last node is reached in a walk from the root; of those, the one
that starts higher in the tree, then the earlier group, comes first. -/
def RankedMatch.before (a b : RankedMatch) : Bool :=
  if a.lastStart != b.lastStart then a.lastStart < b.lastStart
  else if a.lastDepth != b.lastDepth then a.lastDepth < b.lastDepth
  else if a.depth != b.depth then a.depth < b.depth
  else a.group ≤ b.group

/-- The matches of one group that begin at a place with the nodes `rest` after it. -/
def groupMatches (number depth : Nat) (place : Place) (rest : List Node) :
    List Pattern → List RankedMatch
  | [] => []
  | p :: ps =>
    (Pattern.at depth place [] p).flatMap fun f =>
      let later := match ps, place.parent with
        | [], _ => []
        | _, some up => Place.childrenFrom up (place.node :: place.before) rest
        | _, none => []
      (Pattern.among depth later f ps).map fun f =>
        ⟨f.captures, f.last.start, f.depth, depth, number⟩

def placeMatches (q : List (Nat × List Pattern)) (depth : Nat) (place : Place)
    (rest : List Node) : List RankedMatch :=
  q.flatMap fun (number, group) => groupMatches number depth place rest group

mutual

/-- The matches that begin in a list of siblings or below them. -/
def siblingMatches (q : List (Nat × List Pattern)) (depth : Nat) (parent : Option Place)
    (before : List Node) : List Node → List RankedMatch
  | [] => []
  | n :: ns =>
    let place := Place.mk n before parent
    placeMatches q depth place ns ++ (innerMatches q depth place n ++
      siblingMatches q depth parent (n :: before) ns)

/-- The matches that begin below a node. -/
def innerMatches (q : List (Nat × List Pattern)) (depth : Nat) (place : Place) :
    Node → List RankedMatch
  | ⟨_, _, _, _, _, _, _, children⟩ => siblingMatches q (depth + 1) (some place) [] children

end

/-- All matches of the groups in a tree, in order. -/
def Patterns.ranked (q : Patterns) (root : Node) : List RankedMatch :=
  (siblingMatches (q.zipIdx.map fun (g, i) => (i, g)) 0 none [] [root]).mergeSort
    RankedMatch.before

/-- The names under which the groups capture, in order of first appearance. -/
def Patterns.captureNames (q : Patterns) : List String :=
  (q.flatMap Pattern.captureNamesList).eraseDups

/-- The query that looks for the patterns. -/
def Patterns.query (q : Patterns) : Query where
  captureNames := q.captureNames
  matchesIn := fun _ root => (q.ranked root).map fun m => ⟨m.captures⟩

end Synopsis.Grammar
