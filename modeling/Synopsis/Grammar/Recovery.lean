import Synopsis.Grammar.Rule

/-! Syntax trees of whole sources. A source that does not fit its grammar is repaired at the
least cost: a closing token is put in where one is missing, or a stretch of text is left out
and becomes an `ERROR` node, which keeps the whole constructs in it. The costs are a choice of this
parser; another may repair the same source in another way. -/
open Synopsis.Tree

namespace Synopsis.Grammar

variable {σ : Type}

/-- Where the items of a source stop fitting: the items before, the start of the next one, the
furthest position it got to, and the closing tokens it lacked. -/
structure Stuck where
  items : List Node
  start : Nat
  reach : Nat
  wanted : List (Nat × String)

/-- The top-level items from a position on, in reverse, or where they stop fitting. -/
def Rules.items (g : Rules σ) (fix : Repairs) (s : Source) (depth : Nat) :
    Nat → Nat → List Node → Memo → Except Stuck (List Node)
  | 0, _, acc, _ => .ok acc
  | fuel + 1, pos, acc, m =>
    let (acc', i) := skipTrivia g.trivia fix.dropped s s.size (s.size + 1) pos acc
    if i ≥ s.size then .ok acc'
    else match g.run fix s depth (.call g.item) g.context [] pos acc m.forget with
      | (some (acc', j), m) =>
        if j ≤ pos then .error ⟨acc, i, max i m.reach, m.wanted⟩
        else g.items fix s depth fuel j acc' m
      | (none, m) => .error ⟨acc, i, max i m.reach, m.wanted⟩

/-! ## Pieces of text -/

/-- Where the next piece of text starts. -/
def Rules.next (g : Rules σ) (s : Source) (i : Nat) : Nat :=
  (skipTrivia g.trivia [] s s.size (s.size + 1) i []).2

/-- The end of a run of word characters. -/
def wordEnd (s : Source) : Nat → Nat → Nat
  | 0, i => i
  | fuel + 1, i => if Rule.isWordAt s i then wordEnd s fuel (i + 1) else i

/-- The end of a piece of text that is left out as a whole: a word, possibly after a hash, or
one character. -/
def pieceEnd (s : Source) (i : Nat) : Nat :=
  let j := if s.char? i == some '#' then i + 1 else i
  max (i + 1) (wordEnd s s.size j)

/-- The starts and ends of the pieces from a position up to a limit, and of at most `extra`
more. -/
def Rules.pieces (g : Rules σ) (s : Source) (limit : Nat) :
    Nat → Nat → Nat → List (Nat × Nat)
  | 0, _, _ => []
  | fuel + 1, extra, pos =>
    let i := g.next s pos
    if i ≥ s.size then []
    else
      let e := pieceEnd s i
      if i < limit then (i, e) :: g.pieces s limit fuel extra e
      else match extra with
        | 0 => []
        | extra + 1 => (i, e) :: g.pieces s limit fuel extra e

/-- The first of several constructs that stands whole at a position and ends by `limit`. -/
def Rules.fragment (g : Rules σ) (s : Source) (depth limit pos : Nat) :
    List σ → Memo → Option (List Node × Nat) × Memo
  | [], m => (none, m)
  | sym :: rest, m =>
    match g.run {} s depth (.call sym) g.context [] pos [] m with
    | (some (nodes, j), m) =>
      if pos < j && j ≤ limit then (some (nodes, j), m) else g.fragment s depth limit pos rest m
    | (none, m) => g.fragment s depth limit pos rest m

/-- The bracket that closes one. -/
def closer? : Char → Option Char
  | '(' => some ')'
  | '[' => some ']'
  | '\x7b' => some '\x7d'
  | _ => none

/-- Where the innermost of several open brackets, given by what closes them, and all around it
are closed, at the latest before `limit`. -/
def Rules.closing? (g : Rules σ) (s : Source) (limit : Nat) :
    Nat → Nat → List Char → Option Nat
  | 0, _, _ => none
  | _, _, [] => none
  | fuel + 1, pos, c :: outer =>
    let i := g.next s pos
    if i ≥ limit then none
    else if s.char? i == some c then
      if outer.isEmpty then some i else g.closing? s limit fuel (i + 1) outer
    else match (s.char? i).bind closer? with
      | some d => g.closing? s limit fuel (i + 1) (d :: c :: outer)
      | none => g.closing? s limit fuel (pieceEnd s i) (c :: outer)

/-- What a stretch of text holds, in reverse: constructs that end by `limit`, and else pieces
and brackets with what is between them. -/
def Rules.contents (g : Rules σ) (s : Source) (depth : Nat) :
    Nat → Nat → Nat → List Node → Memo → List Node
  | 0, _, _, acc, _ => acc
  | fuel + 1, limit, pos, acc, m =>
    let (acc', i) := skipTrivia g.trivia [] s limit (s.size + 1) pos acc
    if i ≥ limit then acc'
    else match g.fragment s depth limit i g.fragments m with
      | (some (nodes, j), m) => g.contents s depth fuel limit j (nodes ++ acc') m
      | (none, m) =>
        match ((s.char? i).bind closer?).bind fun c => g.closing? s limit s.size (i + 1) [c] with
        | some j =>
          let inner := g.contents s depth fuel j (i + 1) [] m
          let group := mkNode s "token" false i (j + 1) inner.reverse
          g.contents s depth fuel limit (j + 1) (group :: acc') m
        | none =>
          let e := pieceEnd s i
          g.contents s depth fuel limit e (mkNode s "token" false i e [] :: acc') m

/-! ## Search for the cheapest repairs -/

/-- The cost of putting in a token. -/
def insertionCost : Nat := 610

/-- The cost of leaving out a stretch: it grows with its parts, characters and lines. -/
def droppingCost (n : Node) : Nat :=
  500 + 100 * (n.children.filter fun c => !isExtra c).length + (n.stop - n.start) +
    30 * (n.endRow - n.row)

/-- Repairs with their cost, and how far they get. -/
structure Attempt where
  cost : Nat
  fix : Repairs
  outcome : Except Stuck (List Node)

/-- A repair to try, its cost, and the position of the token that has to fit after it. -/
structure Candidate where
  cost : Nat
  fix : Repairs
  resume : Nat

/-- Leaves out the stretch from a position to another, of which `parts` is the content up to
where the items stop fitting and `more` the pieces after that. -/
def Rules.drop (g : Rules σ) (s : Source) (start : Nat) (parts : List Node)
    (more : List (Nat × Nat)) : Candidate :=
  let tokens := more.map fun (i, e) => mkNode s "token" false i e []
  let children := parts.reverse ++ tokens
  let stop := (children.getLast?.map (·.stop)).getD start
  let n := mkNode s "ERROR" true start stop children
  { cost := droppingCost n, fix := { dropped := [(start, n)] }, resume := g.next s stop }

/-- How many pieces before and after the furthest position may be left out. -/
def window : Nat := 16

/-- The single repairs to try where the items stop fitting: closing tokens at the furthest
position, and stretches of text that it lies in or next to. -/
def Rules.candidates (g : Rules σ) (s : Source) (depth : Nat) (stuck : Stuck) :
    List Candidate :=
  let before := (g.pieces s stuck.reach s.size 0 stuck.start).map (·.1)
  let near := before.drop (before.length - window)
  let starts := (stuck.start :: near ++ [stuck.reach]).eraseDups
  let after := g.pieces s 0 s.size window stuck.reach
  let insertions := (stuck.wanted.filter fun x => x.1 == stuck.reach).map fun x =>
    { cost := insertionCost, fix := { inserted := [x] }, resume := x.1 : Candidate }
  let droppings := starts.flatMap fun i =>
    let parts := g.contents s depth s.size stuck.reach i [] (.empty s.size)
    (List.range (after.length + 1)).filterMap fun k =>
      if parts.isEmpty && k == 0 then none else some (g.drop s i parts (after.take k))
  (insertions ++ droppings).mergeSort fun a b => a.cost ≤ b.cost

/-- Both repairs together. A stretch that starts where another does replaces it. -/
def Repairs.add (a b : Repairs) : Repairs :=
  ⟨b.inserted ++ a.inserted, b.dropped ++ a.dropped⟩

/-- How many tokens were put in below some nodes. -/
def insertedIn : List Node → Nat
  | [] => 0
  | ⟨kind, _, _, start, stop, _, _, children⟩ :: rest =>
    (if start == stop && Memo.closers.contains kind then 1 else 0) +
      insertedIn children + insertedIn rest

/-- The items that an attempt has read. -/
def Attempt.items (a : Attempt) : List Node :=
  match a.outcome with
  | .ok items => items
  | .error stuck => stuck.items

/-- An attempt gets past a position. -/
def Attempt.passes (a : Attempt) (pos : Nat) : Bool :=
  match a.outcome with
  | .ok _ => true
  | .error stuck => pos < stuck.reach

/-- Two attempts are stuck at the same point. -/
def Attempt.isLike (a b : Attempt) : Bool :=
  match a.outcome, b.outcome with
  | .error x, .error y => x.start == y.start && x.reach == y.reach
  | _, _ => false

/-- Puts an attempt in its place by cost, unless two that are stuck at the same point are
cheaper. -/
def insertAttempt (a : Attempt) (like : Nat) : List Attempt → List Attempt
  | [] => if like < 2 then [a] else []
  | b :: rest =>
    if a.cost < b.cost then if like < 2 then a :: b :: rest else b :: rest
    else b :: insertAttempt a (if a.isLike b then like + 1 else like) rest

/-- Continues an attempt with one more repair. A token may be put in several times at one
place. -/
def Rules.retry (g : Rules σ) (s : Source) (depth : Nat) (a : Attempt) (stuck : Stuck)
    (c : Candidate) : Attempt :=
  let fix := a.fix.add c.fix
  let b : Attempt :=
    { cost := a.cost + c.cost, fix
      outcome := g.items fix s depth (2 * s.size + 2) stuck.start stuck.items (.empty s.size) }
  let again := insertedIn b.items - insertedIn stuck.items -
    (fix.inserted.filter fun x => stuck.start ≤ x.1).length
  { b with cost := b.cost + insertionCost * again }

/-- How many pieces of text an attempt gets past a position. -/
def Rules.headway (g : Rules σ) (s : Source) (pos : Nat) (a : Attempt) : Nat :=
  let limit := match a.outcome with
    | .ok _ => s.size
    | .error stuck => stuck.reach
  (g.pieces s limit s.size 0 pos).length

/-- A cheaper attempt that gets far, given with its headway, makes a dearer one pointless. -/
def isPointless (cost : Nat) (known : List (Attempt × Nat)) : Bool :=
  known.any fun (a, n) => a.cost < cost && (cost - a.cost) * (1 + 2 * n) > 1800

/-- The attempts that continue one with a candidate after which the next token fits. -/
def Rules.extensions (g : Rules σ) (s : Source) (depth : Nat) (a : Attempt) (stuck : Stuck)
    (cs : List Candidate) : List Attempt :=
  let known := cs.foldl (fun known c =>
    if isPointless (a.cost + c.cost) known then known
    else
      let b := g.retry s depth a stuck c
      if b.passes c.resume then (b, g.headway s stuck.reach b) :: known else known) []
  known.reverse.map (·.1)

/-- Gives up on the piece of text at which the items stop fitting. -/
def Rules.giveUp (g : Rules σ) (s : Source) (depth : Nat) (a : Attempt) (stuck : Stuck) :
    Attempt :=
  g.retry s depth a stuck (g.drop s stuck.start [] [(stuck.start, pieceEnd s stuck.start)])

/-- Leaves out piece after piece until the rest fits. -/
def Rules.settle (g : Rules σ) (s : Source) (depth : Nat) : Nat → Attempt → List Node
  | 0, a => match a.outcome with
    | .ok items => items
    | .error stuck => stuck.items
  | fuel + 1, a => match a.outcome with
    | .ok items => items
    | .error stuck => g.settle s depth fuel (g.giveUp s depth a stuck)

/-- Extends the cheapest attempt until it succeeds. -/
def Rules.search (g : Rules σ) (s : Source) (depth : Nat) : Nat → List Attempt → List Node
  | _, [] => []
  | 0, a :: _ => g.settle s depth s.size a
  | fuel + 1, a :: rest =>
    match a.outcome with
    | .ok items => items
    | .error stuck =>
      let next := g.extensions s depth a stuck (g.candidates s depth stuck)
      let next := if next.isEmpty then [g.giveUp s depth a stuck] else next
      g.search s depth fuel ((next.foldl (fun q b => insertAttempt b 0 q) rest).take 32)

/-- How many attempts are extended before the rest of the source is settled piece by piece. -/
def patience : Nat := 48

/-- The syntax tree of a source. -/
def Rules.parse (g : Rules σ) (text : String) : Node :=
  let s := Source.ofString text
  let n := s.size
  let depth := 256 * (n + 64)
  let outcome := g.items {} s depth (2 * n + 2) 0 [] (.empty n)
  let items := match outcome with
    | .ok items => items
    | .error _ => g.search s depth patience [⟨0, {}, outcome⟩]
  mkNode s g.root true 0 n (items.reverse.filter (·.kind != ""))

end Synopsis.Grammar
