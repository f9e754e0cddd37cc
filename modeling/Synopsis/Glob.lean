import Synopsis.Text.Utf8

/-! Glob patterns over paths, in their documented notation. A pattern is matched against the bytes
of a path: `?` and a class stand for one byte. -/
namespace Synopsis

namespace Glob

/-- A piece of a pattern. -/
inductive Token where
  /-- One character as it is. -/
  | literal (c : Char)
  /-- `?` -/
  | any
  /-- `*` -/
  | star
  /-- `**` at the start. -/
  | leading
  /-- `**` at the end. -/
  | trailing
  /-- `**` between two slashes. -/
  | between
  /-- A class; its ranges are those written between the brackets. -/
  | set (negated : Bool) (ranges : List (Char × Char))
  | choice (branches : List (List Token))
  deriving Repr, Inhabited

end Glob

/-- Why a pattern is malformed. -/
inductive GlobError where
  | unclosedClass | unopenedGroup | unclosedGroup | danglingEscape
  | invalidRange (low high : Char)
  deriving DecidableEq, Repr

def GlobError.message : GlobError → String
  | unclosedClass => "unclosed character class; missing ']'"
  | unopenedGroup =>
    "unopened alternate group; missing '\x7b' (maybe escape '\x7d' with '[\x7d]'?)"
  | unclosedGroup =>
    "unclosed alternate group; missing '\x7d' (maybe escape '\x7b' with '[\x7b]'?)"
  | danglingEscape => "dangling '\\'"
  | invalidRange low high =>
    "invalid range; '" ++ String.singleton low ++ "' > '" ++ String.singleton high ++ "'"

namespace Glob

/-- A pattern being read. Branches and the tokens in them are innermost and latest first;
`groups` holds, for every open group, how many branches were there before it. -/
structure Reader where
  branches : List (List Token) := [[]]
  groups : List Nat := []
  previous : Option Char := none
  /-- A class without an end was found, so brackets stand for themselves. -/
  literalBrackets : Bool := false

namespace Reader

def push (r : Reader) (t : Token) : Reader :=
  match r.branches with
  | [] => r
  | b :: bs => { r with branches := (t :: b) :: bs }

/-- Replaces the latest token. -/
def replace (r : Reader) (t : Token) : Reader :=
  match r.branches with
  | (_ :: b) :: bs => { r with branches := (t :: b) :: bs }
  | _ => r

def latest? (r : Reader) : Option Token := r.branches.head? >>= List.head?

def inGroup (r : Reader) : Bool := !r.groups.isEmpty

def openGroup (r : Reader) : Reader :=
  { r with groups := r.branches.length :: r.groups, branches := [] :: r.branches }

/-- Gathers the branches since the group was opened. -/
def closeGroup (r : Reader) : Except GlobError Reader :=
  match r.groups with
  | [] => .error .unopenedGroup
  | before :: groups =>
    let count := r.branches.length - before
    let branches := ((r.branches.take count).map List.reverse).reverse
    .ok ({ r with groups, branches := r.branches.drop count }.push (.choice branches))

def comma (r : Reader) : Reader :=
  if r.inGroup then { r with branches := [] :: r.branches } else r.push (.literal ',')

/-- Two stars that do not fill a path component are just stars. -/
def plainStars (r : Reader) : Reader := (r.push .star).push .star

end Reader

/-- A character class after its `[`. -/
structure ClassReader where
  ranges : List (Char × Char) := []
  first : Bool := true
  inRange : Bool := false

/-- Ends the latest range at a character. -/
def ClassReader.endRange (k : ClassReader) (c : Char) : Except GlobError ClassReader :=
  match k.ranges with
  | [] => .ok k
  | (low, _) :: rest =>
    if c < low then .error (.invalidRange low c)
    else .ok { ranges := (low, c) :: rest, first := false, inRange := false }

/-- Reads a class up to its `]`: its ranges, its last character and what follows. `none` means
that the class is not closed. -/
def readClass (k : ClassReader) :
    List Char → Except GlobError (Option (List (Char × Char) × List Char))
  | [] => .ok none
  | c :: cs =>
    if c = ']' && !k.first then
      .ok (some ((if k.inRange then ('-', '-') :: k.ranges else k.ranges).reverse, cs))
    else if c = '-' && !k.first && !k.inRange then
      readClass { k with inRange := true } cs
    else if k.inRange then
      match k.endRange c with
      | .ok k => readClass k cs
      | .error e => .error e
    else readClass { ranges := (c, c) :: k.ranges, first := false, inRange := false } cs

def isNegation (c : Char) : Bool := c = '!' || c = '^'

/-- Reads one piece of a pattern: the reader after it, and the characters left. With
`lenient`, a class that is not closed is a plain bracket. -/
def readPiece (lenient : Bool) (r : Reader) (c : Char) (cs : List Char) :
    Except GlobError (Reader × List Char) :=
  let plain := { r with previous := some c }
  match c with
  | '?' => .ok (plain.push .any, cs)
  | '\x7b' => .ok (plain.openGroup, cs)
  | '\x7d' => return (← plain.closeGroup, cs)
  | ',' => .ok (plain.comma, cs)
  | '\\' =>
    match cs with
    | [] => .error .danglingEscape
    | d :: rest => .ok ({ r with previous := some d }.push (.literal d), rest)
  | '[' =>
    if r.literalBrackets then .ok (plain.push (.literal '['), cs)
    else
      let negated := (cs.head?.map isNegation).getD false
      match readClass {} (if negated then cs.drop 1 else cs) with
      | .error e => .error e
      | .ok none =>
        if lenient then .ok ({ plain with literalBrackets := true }.push (.literal '['), cs)
        else .error .unclosedClass
      | .ok (some (ranges, rest)) =>
        .ok ({ r with previous := some ']' }.push (.set negated ranges), rest)
  | '*' =>
    match cs with
    | '*' :: rest =>
      let doubled := { r with previous := some '*' }
      if r.latest?.isNone then
        match rest with
        | [] => .ok (doubled.push .leading, [])
        | '/' :: rest => .ok ({ r with previous := some '/' }.push .leading, rest)
        | _ => .ok (doubled.plainStars, rest)
      else if r.previous != some '/' &&
          (!r.inGroup || (r.previous != some ',' && r.previous != some '\x7b')) then
        .ok (doubled.plainStars, rest)
      else
        let put (r : Reader) (t : Token) : Reader :=
          match r.latest? with
          | some .leading | some .trailing => r
          | _ => r.replace t
        match rest with
        | [] => .ok (put doubled .trailing, [])
        | '/' :: rest => .ok (put { r with previous := some '/' } .between, rest)
        | d :: _ =>
          if (d = ',' || d = '\x7d') && r.inGroup then .ok (put doubled .trailing, rest)
          else .ok (doubled.plainStars, rest)
    | _ => .ok (plain.push .star, cs)
  | c => .ok (plain.push (.literal c), cs)

/-- Reads a pattern in at most as many steps as it has characters. -/
def readAll (lenient : Bool) : Nat → Reader → List Char → Except GlobError Reader
  | _, r, [] => .ok r
  | 0, r, _ => .ok r
  | n + 1, r, c :: cs =>
    match readPiece lenient r c cs with
    | .ok (r, rest) => readAll lenient n r rest
    | .error e => .error e

/-- Reads a pattern as a list of tokens. -/
def read (lenient : Bool) (pattern : String) : Except GlobError (List Token) :=
  match readAll lenient pattern.length {} pattern.toList with
  | .error e => .error e
  | .ok { branches := [b], .. } => .ok b.reverse
  | .ok _ => .error .unclosedGroup

def slash : UInt8 := 47

/-- The bytes of a class as ranges: the characters of a range in their UTF-8 form, with the
range going from the last byte of the first to the first byte of the last. -/
def byteRanges (range : Char × Char) : List (UInt8 × UInt8) :=
  let low := Utf8.encode (String.singleton range.1)
  let high := Utf8.encode (String.singleton range.2)
  if range.1 = range.2 then low.map fun b => (b, b)
  else low.dropLast.map (fun b => (b, b)) ++ [(low.getLast?.getD 0, high.head?.getD 0)] ++
    (high.drop 1).map fun b => (b, b)

def inSet (negated : Bool) (ranges : List (Char × Char)) (b : UInt8) : Bool :=
  negated != (ranges.flatMap byteRanges).any fun (low, high) => low ≤ b && b ≤ high

/-- All that can be left of a list after dropping elements on which `p` holds. -/
def tails (p : α → Bool) : List α → List (List α)
  | [] => [[]]
  | b :: bs => (b :: bs) :: if p b then tails p bs else []

/-- What is left after each slash of a list. -/
def afterSlashes (bs : List UInt8) : List (List UInt8) :=
  (tails (fun _ => true) bs).filterMap fun t =>
    match t with
    | b :: rest => if b = slash then some rest else none
    | [] => none

/-- Keeps one of the lists of each length. They are all ends of one list, so lists of one
length are equal. -/
def distinct (ls : List (List UInt8)) : List (List UInt8) :=
  (ls.foldl (fun (seen, kept) l =>
    if seen.contains l.length then (seen, kept) else (l.length :: seen, l :: kept))
    (([] : List Nat), ([] : List (List UInt8)))).2

mutual

/-- A token that says nothing: a group whose branches all say nothing. -/
def Token.isVoid : Token → Bool
  | .choice branches => areVoid branches
  | _ => false

def isVoidBranch : List Token → Bool
  | [] => true
  | t :: ts => t.isVoid && isVoidBranch ts

def areVoid : List (List Token) → Bool
  | [] => true
  | b :: bs => isVoidBranch b && areVoid bs

end

mutual

/-- All that can be left of a path after a token. With `separated`, `*` and `?` do not match
a slash. Branches that say nothing do not count, unless all of them do. -/
def after (separated : Bool) : Token → List UInt8 → List (List UInt8)
  | .literal c, bs =>
    let form := Utf8.encode (String.singleton c)
    if form.isPrefixOf bs then [bs.drop form.length] else []
  | .any, bs =>
    match bs with
    | b :: rest => if separated && b = slash then [] else [rest]
    | [] => []
  | .star, bs => tails (fun b => !(separated && b = slash)) bs
  | .leading, bs => bs :: afterSlashes bs
  | .trailing, bs =>
    match bs with
    | b :: rest => if b = slash then tails (fun _ => true) rest else []
    | [] => []
  | .between, bs =>
    match bs with
    | b :: rest => if b = slash then rest :: afterSlashes rest else []
    | [] => []
  | .set negated ranges, bs =>
    match bs with
    | b :: rest => if inSet negated ranges b then [rest] else []
    | [] => []
  | .choice branches, bs =>
    if areVoid branches then [bs] else distinct (afterAny separated branches bs)

/-- All that can be left after a list of tokens. -/
def afterAll (separated : Bool) : List Token → List UInt8 → List (List UInt8)
  | [], bs => [bs]
  | t :: ts, bs =>
    distinct ((distinct (after separated t bs)).flatMap fun rest => afterAll separated ts rest)

/-- All that can be left after one of some branches. -/
def afterAny (separated : Bool) : List (List Token) → List UInt8 → List (List UInt8)
  | [], _ => []
  | b :: rest, bs =>
    (if isVoidBranch b then [] else afterAll separated b bs) ++ afterAny separated rest bs

end

end Glob

/-- A pattern that has been read. -/
structure Glob where
  tokens : List Glob.Token
  /-- Wildcards stop at slashes. -/
  separated : Bool := false
  deriving Inhabited

namespace Glob

/-- A pattern whose wildcards match slashes too. -/
def ofPattern (pattern : String) : Except GlobError Glob :=
  (read false pattern).map fun tokens => { tokens }

/-- A pattern of an ignore file: wildcards stop at slashes, and a bracket that is not closed
stands for itself. -/
def ofIgnorePattern (pattern : String) : Except GlobError Glob :=
  (read true pattern).map fun tokens => { tokens, separated := true }

/-- The whole path is what the pattern describes; `**` alone describes every path. -/
def accepts (g : Glob) (path : String) : Bool :=
  match g.tokens with
  | [.leading] => true
  | tokens => (afterAll g.separated tokens (Utf8.encode path)).any List.isEmpty

end Glob

end Synopsis
