import Synopsis.Text.Basic
import Synopsis.Grammar.Pattern

/-! The notation for queries: nodes in parentheses, `field:` before a child, captures with
`@` after a node, `.` between adjacent siblings, comments after a semicolon. Wildcards, choices,
repetitions and predicates are no part of it. -/
namespace Synopsis.Grammar

inductive PatternError where
  | syntaxAt (pos : Nat)
  | unknownKind (pos : Nat) (kind : String)
  | unknownField (pos : Nat) (field : String)
  deriving DecidableEq, Repr, Inhabited

namespace Patterns

inductive Token where
  | opening | closing | anchor | word (w : String) | field (w : String) | capture (w : String)
  | stray
  deriving DecidableEq, Repr, Inhabited

def isNameChar (c : Char) : Bool := c.isAlphanum || c == '_' || c == '-'

/-- The tokens from a position on, each with its position. `skip` characters are passed over
first, and a comment lasts to the end of its line. -/
def tokensFrom (pos skip : Nat) (inComment : Bool) : List Char → List (Nat × Token)
  | [] => []
  | c :: cs =>
    if skip > 0 then tokensFrom (pos + 1) (skip - 1) inComment cs
    else if inComment then tokensFrom (pos + 1) 0 (c != '\n') cs
    else if c == ';' then tokensFrom (pos + 1) 0 true cs
    else if Text.isBlank c then tokensFrom (pos + 1) 0 false cs
    else if c == '(' then (pos, .opening) :: tokensFrom (pos + 1) 0 false cs
    else if c == ')' then (pos, .closing) :: tokensFrom (pos + 1) 0 false cs
    else if c == '.' then (pos, .anchor) :: tokensFrom (pos + 1) 0 false cs
    else if c == '@' then
      let w := cs.takeWhile isNameChar
      (pos, .capture (String.ofList w)) :: tokensFrom (pos + 1) w.length false cs
    else if isNameChar c then
      let w := cs.takeWhile isNameChar
      let name := String.ofList (c :: w)
      if (cs.drop w.length).head? == some ':' then
        (pos, .field name) :: tokensFrom (pos + 1) (w.length + 1) false cs
      else (pos, .word name) :: tokensFrom (pos + 1) w.length false cs
    else (pos, .stray) :: tokensFrom (pos + 1) 0 false cs

/-- The kinds and fields that patterns may name. -/
structure Vocabulary where
  isKind : String → Bool
  isField : String → Bool

/-- The captures that follow a node. -/
def takeCaptures : List (Nat × Token) → List String × List (Nat × Token)
  | (_, .capture w) :: ts => let (ws, r) := takeCaptures ts; (w :: ws, r)
  | ts => ([], ts)

/-- Sibling patterns up to a closing parenthesis or the end, which is left. `field` and
`adjacent` belong to the next one. -/
def siblings (v : Vocabulary) (stop : Nat) :
    Nat → String → Bool → List (Nat × Token) →
      Except PatternError (List Pattern × List (Nat × Token))
  | 0, _, _, ts => .error (.syntaxAt ((ts.head?.map (·.1)).getD stop))
  | fuel + 1, field, adjacent, ts =>
    match ts with
    | (_, .anchor) :: r => siblings v stop fuel field true r
    | (pos, .field f) :: r =>
      if v.isField f then siblings v stop fuel f adjacent r
      else .error (.unknownField pos f)
    | (_, .opening) :: (pos, .word kind) :: r =>
      if !v.isKind kind then .error (.unknownKind pos kind)
      else match siblings v stop fuel "" false r with
        | .ok (children, (_, .closing) :: r) =>
          let (captures, r) := takeCaptures r
          match siblings v stop fuel "" false r with
          | .ok (ps, r) => .ok (.mk field kind adjacent captures children :: ps, r)
          | .error e => .error e
        | .ok (_, r) => .error (.syntaxAt ((r.head?.map (·.1)).getD stop))
        | .error e => .error e
    | (_, .closing) :: _ => .ok ([], ts)
    | [] => .ok ([], [])
    | (pos, _) :: _ => .error (.syntaxAt pos)

/-- Groups up to the end of the query. -/
def groups (v : Vocabulary) (stop : Nat) :
    Nat → List (Nat × Token) → Except PatternError Patterns
  | 0, _ => .ok []
  | fuel + 1, ts =>
    match ts with
    | [] => .ok []
    | (_, .opening) :: (pos, .opening) :: r =>
      match siblings v stop fuel "" false ((pos, .opening) :: r) with
      | .ok (ps, (_, .closing) :: r) => (groups v stop fuel r).map (ps :: ·)
      | .ok (_, r) => .error (.syntaxAt ((r.head?.map (·.1)).getD stop))
      | .error e => .error e
    | (_, .opening) :: _ =>
      match siblings v stop fuel "" false ts with
      | .ok (ps, []) => .ok (ps.map ([·]))
      | .ok (ps, (pos, t) :: r) =>
        if t == .closing then .error (.syntaxAt pos)
        else (groups v stop fuel ((pos, t) :: r)).map (ps.map ([·]) ++ ·)
      | .error e => .error e
    | (pos, _) :: _ => .error (.syntaxAt pos)

/-- Reads a query. -/
def parse (v : Vocabulary) (text : String) : Except PatternError Patterns :=
  let cs := text.toList
  let ts := tokensFrom 0 0 false cs
  groups v cs.length (2 * ts.length + 2) ts

end Patterns

/-- Row and column (from 0) of a position, and the line it stands on. -/
def PatternError.locate (text : String) (pos : Nat) : Nat × Nat × String :=
  let before := text.toList.take pos
  let row := before.count '\n'
  let col := (before.reverse.takeWhile (· != '\n')).length
  let line := ((Text.splitWhere (· == '\n') text.toList)[row]?).getD []
  (row, col, String.ofList line)

def PatternError.position : PatternError → Nat
  | .syntaxAt p => p
  | .unknownKind p _ => p
  | .unknownField p _ => p

/-- The wording of an error in a query's text. -/
def PatternError.message (text : String) (e : PatternError) : String :=
  let (row, col, line) := locate text e.position
  let place := "Query error at " ++ toString (row + 1) ++ ":" ++ toString (col + 1) ++ ". "
  match e with
  | .syntaxAt _ =>
    place ++ "Invalid syntax:\n" ++ line ++ "\n" ++ String.ofList (List.replicate col ' ') ++ "^"
  | .unknownKind _ k => place ++ "Invalid node type \"" ++ k ++ "\""
  | .unknownField _ f => place ++ "Invalid field name \"" ++ f ++ "\""

end Synopsis.Grammar
