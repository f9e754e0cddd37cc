import Synopsis.Delimiter

/-! Where the body of a declaration starts, and the declaration without it. -/
namespace Synopsis.Body
open Delimiter

/-- What is known after a prefix of the top-level events: whether a parameter list was
closed, the first brace that may open the body, the brace group being read, and the last
complete one as opening offset, end offset and whether it may be the body. -/
structure Groups where
  paramsClosed : Bool
  first : Option Nat := none
  current : Option (Nat × Bool) := none
  last : Option (Nat × Nat × Bool) := none
  deriving DecidableEq, Repr, Inhabited

def Groups.add (g : Groups) (e : Event) : Groups :=
  if !e.topLevel then g
  else match e.token with
    | .closing .paren => { g with paramsClosed := true }
    | .opening .brace =>
      { g with
        current := some (e.pos, g.paramsClosed)
        first := if g.paramsClosed && g.first.isNone then some e.pos else g.first }
    | .closing .brace =>
      match g.current with
      | some (o, valid) => { g with current := none, last := some (o, e.pos + 1, valid) }
      | none => g
    | _ => g

/-- The brace that opens the body: of the last group when the text ends with it, else the
first candidate. -/
def Groups.bodyBrace? (g : Groups) (stop : Nat) : Option Nat :=
  match g.last with
  | some (o, e, true) => if e == stop then some o else g.first
  | _ => g.first

def braceOf (angles afterParams : Bool) (cs : List Char) : Option Nat :=
  let events := scan { angles } cs
  (events.foldl Groups.add { paramsClosed := !afterParams }).bodyBrace?
    (Text.byteLength (Text.trimEnd cs))

/-- Byte offset of the brace that opens the body. Angle brackets count as delimiters first;
when that hides every candidate they do not. -/
def brace? (angles afterParams : Bool) (cs : List Char) : Option Nat :=
  match braceOf angles afterParams cs with
  | some i => some i
  | none => if angles then braceOf false afterParams cs else none

def firstTop? (t : Token) (events : List Event) : Option Nat :=
  (events.find? (fun e => e.topLevel && e.token == t)).map (·.pos)

/-- Byte offset of the first top-level arrow. -/
def arrow? (cs : List Char) : Option Nat :=
  (firstTop? .arrow (scan { angles := true } cs)).or (firstTop? .arrow (scan {} cs))

/-- Byte offset of the first colon outside brackets, literals and hash comments. -/
def colon? (cs : List Char) : Option Nat :=
  firstTop? .colon (scan { slashComments := false, hashComments := true } cs)

/-- The text up to a byte offset, trimmed; the whole trimmed text if there is no offset, it
lies outside, or nothing would be left. `none` if it splits a character. -/
def cutAt? (cs : List Char) (cut : Option Nat) : Option (List Char) :=
  let t := Text.trim cs
  match cut with
  | none => some t
  | some i =>
    if i == 0 || Text.byteLength t < i then some t
    else (Text.takeBytes? i t).map fun head =>
      let h := Text.trimEnd head
      if h.isEmpty then t else h

/-- The trimmed text cut where `finder` says; `none` if that splits a character. -/
def stripAt? (finder : List Char → Option Nat) (cs : List Char) : Option (List Char) :=
  let t := Text.trim cs
  cutAt? t (finder t)

/-- The text without its braced body. -/
def stripBraced? (angles callable : Bool) : List Char → Option (List Char) :=
  stripAt? (brace? angles callable)

/-- The text without what follows its arrow. -/
def stripArrow? : List Char → Option (List Char) := stripAt? arrow?

/-- The text without what follows its colon. -/
def stripColon? : List Char → Option (List Char) := stripAt? colon?

/-- As `stripBraced?`, keeping the whole text where the cut splits a character. -/
def stripBraced (angles callable : Bool) (cs : List Char) : List Char :=
  (stripBraced? angles callable cs).getD (Text.trim cs)

end Synopsis.Body
