import Synopsis.Text.Basic

/-! Delimiters of a declaration's text, found in one pass over its bytes that skips literals
and comments and counts nesting per class. -/
namespace Synopsis.Delimiter

inductive Class where
  | paren | bracket | brace | angle
  deriving DecidableEq, Repr, Inhabited

inductive Token where
  | opening (d : Class)
  | closing (d : Class)
  | arrow
  | colon
  deriving DecidableEq, Repr, Inhabited

/-- A token at a byte offset. `topLevel` says that nothing is open around it. -/
structure Event where
  pos : Nat
  token : Token
  topLevel : Bool
  deriving DecidableEq, Repr, Inhabited

/-- What counts as a delimiter and as a comment. -/
structure Settings where
  angles : Bool := false
  slashComments : Bool := true
  hashComments : Bool := false
  deriving DecidableEq, Repr, Inhabited

/-- How many of each class are open. -/
structure Depth where
  paren : Nat := 0
  bracket : Nat := 0
  brace : Nat := 0
  angle : Nat := 0
  deriving DecidableEq, Repr, Inhabited

namespace Depth

def get (d : Depth) : Class → Nat
  | .paren => d.paren
  | .bracket => d.bracket
  | .brace => d.brace
  | .angle => d.angle

def set (d : Depth) (c : Class) (n : Nat) : Depth :=
  match c with
  | .paren => { d with paren := n }
  | .bracket => { d with bracket := n }
  | .brace => { d with brace := n }
  | .angle => { d with angle := n }

def isZero (d : Depth) : Bool :=
  d.paren == 0 && d.bracket == 0 && d.brace == 0 && d.angle == 0

end Depth

/-- Where the scan stands: in code, in a comment, or in a literal with its quote. `skip`
passes over a fixed number of bytes first. -/
inductive Mode where
  | code
  | lineComment
  | blockComment
  | literal (quote : Char)
  | longLiteral (quote : Char)
  | skip (n : Nat) (next : Mode)
  deriving DecidableEq, Repr, Inhabited

/-- Reached code: not inside a literal, a comment or a token of several characters. -/
structure State where
  mode : Mode := .code
  depth : Depth := {}
  deriving DecidableEq, Repr, Inhabited

def isAsciiBlank (c : Char) : Bool :=
  c == ' ' || c == '\t' || c == '\n' || c == '\r' || c == '\x0c'

/-- The text before (given in reverse) ends in the word `operator`. -/
def afterOperator (before : List Char) : Bool :=
  "rotarepo".toList.isPrefixOf (before.dropWhile isAsciiBlank)

def openClass? (angles : Bool) : Char → Option Class
  | '(' => some .paren
  | '[' => some .bracket
  | '\x7b' => some .brace
  | '<' => if angles then some .angle else none
  | _ => none

def closeClass? (angles : Bool) : Char → Option Class
  | ')' => some .paren
  | ']' => some .bracket
  | '\x7d' => some .brace
  | '>' => if angles then some .angle else none
  | _ => none

def isQuote (c : Char) : Bool := c == '"' || c == '\'' || c == '\x60'

/-- What a byte does: it leads to another mode, or it starts a token. -/
inductive Action where
  | move (mode : Mode)
  | token (t : Token)
  deriving DecidableEq, Repr, Inhabited

/-- What a byte of code does on its own. -/
def singleAction (angles : Bool) (c : Char) : Action :=
  match openClass? angles c, closeClass? angles c with
  | some k, _ => .token (.opening k)
  | none, some k => .token (.closing k)
  | none, none => if c == ':' then .token .colon else .move .code

/-- What a byte of code does, given what precedes it (in reverse) and what follows. -/
def codeAction (s : Settings) (before : List Char) (c : Char) (rest : List Char) : Action :=
  let next := rest.head?
  if c == '#' && s.hashComments then .move .lineComment
  else if isQuote c then
    if c != '\x60' && [c, c].isPrefixOf rest then .move (.skip 2 (.longLiteral c))
    else .move (.literal c)
  else if c == '/' && s.slashComments && next == some '/' then .move .lineComment
  else if c == '/' && s.slashComments && next == some '*' then .move (.skip 1 .blockComment)
  else if c == '=' && next == some '>' then .token .arrow
  else if c == '-' && next == some '>' then .move (.skip 1 .code)
  else if c == '<' && s.angles && (next == some '<' || next == some '=') then
    .move (.skip 1 .code)
  else if c == '<' && s.angles && afterOperator before then .move .code
  else singleAction s.angles c

/-- What a byte does in any mode. A backslash in a literal passes over one byte, which may be
the first of a longer character. -/
def Mode.action (s : Settings) (before : List Char) (c : Char) (rest : List Char) :
    Mode → Action
  | .code => codeAction s before c rest
  | .skip (n + 2) m => .move (.skip (n + 1) m)
  | .skip _ m => .move m
  | .lineComment => .move (if c == '\n' then .code else .lineComment)
  | .blockComment =>
    .move (if c == '*' && rest.head? == some '/' then .skip 1 .code else .blockComment)
  | .literal q =>
    .move (if c == '\\' then .skip 1 (.literal q)
      else if c == q || (c == '\n' && q != '\x60') then .code
      else .literal q)
  | .longLiteral q =>
    .move (if c == q && [q, q].isPrefixOf rest then .skip 2 .code
      else if c == '\\' then .skip 1 (.longLiteral q)
      else .longLiteral q)

/-- The state after an action and the token it gives, with whether nothing is open around it.
A closing delimiter of which nothing is open counts for nothing. -/
def Action.run (d : Depth) : Action → State × Option (Token × Bool)
  | .move m => ({ mode := m, depth := d }, none)
  | .token (.opening k) => ({ depth := d.set k (d.get k + 1) }, some (.opening k, d.isZero))
  | .token (.closing k) =>
    if d.get k == 0 then ({ depth := d }, none)
    else
      let d' := d.set k (d.get k - 1)
      ({ depth := d' }, some (.closing k, d'.isZero))
  | .token .arrow => ({ mode := .skip 1 .code, depth := d }, some (.arrow, d.isZero))
  | .token .colon => ({ depth := d }, some (.colon, d.isZero))

/-- One byte of the scan. -/
def step (s : Settings) (before : List Char) (c : Char) (rest : List Char) (st : State) :
    State × Option (Token × Bool) :=
  (st.mode.action s before c rest).run st.depth

/-- The events of the bytes from offset `pos` on, in state `st`, after the bytes `before`
(reversed). -/
def scanFrom (s : Settings) (before : List Char) (pos : Nat) (st : State) :
    List Char → List Event
  | [] => []
  | c :: rest =>
    let r := step s before c rest st
    let later := scanFrom s (c :: before) (pos + 1) r.1 rest
    match r.2 with
    | some (t, top) => ⟨pos, t, top⟩ :: later
    | none => later

/-- All delimiter events of a text. -/
def scan (s : Settings) (cs : List Char) : List Event :=
  scanFrom s [] 0 {} (Text.bytes cs)

/-- Names of classes and tokens. -/
def Class.word : Class → String
  | .paren => "paren"
  | .bracket => "bracket"
  | .brace => "brace"
  | .angle => "angle"

def Token.word : Token → String
  | .opening d => "open " ++ d.word
  | .closing d => "close " ++ d.word
  | .arrow => "arrow"
  | .colon => "colon"

end Synopsis.Delimiter
