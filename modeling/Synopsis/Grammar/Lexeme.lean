import Synopsis.Grammar.Rule
import Synopsis.Text.Basic

/-! Scanners for the tokens and comments that several languages share. -/
open Synopsis.Tree

namespace Synopsis.Grammar.Lexeme

/-- The end of the longest run of characters satisfying `p`. -/
def runEnd (p : Char → Bool) (s : Source) : Nat → Nat → Nat
  | 0, i => i
  | fuel + 1, i => if (s.char? i).any p then runEnd p s fuel (i + 1) else i

def skipWhile (p : Char → Bool) (s : Source) (i : Nat) : Nat := runEnd p s s.size i

/-- The characters from `i` up to `j`. -/
def between (s : Source) (i j : Nat) : List Char := (s.chars.extract i j).toList

/-- Characters beyond ASCII count as letters, blanks among them excepted. -/
def isWide (c : Char) : Bool := c.toNat ≥ 128 && !Text.isBlank c

def isWordStart (c : Char) : Bool := c.isAlpha || c == '_' || isWide c

def isWordRest (c : Char) : Bool := c.isAlphanum || c == '_' || isWide c

/-- A word that is not reserved. -/
def word (first rest : Char → Bool) (reserved : List String) : Scan :=
  let taken := reserved.map String.toList
  fun s i =>
    if (s.char? i).any first then
      let j := skipWhile rest s (i + 1)
      if taken.contains (between s i j) then none else some j
    else none

def identifier (reserved : List String) : Scan := word isWordStart isWordRest reserved

/-- A number in the widest sense: digits, letters, dots, and a sign after an exponent mark. -/
def numberEnd (s : Source) : Nat → Nat → Nat
  | 0, i => i
  | fuel + 1, i =>
    match s.char? i with
    | some c =>
      if c.isAlphanum || c == '_' || c == '.' then
        let next := s.char? (i + 1)
        if (c == 'e' || c == 'E' || c == 'p' || c == 'P') && (next == some '+' || next == some '-')
            && (s.char? (i + 2)).any Char.isDigit then numberEnd s fuel (i + 2)
        else numberEnd s fuel (i + 1)
      else i
    | none => i

def number : Scan := fun s i =>
  match s.char? i with
  | some c =>
    if c.isDigit || (c == '.' && (s.char? (i + 1)).any Char.isDigit) then
      some (numberEnd s s.size i)
    else none
  | none => none

/-- The end of a literal after its opening quote: `quote` closes it, a backslash takes the
next character with it, and a line feed breaks it unless `lines`. -/
def quotedEnd (quote : Char) (escapes lines : Bool) (s : Source) : Nat → Nat → Option Nat
  | 0, _ => none
  | fuel + 1, i =>
    match s.char? i with
    | none => none
    | some c =>
      if c == quote then some (i + 1)
      else if c == '\\' && escapes then quotedEnd quote escapes lines s fuel (i + 2)
      else if c == '\n' && !lines then none
      else quotedEnd quote escapes lines s fuel (i + 1)

def quoted (quote : Char) (escapes lines : Bool) : Scan := fun s i =>
  if s.char? i == some quote then quotedEnd quote escapes lines s s.size (i + 1) else none

/-- The end of the first occurrence of a text at or after a position. -/
def findEnd (mark : List Char) (s : Source) : Nat → Nat → Option Nat
  | 0, _ => none
  | fuel + 1, i =>
    match Rule.literalEnd s mark i with
    | some j => some j
    | none => if i ≥ s.size then none else findEnd mark s fuel (i + 1)

/-- A comment from `//` to the end of the line. -/
def lineComment (mark : List Char) : Scan := fun s i =>
  (Rule.literalEnd s mark i).map (skipWhile (· != '\n') s)

/-- A comment between `/*` and `*/`. -/
def blockComment : Scan := fun s i =>
  (Rule.literalEnd s ['/', '*'] i).bind (findEnd ['*', '/'] s s.size)

def isSpace (c : Char) : Bool := c == ' ' || (9 ≤ c.toNat && c.toNat ≤ 13)

/-- A mark at the very start that says how the text is encoded. -/
def isByteOrderMark (c : Char) : Bool := c.toNat == 0xFEFF

/-- Blanks, and comments as in C. -/
def slashTrivia (line block : String) (s : Source) (i : Nat) : Option (Nat × String) :=
  match s.char? i with
  | none => none
  | some c =>
    if isSpace c || (isByteOrderMark c && i == 0) then some (i + 1, "")
    else if c == '/' then
      match lineComment ['/', '/'] s i with
      | some j => some (j, line)
      | none => (blockComment s i).map (·, block)
    else none

/-- Where the next token starts. -/
def tokenStart (trivia : Source → Nat → Option (Nat × String)) (s : Source) (i : Nat) : Nat :=
  (skipTrivia trivia [] s s.size (s.size + 1) i []).2

/-- The next token stands on this line. -/
def sameLine (trivia : Source → Nat → Option (Nat × String)) (s : Source) (i : Nat) : Bool :=
  let j := tokenStart trivia s i
  j < s.size && s.row j == s.row i

/-- Nothing but blanks and comments follows. -/
def atEnd (trivia : Source → Nat → Option (Nat × String)) (s : Source) (i : Nat) : Bool :=
  tokenStart trivia s i ≥ s.size

end Synopsis.Grammar.Lexeme
