import Synopsis.Kind
import Synopsis.Text.Basic

/-! Which declarations are public. -/
namespace Synopsis.Visibility

/-- A Go name is exported when it starts with an ASCII capital, or always at package level
unless it is empty. -/
def goExported (name : String) : GoVisibility → Bool
  | .capitalized => name.toList.head?.any Char.isUpper
  | .packageLevel => !name.isEmpty

/-- Words that begin the declaration proper; modifiers never follow them. -/
def javaKeywords : List (List Char) :=
  ["class", "interface", "enum", "void", "@interface", "record"].map String.toList

/-- Paren depth after a word, never below zero. -/
def parenBalance (depth : Nat) (word : List Char) : Nat :=
  word.foldl (fun d c => if c == '(' then d + 1 else if c == ')' then d - 1 else d) depth

def endsModifiers (w : List Char) : Bool :=
  javaKeywords.contains w || w.any (fun c => c == '(' || c == '\x7b' || c == '=' || c == ';')

/-- `private` occurs among the modifier words; annotations with their arguments are passed
over, `depth` being the parens open inside one. -/
def privateAmong (depth : Nat) : List (List Char) → Bool
  | [] => false
  | w :: ws =>
    if depth > 0 then privateAmong (parenBalance depth w) ws
    else if w.head? == some '@' && w != "@interface".toList then
      privateAmong (parenBalance 0 w) ws
    else if w == "private".toList then true
    else if endsModifiers w then false
    else privateAmong 0 ws

/-- A Java declaration is private when `private` is one of its leading modifiers. -/
def javaPrivate (text : String) : Bool := privateAmong 0 (Text.words text.toList)

end Synopsis.Visibility
