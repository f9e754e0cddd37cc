import Synopsis.Text.Basic

/-! Comments without their markers. -/
namespace Synopsis.Comment
open Text

/-- A line of a block comment without its indentation and one leading star. -/
def bareLine (l : List Char) : List Char :=
  match trim l with
  | '*' :: r => trimStart r
  | t => t

def joinLines : List (List Char) → List Char
  | [] => []
  | [l] => l
  | l :: m :: r => l ++ '\n' :: joinLines (m :: r)

/-- What a block comment says, given what follows its opening marker. -/
def blockBody (body : List Char) : List Char :=
  let body := if ['/', '*'].isPrefixOf body.reverse then body.take (body.length - 2) else body
  let body := body.dropWhile (fun c => c == '*' || c == '!')
  trim (joinLines ((lines body).map bareLine))

/-- A comment without slashes, stars and hashes that mark it. -/
def clean (cs : List Char) : List Char :=
  match trim cs with
  | '/' :: '*' :: body => blockBody body
  | '/' :: '/' :: body =>
    trim ((body.dropWhile (· == '/')).dropWhile (· == '!'))
  | '#' :: body => trim (body.dropWhile (· == '#'))
  | t => t

/-- `clean` on strings. -/
def cleaned (s : String) : String := String.ofList (clean s.toList)

end Synopsis.Comment
