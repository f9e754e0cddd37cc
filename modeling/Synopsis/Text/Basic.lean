/-! Text as lists of characters: blanks, trimming, words, lines and byte offsets.
Offsets count bytes of the UTF-8 form. -/
namespace Synopsis.Text

/-- The Unicode property `White_Space`. -/
def isBlank (c : Char) : Bool :=
  let n := c.toNat
  (9 ≤ n && n ≤ 13) || n == 0x20 || n == 0x85 || n == 0xA0 || n == 0x1680 ||
    (0x2000 ≤ n && n ≤ 0x200A) || n == 0x2028 || n == 0x2029 || n == 0x202F ||
    n == 0x205F || n == 0x3000

/-- Drops the longest tail on which `p` holds. -/
def dropEndWhile (p : α → Bool) (cs : List α) : List α :=
  (cs.reverse.dropWhile p).reverse

def trimStart (cs : List Char) : List Char := cs.dropWhile isBlank

def trimEnd (cs : List Char) : List Char := dropEndWhile isBlank cs

def trim (cs : List Char) : List Char := trimEnd (trimStart cs)

/-- `trim` on strings. -/
def trimmed (s : String) : String := String.ofList (trim s.toList)

/-- Cuts a list at every element satisfying `p`; `n` separators give `n + 1` pieces. -/
def splitWhere (p : α → Bool) : List α → List (List α)
  | [] => [[]]
  | c :: cs =>
    if p c then [] :: splitWhere p cs
    else match splitWhere p cs with
      | [] => [[c]]
      | w :: ws => (c :: w) :: ws

/-- The maximal runs of non-blank characters. -/
def words (cs : List Char) : List (List Char) :=
  (splitWhere isBlank cs).filter (fun w => !w.isEmpty)

/-- Drops one carriage return at the end. -/
def dropReturn (cs : List Char) : List Char :=
  match cs.reverse with
  | '\r' :: r => r.reverse
  | _ => cs

/-- Pieces between line feeds: each loses one carriage return before its line feed,
and nothing after a final line feed makes no line. -/
def linesAux : List (List Char) → List (List Char)
  | [] => []
  | [l] => if l.isEmpty then [] else [l]
  | l :: l' :: ls => dropReturn l :: linesAux (l' :: ls)

def lines (cs : List Char) : List (List Char) := linesAux (splitWhere (· == '\n') cs)

/-- Number of bytes of the UTF-8 form. -/
def byteLength : List Char → Nat
  | [] => 0
  | c :: cs => c.utf8Size + byteLength cs

/-- The bytes of the UTF-8 form, each as the character of the same number: a byte below 128
is then equal to the character it encodes. -/
def bytes (cs : List Char) : List Char :=
  cs.flatMap fun c => (String.utf8EncodeChar c).map Char.ofUInt8

/-- The characters that make up exactly the first `n` bytes, if `n` is a character boundary. -/
def takeBytes? : Nat → List Char → Option (List Char)
  | 0, _ => some []
  | _ + 1, [] => none
  | n + 1, c :: cs =>
    if c.utf8Size ≤ n + 1 then (takeBytes? (n + 1 - c.utf8Size) cs).map (c :: ·) else none

/-- ASCII letters become lower case and all else stays. -/
def asciiLower (s : String) : String := s.map Char.toLower

/-- `needle` is a contiguous part of the list. -/
def hasInfix (needle : List Char) : List Char → Bool
  | [] => needle.isEmpty
  | c :: cs => needle.isPrefixOf (c :: cs) || hasInfix needle cs

def containsWord (needle text : String) : Bool := hasInfix needle.toList text.toList

/-- Joins pieces with a separator between them. -/
def join (sep : String) : List String → String
  | [] => ""
  | [s] => s
  | s :: t :: r => s ++ sep ++ join sep (t :: r)

/-- Order by code point, which is also the order of the UTF-8 bytes. -/
def le (a b : String) : Bool := !(decide (b < a))

end Synopsis.Text
