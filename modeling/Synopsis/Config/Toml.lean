import Synopsis.Text.Basic

/-! TOML documents, as the format is documented. A document is read line by line into tables; every
table remembers how it came about, which decides what may still be added to it. -/
namespace Synopsis.Toml

/-- How a table came about. -/
inductive Origin where
  /-- As part of the path of a header. -/
  | implied
  /-- By a header of its own. -/
  | header
  /-- As part of a dotted key. -/
  | dotted
  /-- Written between braces. -/
  | inline
  deriving DecidableEq, Repr

inductive Item where
  | str (s : String)
  | int (n : Int)
  | bool (b : Bool)
  | float
  | dateTime
  | array (items : List Item)
  /-- The tables of a repeated header, the latest last. -/
  | tables (items : List Item)
  | table (origin : Origin) (fields : List (String × Item))
  deriving Repr, Inhabited

abbrev Fields := List (String × Item)

/-- Puts an item in place of the one with its key, or at the end. -/
def setField (key : String) (item : Item) : Fields → Fields
  | [] => [(key, item)]
  | (k, i) :: fs => if k = key then (k, item) :: fs else (k, i) :: setField key item fs

/-! ## Where things go -/

/-- A step to a table: by the path of a header, or by a dotted key. -/
structure Step where
  key : String
  viaKey : Bool

/-- Changes the table that some steps lead to; missing tables are made. -/
def change (f : Origin → Fields → Option (Origin × Fields)) :
    List Step → Origin → Fields → Option (Origin × Fields)
  | [], origin, fields => f origin fields
  | s :: steps, origin, fields => do
    let item ← match fields.lookup s.key with
      | none => do
        let (o, fs) ← change f steps (if s.viaKey then .dotted else .implied) []
        pure (Item.table o fs)
      | some (.table o fs) => do
        guard (o ≠ .inline && (!s.viaKey || o ≠ .header))
        let (o, fs) ← change f steps o fs
        pure (Item.table o fs)
      | some (.tables items) =>
        match items.getLast? with
        | some (.table o fs) => do
          let (o, fs) ← change f steps o fs
          pure (Item.tables (items.dropLast ++ [.table o fs]))
        | _ => none
      | some _ => none
    return (origin, setField s.key item fields)

/-- Adds a new key. Tables made by dotted keys only grow by dotted keys, and others by plain
keys. -/
def addKey (isDotted : Bool) (key : String) (item : Item) (origin : Origin) (fields : Fields) :
    Option (Origin × Fields) := do
  guard ((origin == .dotted) == isDotted)
  guard (fields.lookup key).isNone
  return (origin, fields ++ [(key, item)])

/-- Opens a table. One that is only implied so far may be opened once. -/
def openTable (key : String) (origin : Origin) (fields : Fields) : Option (Origin × Fields) :=
  match fields.lookup key with
  | none => some (origin, fields ++ [(key, .table .header [])])
  | some (.table .implied fs) => some (origin, setField key (.table .header fs) fields)
  | some _ => none

/-- Opens a further table of a repeated header. -/
def openNext (key : String) (origin : Origin) (fields : Fields) : Option (Origin × Fields) :=
  match fields.lookup key with
  | none => some (origin, fields ++ [(key, .tables [.table .header []])])
  | some (.tables items) =>
    some (origin, setField key (.tables (items ++ [.table .header []])) fields)
  | some _ => none

/-- Adds the item of a key, dotted or not, to the table that some steps lead to. -/
def addAt (steps : List Step) (keys : List String) (item : Item) (origin : Origin)
    (fields : Fields) : Option (Origin × Fields) :=
  match keys.getLast? with
  | none => none
  | some key =>
    change (addKey (1 < keys.length) key item)
      (steps ++ keys.dropLast.map fun k => ⟨k, true⟩) origin fields

/-! ## Text -/

/-- What a reader takes from the text, and what it leaves; `none` if the text is malformed. -/
abbrev Reader (α : Type) := List Char → Option (α × List Char)

def isSpace (c : Char) : Bool := c = ' ' || c = '\t'

def skipSpace (cs : List Char) : List Char := cs.dropWhile isSpace

/-- Characters that may stand in comments and literal strings. -/
def isPrintable (c : Char) : Bool := c = '\t' || (32 ≤ c.toNat && c.toNat ≠ 127)

/-- The text after one line end. -/
def lineEnd? : List Char → Option (List Char)
  | '\n' :: cs => some cs
  | '\r' :: '\n' :: cs => some cs
  | _ => none

def skipComment : List Char → List Char
  | '#' :: cs => cs.dropWhile isPrintable
  | cs => cs

/-- After a header or a value nothing but a comment may follow on the line. -/
def finishLine (cs : List Char) : Option (List Char) :=
  match skipComment (skipSpace cs) with
  | [] => some []
  | rest => lineEnd? rest

/-- Spaces, comments and line ends between the parts of a value. -/
def skipLines : Nat → List Char → Option (List Char)
  | 0, cs => some cs
  | n + 1, cs =>
    match skipSpace cs with
    | '#' :: rest => do skipLines n (← lineEnd? (rest.dropWhile isPrintable))
    | rest =>
      match lineEnd? rest with
      | some rest => skipLines n rest
      | none => some rest

/-! ## Strings -/

def hexValue? (c : Char) : Option Nat :=
  if '0' ≤ c && c ≤ '9' then some (c.toNat - 48)
  else if 'a' ≤ c && c ≤ 'f' then some (c.toNat - 87)
  else if 'A' ≤ c && c ≤ 'F' then some (c.toNat - 55)
  else none

/-- A character given by exactly `n` hexadecimal digits. -/
def codePoint? (n : Nat) (cs : List Char) : Option (Char × List Char) := do
  let digits := cs.take n
  guard (digits.length = n)
  let value ← digits.foldlM (fun v c => (hexValue? c).map (v * 16 + ·)) 0
  guard (value < 0xD800 || (0xDFFF < value && value < 0x110000))
  return (Char.ofNat value, cs.drop n)

/-- What follows a backslash. -/
def escape? : List Char → Option (Char × List Char)
  | 'b' :: cs => some ('\x08', cs)
  | 't' :: cs => some ('\t', cs)
  | 'n' :: cs => some ('\n', cs)
  | 'f' :: cs => some ('\x0c', cs)
  | 'r' :: cs => some ('\r', cs)
  | 'e' :: cs => some ('\x1b', cs)
  | '"' :: cs => some ('"', cs)
  | '\\' :: cs => some ('\\', cs)
  | 'x' :: cs => codePoint? 2 cs
  | 'u' :: cs => codePoint? 4 cs
  | 'U' :: cs => codePoint? 8 cs
  | _ => none

/-- The rest of a string on one line, in reverse. -/
def basic (acc : List Char) : Nat → Reader String
  | 0, _ => none
  | n + 1, cs =>
    match cs with
    | '"' :: rest => some (String.ofList acc.reverse, rest)
    | '\\' :: rest => do
      let (c, rest) ← escape? rest
      basic (c :: acc) n rest
    | c :: rest => if isPrintable c then basic (c :: acc) n rest else none
    | [] => none

def literal (cs : List Char) : Option (String × List Char) :=
  let body := cs.takeWhile fun c => isPrintable c && c ≠ '\''
  match cs.drop body.length with
  | '\'' :: rest => some (String.ofList body, rest)
  | _ => none

/-- After a backslash at the end of a line, blanks up to the next visible character do not
count. -/
def continuation? (cs : List Char) : Option (List Char) := do
  let rest ← lineEnd? (skipSpace cs)
  return rest.dropWhile fun c => isSpace c || c = '\n' || c = '\r'

/-- Closes a long string: of up to five quotes the last three close it. -/
def closeLong? (quote : Char) (cs : List Char) : Option (List Char × List Char) :=
  let run := cs.takeWhile (· = quote)
  if run.length < 3 then none
  else
    let extra := min (run.length - 3) 2
    some (run.take extra, cs.drop (extra + 3))

/-- The rest of a string over several lines, in reverse. -/
def long (quote : Char) (acc : List Char) : Nat → Reader String
  | 0, _ => none
  | n + 1, cs =>
    match closeLong? quote cs with
    | some (extra, rest) => some (String.ofList (acc.reverse ++ extra), rest)
    | none =>
      match lineEnd? cs with
      | some rest => long quote ('\n' :: acc) n rest
      | none =>
        match cs with
        | [] => none
        | c :: rest =>
          if c = '\\' && quote = '"' then
            match continuation? rest with
            | some rest => long quote acc n rest
            | none => do
              let (d, rest) ← escape? rest
              long quote (d :: acc) n rest
          else if isPrintable c then long quote (c :: acc) n rest
          else none

/-- A line end right after the opening quotes does not count. -/
def skipFirstLineEnd (cs : List Char) : List Char := (lineEnd? cs).getD cs

/-- A string of any of the four kinds. -/
def string : Reader String
  | '"' :: '"' :: '"' :: cs => long '"' [] (cs.length + 1) (skipFirstLineEnd cs)
  | '\'' :: '\'' :: '\'' :: cs => long '\'' [] (cs.length + 1) (skipFirstLineEnd cs)
  | '"' :: cs => basic [] (cs.length + 1) cs
  | '\'' :: cs => literal cs
  | _ => none

/-! ## Keys -/

def isBareKeyChar (c : Char) : Bool := c.isAlphanum || c = '_' || c = '-'

def simpleKey : Reader String
  | '"' :: cs => basic [] (cs.length + 1) cs
  | '\'' :: cs => literal cs
  | cs =>
    let word := cs.takeWhile isBareKeyChar
    if word.isEmpty then none else some (String.ofList word, cs.drop word.length)

/-- A key with its parts; blanks around the dots do not count. -/
def key : Nat → Reader (List String)
  | 0, _ => none
  | n + 1, cs => do
    let (k, rest) ← simpleKey (skipSpace cs)
    match skipSpace rest with
    | '.' :: rest => do
      let (ks, rest) ← key n rest
      return (k :: ks, rest)
    | rest => return ([k], rest)

/-! ## Numbers and dates -/

/-- Digits, where an underscore may stand between two of them. -/
def digitsValue? (base : Nat) (cs : List Char) : Option Nat :=
  let groups := Text.splitWhere (· == '_') cs
  if groups.any List.isEmpty then none
  else groups.flatten.foldlM (fun v c => do
    let d ← hexValue? c
    guard (d < base)
    return v * base + d) 0

def isDigits (cs : List Char) : Bool := (digitsValue? 10 cs).isSome

/-- Digits without a leading zero. -/
def decimalValue? (cs : List Char) : Option Nat :=
  match cs with
  | '0' :: _ :: _ => none
  | _ => digitsValue? 10 cs

/-- The sign of a number and the rest of it. -/
def splitSign : List Char → Int × List Char
  | '+' :: cs => (1, cs)
  | '-' :: cs => (-1, cs)
  | cs => (1, cs)

def integer? (cs : List Char) : Option Int := do
  let n ← match cs with
    | '0' :: 'x' :: ds => (digitsValue? 16 ds).map Int.ofNat
    | '0' :: 'o' :: ds => (digitsValue? 8 ds).map Int.ofNat
    | '0' :: 'b' :: ds => (digitsValue? 2 ds).map Int.ofNat
    | _ =>
      let (sign, ds) := splitSign cs
      (decimalValue? ds).map fun n => sign * Int.ofNat n
  let bound := Int.ofNat (Nat.pow 2 127)
  guard (-bound ≤ n && n < 2 * bound)
  return n

/-- A decimal number with a fraction, an exponent or both, or a named value. -/
def isFloat (cs : List Char) : Bool :=
  let body := (splitSign cs).2
  if body == ['i', 'n', 'f'] || body == ['n', 'a', 'n'] then true
  else
    let mantissa := body.takeWhile fun c => c ≠ 'e' && c ≠ 'E'
    let exponent := body.drop mantissa.length
    let whole := mantissa.takeWhile (· ≠ '.')
    let fraction := mantissa.drop whole.length
    (decimalValue? whole).isSome &&
      (fraction.isEmpty || isDigits (fraction.drop 1)) &&
      (exponent.isEmpty || isDigits (splitSign (exponent.drop 1)).2) &&
      !(fraction.isEmpty && exponent.isEmpty)

/-- A number of exactly `n` digits. -/
def fixed? (n : Nat) (cs : List Char) : Option Nat :=
  if cs.length = n && cs.all Char.isDigit then digitsValue? 10 cs else none

def daysIn (year month : Nat) : Nat :=
  if month = 2 then
    if year % 4 = 0 && (year % 100 ≠ 0 || year % 400 = 0) then 29 else 28
  else if month = 4 || month = 6 || month = 9 || month = 11 then 30 else 31

def isDate (cs : List Char) : Bool :=
  match Text.splitWhere (· == '-') cs with
  | [y, m, d] =>
    match fixed? 4 y, fixed? 2 m, fixed? 2 d with
    | some y, some m, some d => 1 ≤ m && m ≤ 12 && 1 ≤ d && d ≤ daysIn y m
    | _, _, _ => false
  | _ => false

/-- Hours and minutes, and seconds with a fraction if they are given. -/
def isTime (cs : List Char) : Bool :=
  let hourMinute (h m : List Char) : Bool :=
    match fixed? 2 h, fixed? 2 m with
    | some h, some m => h < 24 && m < 60
    | _, _ => false
  match Text.splitWhere (· == ':') cs with
  | [h, m] => hourMinute h m
  | [h, m, s] =>
    let whole := s.takeWhile (· ≠ '.')
    let fraction := s.drop whole.length
    hourMinute h m && (fixed? 2 whole).any (· ≤ 60) &&
      (fraction.isEmpty || (1 < fraction.length && (fraction.drop 1).all Char.isDigit))
  | _ => false

/-- A time with an offset from UTC, or without. -/
def isOffsetTime (cs : List Char) : Bool :=
  match cs.reverse with
  | 'z' :: rest | 'Z' :: rest => isTime rest.reverse
  | m :: m' :: ':' :: h :: h' :: sign :: rest =>
    if sign = '+' || sign = '-' then
      isTime rest.reverse && isTime [h', h, ':', m', m]
    else isTime cs
  | _ => isTime cs

def isDateTime (cs : List Char) : Bool :=
  isTime cs || isDate cs ||
    (isDate (cs.take 10) &&
      match cs.drop 10 with
      | c :: rest => (c = 'T' || c = 't' || c = ' ') && isOffsetTime rest
      | [] => false)

def isScalarChar (c : Char) : Bool :=
  c.isAlphanum || c = '+' || c = '-' || c = '_' || c = '.' || c = ':'

/-- The characters of a number, date or word. A date may be followed by a space and a time. -/
def scalarText (cs : List Char) : List Char :=
  let word := cs.takeWhile isScalarChar
  match cs.drop word.length with
  | ' ' :: d :: rest =>
    if isDate word && d.isDigit then word ++ ' ' :: d :: rest.takeWhile isScalarChar else word
  | _ => word

def scalar (cs : List Char) : Option (Item × List Char) :=
  let word := scalarText cs
  let rest := cs.drop word.length
  if word == "true".toList then some (.bool true, rest)
  else if word == "false".toList then some (.bool false, rest)
  else match integer? word with
    | some n => some (.int n, rest)
    | none =>
      if isFloat word then some (.float, rest)
      else if isDateTime word then some (.dateTime, rest)
      else none

/-! ## Values and documents -/

mutual

def value : Nat → Reader Item
  | 0, _ => none
  | n + 1, cs =>
    match cs with
    | '"' :: _ | '\'' :: _ => do
      let (s, rest) ← string cs
      return (.str s, rest)
    | '[' :: rest => do
      let (items, rest) ← arrayItems n rest
      return (.array items, rest)
    | '\x7b' :: rest => do
      let (fields, rest) ← inlineFields n [] rest
      return (.table .inline fields, rest)
    | _ => scalar cs

/-- The items of an array up to its bracket; a comma may follow the last. -/
def arrayItems : Nat → Reader (List Item)
  | 0, _ => none
  | n + 1, cs => do
    match ← skipLines cs.length cs with
    | ']' :: rest => return ([], rest)
    | rest => do
      let (item, rest) ← value n rest
      match ← skipLines rest.length rest with
      | ',' :: rest => do
        let (items, rest) ← arrayItems n rest
        return (item :: items, rest)
      | ']' :: rest => return ([item], rest)
      | _ => none

/-- The fields of an inline table up to its brace; a comma may follow the last. -/
def inlineFields : Nat → Fields → Reader Fields
  | 0, _, _ => none
  | n + 1, fields, cs => do
    match ← skipLines cs.length cs with
    | '\x7d' :: rest => return (fields, rest)
    | rest => do
      let (keys, rest) ← key rest.length rest
      match rest with
      | '=' :: rest => do
        let (item, rest) ← value n (skipSpace rest)
        let (_, fields) ← addAt [] keys item .inline fields
        match ← skipLines rest.length rest with
        | ',' :: rest => inlineFields n fields rest
        | '\x7d' :: rest => return (fields, rest)
        | _ => none
      | _ => none

end

/-- The tables read so far, and the path of the one that is open. -/
structure Draft where
  root : Fields := []
  current : List String := []

def Draft.steps (d : Draft) : List Step := d.current.map fun k => ⟨k, false⟩

/-- Opens the table of a header. -/
def Draft.open_ (d : Draft) (keys : List String) (repeated : Bool) : Option Draft := do
  let last ← keys.getLast?
  let (_, root) ← change (if repeated then openNext last else openTable last)
    (keys.dropLast.map fun k => ⟨k, false⟩) .header d.root
  return { root, current := keys }

def Draft.add (d : Draft) (keys : List String) (item : Item) : Option Draft := do
  let (_, root) ← addAt d.steps keys item .header d.root
  return { d with root }

/-- Reads a header, a key with its value, or a line without either. -/
def line (d : Draft) (cs : List Char) : Option (Draft × List Char) :=
  match cs with
  | '[' :: '[' :: rest => do
    let (keys, rest) ← key rest.length rest
    match rest with
    | ']' :: ']' :: rest => return (← d.open_ keys true, ← finishLine rest)
    | _ => none
  | '[' :: rest => do
    let (keys, rest) ← key rest.length rest
    match rest with
    | ']' :: rest => return (← d.open_ keys false, ← finishLine rest)
    | _ => none
  | c :: _ =>
    if c = '#' || c = '\n' || c = '\r' then do return (d, ← finishLine cs)
    else do
      let (keys, rest) ← key cs.length cs
      match rest with
      | '=' :: rest => do
        let (item, rest) ← value (2 * cs.length) (skipSpace rest)
        return (← d.add keys item, ← finishLine rest)
      | _ => none
  | [] => some (d, [])

def lines : Nat → Draft → List Char → Option Draft
  | 0, d, cs => if cs.isEmpty then some d else none
  | n + 1, d, cs =>
    match skipSpace cs with
    | [] => some d
    | cs => do
      let (d, rest) ← line d cs
      lines n d rest

/-- Reads a document; `none` if it is malformed. -/
def parse (text : String) : Option Fields :=
  let cs := text.toList
  let cs := if cs.head? == some '\uFEFF' then cs.drop 1 else cs
  (lines (cs.length + 1) {} cs).map (·.root)

end Synopsis.Toml
