import Synopsis.Document.Json

/-! A reader of JSON, and how it reads what the writer's pieces put down. Characters become
tokens, and tokens fill the holes of a value that is being built; trailing commas, raw control
characters, lone surrogates and superfluous zeros are refused. Of the numbers it knows those that
a value can hold. -/
namespace Synopsis.JsonValue

/-! ### From characters to tokens -/

inductive Token where
  | openArray | closeArray | openObject | closeObject | comma | colon
  | bool (b : Bool)
  | num (n : Nat)
  | str (s : String)
  /-- Characters that stand for nothing. -/
  | invalid
  deriving DecidableEq, Repr

/-- A part of a string: a character, or a code unit of UTF-16 by its number. -/
inductive Piece where
  | char (c : Char)
  | unit (n : Nat)
  deriving DecidableEq, Repr

/-- The characters of a string. Two surrogates make one character, and one alone makes none. -/
def characters? : List Piece → Option (List Char)
  | [] => some []
  | .char c :: ps => (characters? ps).map (c :: ·)
  | .unit n :: ps =>
    if n < 0xD800 || 0xE000 ≤ n then (characters? ps).map (Char.ofNat n :: ·)
    else match ps with
      | .unit m :: rest =>
        if n < 0xDC00 && 0xDC00 ≤ m && m < 0xE000 then
          (characters? rest).map (Char.ofNat (0x10000 + (n - 0xD800) * 0x400 + (m - 0xDC00)) :: ·)
        else none
      | _ => none

namespace Token

def ofPieces (ps : List Piece) : Token :=
  match characters? ps with
  | some cs => str (String.ofList cs)
  | none => invalid

/-- The number with these digits, of which the first is no zero unless it is the only one. -/
def ofDigits (ds : List Char) : Token :=
  if ds.head? = some '0' && ds.length ≠ 1 then invalid else num (Nat.ofDigitChars 10 ds 0)

def ofLetters : List Char → Token
  | ['t', 'r', 'u', 'e'] => bool true
  | ['f', 'a', 'l', 's', 'e'] => bool false
  | _ => invalid

def ofMark : Char → Token
  | '[' => openArray
  | ']' => closeArray
  | '\x7b' => openObject
  | '\x7d' => closeObject
  | ',' => comma
  | ':' => colon
  | _ => invalid

end Token

/-- What the reader is in: nothing, a number or word by its characters so far, or a string by its
pieces so far, perhaps behind a backslash or among the hexadecimal digits of a code unit. -/
inductive Mode where
  | between
  | number (digits : List Char)
  | word (letters : List Char)
  | string (pieces : List Piece)
  | escape (pieces : List Piece)
  | unit (pieces : List Piece) (missing value : Nat)
  deriving DecidableEq, Repr

def isSpace (c : Char) : Bool := c = ' ' || c = '\n' || c = '\r' || c = '\t'

/-- What a backslash and a letter stand for. -/
def unescape? : Char → Option Char
  | '"' => some '"'
  | '\\' => some '\\'
  | '/' => some '/'
  | 'b' => some '\x08'
  | 'f' => some '\x0c'
  | 'n' => some '\n'
  | 'r' => some '\r'
  | 't' => some '\t'
  | _ => none

def hexValue? (c : Char) : Option Nat :=
  if c.isDigit then some (c.toNat - 48)
  else if 'a' ≤ c && c ≤ 'f' then some (c.toNat - 87)
  else if 'A' ≤ c && c ≤ 'F' then some (c.toNat - 55)
  else none

/-- The tokens that are complete after a character outside all others, and the mode then. -/
def start (c : Char) : List Token × Mode :=
  if isSpace c then ([], .between)
  else if c = '"' then ([], .string [])
  else if c.isDigit then ([], .number [c])
  else if c.isAlpha then ([], .word [c])
  else ([.ofMark c], .between)

/-- The tokens that a character completes, and the mode behind it. -/
def next : Mode → Char → List Token × Mode
  | .between, c => start c
  -- a number or a word ends where the next character is of another kind
  | .number ds, c =>
    if c.isDigit then ([], .number (ds ++ [c])) else (.ofDigits ds :: (start c).1, (start c).2)
  | .word cs, c =>
    if c.isAlpha then ([], .word (cs ++ [c])) else (.ofLetters cs :: (start c).1, (start c).2)
  | .string ps, c =>
    if c = '"' then ([.ofPieces ps], .between)
    else if c = '\\' then ([], .escape ps)
    else if c.toNat < 32 then ([.invalid], .between)
    else ([], .string (ps ++ [.char c]))
  | .escape ps, c =>
    if c = 'u' then ([], .unit ps 4 0)
    else match unescape? c with
      | some d => ([], .string (ps ++ [.char d]))
      | none => ([.invalid], .between)
  | .unit ps missing value, c =>
    match hexValue? c with
    | some d =>
      if missing ≤ 1 then ([], .string (ps ++ [.unit (16 * value + d)]))
      else ([], .unit ps (missing - 1) (16 * value + d))
    | none => ([.invalid], .between)

/-- The tokens that the end of the text completes. -/
def Mode.final : Mode → List Token
  | .between => []
  | .number ds => [.ofDigits ds]
  | .word cs => [.ofLetters cs]
  | _ => [.invalid]

def tokensFrom : Mode → List Char → List Token
  | m, [] => m.final
  | m, c :: cs => (next m c).1 ++ tokensFrom (next m c).2 cs

def tokens (cs : List Char) : List Token := tokensFrom .between cs

/-! ### From tokens to a value -/

/-- Where a value is missing: behind some items of an array, or under a name behind some fields
of an object. -/
inductive Hole where
  | item (items : List JsonValue)
  | field (fields : List (String × JsonValue)) (name : String)

/-- What is due next, with the holes that are still open, the innermost first. -/
inductive Due where
  | value (holes : List Hole)
  | firstItem (holes : List Hole)
  | firstName (holes : List Hole)
  | nextName (fields : List (String × JsonValue)) (holes : List Hole)
  | colon (fields : List (String × JsonValue)) (name : String) (holes : List Hole)
  | moreItems (items : List JsonValue) (holes : List Hole)
  | moreFields (fields : List (String × JsonValue)) (holes : List Hole)
  | nothing (v : JsonValue)

/-- A value that is complete goes into the innermost hole. -/
def fill (v : JsonValue) : List Hole → Due
  | [] => .nothing v
  | .item items :: holes => .moreItems (items ++ [v]) holes
  | .field fields name :: holes => .moreFields (fields ++ [(name, v)]) holes

def beginValue (holes : List Hole) : Token → Option Due
  | .bool b => some (fill (bool b) holes)
  | .num n => some (fill (num n) holes)
  | .str s => some (fill (str s) holes)
  | .openArray => some (.firstItem holes)
  | .openObject => some (.firstName holes)
  | _ => none

def Due.step : Due → Token → Option Due
  | .value holes, t => beginValue holes t
  | .firstItem holes, .closeArray => some (fill (arr []) holes)
  | .firstItem holes, t => beginValue (.item [] :: holes) t
  | .firstName holes, .closeObject => some (fill (obj []) holes)
  | .firstName holes, .str name => some (.colon [] name holes)
  | .nextName fields holes, .str name => some (.colon fields name holes)
  | .colon fields name holes, .colon => some (.value (.field fields name :: holes))
  | .moreItems items holes, .comma => some (.value (.item items :: holes))
  | .moreItems items holes, .closeArray => some (fill (arr items) holes)
  | .moreFields fields holes, .comma => some (.nextName fields holes)
  | .moreFields fields holes, .closeObject => some (fill (obj fields) holes)
  | _, _ => none

/-- The value of a JSON text. -/
def read? (s : String) : Option JsonValue :=
  match (tokens s.toList).foldlM Due.step (.value []) with
  | some (.nothing v) => some v
  | _ => none

/-! ### The tokens of written text -/

/-- A number or a word ends before this text. -/
def Bounded (rest : List Char) : Prop := ∀ c ∈ rest.head?, c.isAlphanum = false

theorem bounded_cons (c : Char) (rest : List Char) (h : c.isAlphanum = false) :
    Bounded (c :: rest) := by
  intro d hd
  obtain rfl : c = d := by simpa using hd
  exact h

/-- A mode in which the characters so far make a token as soon as another kind follows. -/
theorem tokensFrom_pending (m : Mode) (t : Token) (rest : List Char) (hfinal : m.final = [t])
    (hnext : ∀ c, c.isAlphanum = false → next m c = (t :: (start c).1, (start c).2))
    (h : Bounded rest) : tokensFrom m rest = t :: tokens rest := by
  cases rest with
  | nil => exact hfinal
  | cons c rest =>
    have hc : c.isAlphanum = false := h c rfl
    rw [tokensFrom, hnext c hc]
    rfl

theorem tokensFrom_word (cs rest : List Char) (h : Bounded rest) :
    tokensFrom (.word cs) rest = .ofLetters cs :: tokens rest := by
  apply tokensFrom_pending _ _ _ rfl _ h
  intro c hc
  have halpha : c.isAlpha = false := (Bool.or_eq_false_iff.mp hc).1
  simp [next, halpha]

theorem tokensFrom_number (ds more rest : List Char) (hds : ∀ d ∈ more, d.isDigit = true)
    (h : Bounded rest) :
    tokensFrom (.number ds) (more ++ rest) = .ofDigits (ds ++ more) :: tokens rest := by
  induction more generalizing ds with
  | nil =>
    rw [List.nil_append, List.append_nil]
    apply tokensFrom_pending _ _ _ rfl _ h
    intro c hc
    have hdigit : c.isDigit = false := (Bool.or_eq_false_iff.mp hc).2
    simp [next, hdigit]
  | cons d more ih =>
    have hd : d.isDigit = true := hds d List.mem_cons_self
    have htail := ih (ds ++ [d]) fun e he => hds e (List.mem_cons_of_mem d he)
    rw [List.cons_append, tokensFrom]
    simp only [next, hd, if_true, List.nil_append]
    rw [htail, List.append_assoc, List.singleton_append]

theorem head?_toDigits (n : Nat) (h : (Nat.toDigits 10 n).head? = some '0') : n = 0 := by
  induction n using Nat.strongRecOn with
  | ind n ih =>
    by_cases hn : n < 10
    · have hdigit : ∀ m < 10, (Nat.toDigits 10 m).head? = some '0' → m = 0 := by decide
      exact hdigit n hn h
    · -- the first digit is that of the quotient, which is not zero
      have hle : 10 ≤ n := by omega
      obtain ⟨d, ds, hds⟩ :=
        List.exists_cons_of_ne_nil (Nat.toDigits_ne_nil (n := n / 10) (b := 10))
      have hhead : (Nat.toDigits 10 n).head? = (Nat.toDigits 10 (n / 10)).head? := by
        rw [Nat.toDigits_of_base_le (by decide) hle, hds]
        rfl
      have hzero := ih (n / 10) (by omega) (hhead ▸ h)
      omega

/-- No number is written with superfluous zeros. -/
theorem ofDigits_toDigits (n : Nat) : Token.ofDigits (Nat.toDigits 10 n) = .num n := by
  unfold Token.ofDigits
  rw [if_neg, Nat.ofDigitChars_ten_toDigits]
  intro h
  obtain ⟨hhead, hlength⟩ : (Nat.toDigits 10 n).head? = some '0' ∧
      (Nat.toDigits 10 n).length ≠ 1 := by simpa using h
  obtain rfl := head?_toDigits n hhead
  exact hlength rfl

theorem isSpace_of_isDigit (d : Char) (h : d.isDigit = true) : isSpace d = false ∧ d ≠ '"' := by
  have hne : ∀ c : Char, c.isDigit = false → d ≠ c := by
    rintro c hc rfl
    simp [h] at hc
  simp [isSpace, hne ' ' rfl, hne '\n' rfl, hne '\r' rfl, hne '\t' rfl, hne '"' rfl]

theorem tokens_number (n : Nat) (rest : List Char) (h : Bounded rest) :
    tokens ((toString n).toList ++ rest) = .num n :: tokens rest := by
  have hdigits : (toString n).toList = Nat.toDigits 10 n := by simp
  obtain ⟨d, ds, hds⟩ := List.exists_cons_of_ne_nil (Nat.toDigits_ne_nil (n := n) (b := 10))
  have hall : ∀ c ∈ d :: ds, c.isDigit = true := by
    intro c hc
    rw [← hds] at hc
    exact Nat.isDigit_of_mem_toDigits (by decide) (by decide) hc
  have hd := hall d List.mem_cons_self
  obtain ⟨hspace, hquote⟩ := isSpace_of_isDigit d hd
  have hstart : start d = ([], .number [d]) := by simp [start, hspace, hquote, hd]
  have hmore : ∀ c ∈ ds, c.isDigit = true := fun c hc => hall c (List.mem_cons_of_mem d hc)
  calc tokens ((toString n).toList ++ rest)
      = tokensFrom (.number [d]) (ds ++ rest) := by
        rw [hdigits, hds, List.cons_append, tokens, tokensFrom, next, hstart, List.nil_append]
    _ = .ofDigits (d :: ds) :: tokens rest := tokensFrom_number [d] ds rest hmore h
    _ = .num n :: tokens rest := by rw [← hds, ofDigits_toDigits]

theorem tokens_bool (b : Bool) (rest : List Char) (h : Bounded rest) :
    tokens ((if b then "true" else "false").toList ++ rest) = .bool b :: tokens rest := by
  cases b with
  | true => exact tokensFrom_word ['t', 'r', 'u', 'e'] rest h
  | false => exact tokensFrom_word ['f', 'a', 'l', 's', 'e'] rest h

/-! ### Written strings -/

/-- A character is written as a backslash and its letter, as its number, or as itself. -/
theorem escapeChar_cases (c : Char) :
    (∃ letter, escapeChar c = ['\\', letter] ∧ letter ≠ 'u' ∧ unescape? letter = some c) ∨
      (c.toNat < 32 ∧ escapeChar c =
        ['\\', 'u', '0', '0', hexDigit (c.toNat / 16), hexDigit (c.toNat % 16)]) ∨
      (32 ≤ c.toNat ∧ c ≠ '"' ∧ c ≠ '\\' ∧ escapeChar c = [c]) := by
  by_cases hletter : c = '"' ∨ c = '\\' ∨ c = '\n' ∨ c = '\r' ∨ c = '\t' ∨ c = '\x08' ∨ c = '\x0c'
  · left
    rcases hletter with rfl | rfl | rfl | rfl | rfl | rfl | rfl
    · exact ⟨'"', rfl, by decide, rfl⟩
    · exact ⟨'\\', rfl, by decide, rfl⟩
    · exact ⟨'n', rfl, by decide, rfl⟩
    · exact ⟨'r', rfl, by decide, rfl⟩
    · exact ⟨'t', rfl, by decide, rfl⟩
    · exact ⟨'b', rfl, by decide, rfl⟩
    · exact ⟨'f', rfl, by decide, rfl⟩
  · right
    simp only [not_or] at hletter
    obtain ⟨hquote, hslash, hn, hr, ht, hb, hf⟩ := hletter
    by_cases hcontrol : c.toNat < 32
    · left
      exact ⟨hcontrol, by simp [escapeChar, hquote, hslash, hn, hr, ht, hb, hf, hcontrol]⟩
    · right
      refine ⟨by omega, hquote, hslash, ?_⟩
      simp [escapeChar, hquote, hslash, hn, hr, ht, hb, hf, hcontrol]

theorem hexValue?_hexDigit : ∀ n < 16, hexValue? (hexDigit n) = some n := by decide

/-- The four digits of a control character are read as its number. -/
theorem tokensFrom_unit (ps : List Piece) (n : Nat) (hn : n < 32) (rest : List Char) :
    tokensFrom (.unit ps 4 0) ('0' :: '0' :: hexDigit (n / 16) :: hexDigit (n % 16) :: rest) =
      tokensFrom (.string (ps ++ [.unit n])) rest := by
  have hzero : hexValue? '0' = some 0 := rfl
  have hhigh := hexValue?_hexDigit (n / 16) (by omega)
  have hlow := hexValue?_hexDigit (n % 16) (by omega)
  have hsum : 16 * (n / 16) + n % 16 = n := by omega
  simp [tokensFrom, next, hzero, hhigh, hlow, hsum]

/-- Whatever a character is written as, it adds one piece to a string, which stands for it. -/
theorem tokensFrom_escapeChar (c : Char) :
    ∃ p : Piece, (∀ ps, characters? (p :: ps) = (characters? ps).map (c :: ·)) ∧
      ∀ ps rest, tokensFrom (.string ps) (escapeChar c ++ rest) =
        tokensFrom (.string (ps ++ [p])) rest := by
  rcases escapeChar_cases c with ⟨letter, hwritten, hu, hletter⟩ | ⟨hcontrol, hwritten⟩ |
    ⟨hcontrol, hquote, hslash, hwritten⟩
  · refine ⟨.char c, fun ps => rfl, fun ps rest => ?_⟩
    rw [hwritten]
    simp [tokensFrom, next, hu, hletter]
  · refine ⟨.unit c.toNat, fun ps => ?_, fun ps rest => ?_⟩
    -- a control character is no half of a pair
    · have hplain : c.toNat < 0xD800 := by omega
      have hself : Char.ofNat c.toNat = c := Char.ofNat_toNat c
      rw [characters?.eq_def]
      simp only [hplain, decide_true, Bool.true_or, if_true, hself]
    · rw [hwritten]
      exact tokensFrom_unit ps c.toNat hcontrol rest
  · refine ⟨.char c, fun ps => rfl, fun ps rest => ?_⟩
    have hcontrol : ¬ c.toNat < 32 := by omega
    rw [hwritten]
    simp [tokensFrom, next, hquote, hslash, hcontrol]

theorem tokensFrom_escaped (cs : List Char) :
    ∃ qs : List Piece, characters? qs = some cs ∧
      ∀ ps rest, tokensFrom (.string ps) (cs.flatMap escapeChar ++ rest) =
        tokensFrom (.string (ps ++ qs)) rest := by
  induction cs with
  | nil => exact ⟨[], rfl, fun ps rest => by rw [List.append_nil]; rfl⟩
  | cons c cs ih =>
    obtain ⟨p, hp, hread⟩ := tokensFrom_escapeChar c
    obtain ⟨qs, hqs, hreads⟩ := ih
    refine ⟨p :: qs, by rw [hp, hqs]; rfl, fun ps rest => ?_⟩
    rw [List.flatMap_cons, List.append_assoc, hread, hreads, List.append_assoc,
      List.singleton_append]

/-- A written string is one token, whatever its characters are. -/
theorem tokens_quote (s : String) (rest : List Char) :
    tokens ((quote s).toList ++ rest) = .str s :: tokens rest := by
  obtain ⟨qs, hqs, hread⟩ := tokensFrom_escaped s.toList
  have hwritten : (quote s).toList ++ rest =
      '"' :: (s.toList.flatMap escapeChar ++ '"' :: rest) := by
    simp [quote]
  have htoken : Token.ofPieces qs = .str s := by
    rw [Token.ofPieces, hqs]
    simp
  have hopen : tokens ('"' :: (s.toList.flatMap escapeChar ++ '"' :: rest)) =
      tokensFrom (.string []) (s.toList.flatMap escapeChar ++ '"' :: rest) := rfl
  rw [hwritten, hopen, hread, List.nil_append]
  change Token.ofPieces qs :: tokens rest = _
  rw [htoken]

example : tokens "\r[\"\\ud83d\\uDE00\\/\" ,10]".toList =
    [.openArray, .str "😀/", .comma, .num 10, .closeArray] := by decide +kernel

/-! ### Written values -/

theorem tokens_space (c : Char) (rest : List Char) (h : isSpace c = true) :
    tokens (c :: rest) = tokens rest := by
  simp [tokens, tokensFrom, next, start, h]

theorem toList_newline (depth : Nat) :
    (newline depth).toList = '\n' :: List.replicate (2 * depth) ' ' := by
  have hpad : ∀ n, ("".pushn ' ' n).toList = List.replicate n ' ' := by
    intro n
    rw [String.pushn_eq_repeat_push]
    induction n with
    | zero => rfl
    | succ n ih => rw [Nat.repeat, String.toList_push, ih, List.replicate_succ']
  rw [newline, String.toList_append, hpad]
  rfl

theorem tokens_newline (depth : Nat) (rest : List Char) :
    tokens ((newline depth).toList ++ rest) = tokens rest := by
  rw [toList_newline, List.cons_append, tokens_space _ _ rfl]
  generalize 2 * depth = n
  induction n with
  | zero => rfl
  | succ n ih => rw [List.replicate_succ, List.cons_append, tokens_space _ _ rfl, ih]

theorem bounded_newline (depth : Nat) (rest : List Char) :
    Bounded ((newline depth).toList ++ rest) := by
  rw [toList_newline]
  exact bounded_cons '\n' _ rfl

mutual

/-- The tokens of a value. -/
def tokensOf : JsonValue → List Token
  | bool b => [.bool b]
  | num n => [.num n]
  | str s => [.str s]
  | arr [] => [.openArray, .closeArray]
  | arr (v :: vs) => .openArray :: (tokensOf v ++ tokensOfItems vs ++ [.closeArray])
  | obj [] => [.openObject, .closeObject]
  | obj ((k, v) :: fs) =>
    .openObject :: .str k :: .colon :: (tokensOf v ++ tokensOfFields fs ++ [.closeObject])

def tokensOfItems : List JsonValue → List Token
  | [] => []
  | v :: vs => .comma :: (tokensOf v ++ tokensOfItems vs)

def tokensOfFields : List (String × JsonValue) → List Token
  | [] => []
  | (k, v) :: fs => .comma :: .str k :: .colon :: (tokensOf v ++ tokensOfFields fs)

end

theorem bounded_writeItems (depth : Nat) (vs : List JsonValue) (rest : List Char)
    (h : Bounded rest) : Bounded ((writeItems depth vs).toList ++ rest) := by
  cases vs with
  | nil => simpa [writeItems] using h
  | cons v vs =>
    rw [writeItems]
    simp only [String.toList_append, List.append_assoc]
    exact bounded_cons ',' _ rfl

theorem bounded_writeFields (depth : Nat) (fs : List (String × JsonValue)) (rest : List Char)
    (h : Bounded rest) : Bounded ((writeFields depth fs).toList ++ rest) := by
  cases fs with
  | nil => simpa [writeFields] using h
  | cons f fs =>
    rw [writeFields]
    simp only [String.toList_append, List.append_assoc]
    exact bounded_cons ',' _ rfl

theorem tokens_mark (mark : String) (t : Token) (rest : List Char)
    (h : mark.toList.map start = [([t], .between)]) :
    tokens (mark.toList ++ rest) = t :: tokens rest := by
  obtain ⟨c, hc, hstart⟩ := List.map_eq_singleton_iff.mp h
  rw [hc, List.singleton_append, tokens, tokensFrom, next, hstart]
  rfl

theorem tokens_colon (rest : List Char) :
    tokens (": ".toList ++ rest) = .colon :: tokens rest := rfl

-- By induction on the value. What follows it matters only to a number or a word, which it has to
-- end; behind an item or a field that is a comma or a new line.
mutual

theorem tokens_write (depth : Nat) (rest : List Char) (h : Bounded rest) :
    ∀ v : JsonValue, tokens ((write depth v).toList ++ rest) = tokensOf v ++ tokens rest
  | bool b => by
    rw [write, tokensOf]
    exact tokens_bool b rest h
  | num n => by
    rw [write, tokensOf]
    exact tokens_number n rest h
  | str s => by
    rw [write, tokensOf]
    exact tokens_quote s rest
  | arr [] => by
    rw [write, tokensOf]
    rfl
  | arr (v :: vs) => by
    have hend : tokens ((newline depth).toList ++ ("]".toList ++ rest)) =
        .closeArray :: tokens rest := tokens_newline depth _
    have hbounded := bounded_newline depth ("]".toList ++ rest)
    have hitems := tokens_writeItems (depth + 1) _ hbounded vs
    have hfirst := tokens_write (depth + 1) _ (bounded_writeItems (depth + 1) vs _ hbounded) v
    rw [write, tokensOf]
    simp only [String.toList_append, List.append_assoc]
    rw [tokens_mark "[" .openArray _ rfl, tokens_newline, hfirst, hitems, hend]
    simp
  | obj [] => by
    rw [write, tokensOf]
    rfl
  | obj ((k, v) :: fs) => by
    have hend : tokens ((newline depth).toList ++ ("\x7d".toList ++ rest)) =
        .closeObject :: tokens rest := tokens_newline depth _
    have hbounded := bounded_newline depth ("\x7d".toList ++ rest)
    have hfields := tokens_writeFields (depth + 1) _ hbounded fs
    have hfirst := tokens_write (depth + 1) _ (bounded_writeFields (depth + 1) fs _ hbounded) v
    rw [write, tokensOf]
    simp only [String.toList_append, List.append_assoc]
    rw [tokens_mark "\x7b" .openObject _ rfl, tokens_newline, tokens_quote, tokens_colon, hfirst,
      hfields, hend]
    simp

theorem tokens_writeItems (depth : Nat) (rest : List Char) (h : Bounded rest) :
    ∀ vs : List JsonValue,
      tokens ((writeItems depth vs).toList ++ rest) = tokensOfItems vs ++ tokens rest
  | [] => rfl
  | v :: vs => by
    have hitems := tokens_writeItems depth rest h vs
    have hfirst := tokens_write depth _ (bounded_writeItems depth vs rest h) v
    rw [writeItems, tokensOfItems]
    simp only [String.toList_append, List.append_assoc]
    rw [tokens_mark "," .comma _ rfl, tokens_newline, hfirst, hitems]
    simp

theorem tokens_writeFields (depth : Nat) (rest : List Char) (h : Bounded rest) :
    ∀ fs : List (String × JsonValue),
      tokens ((writeFields depth fs).toList ++ rest) = tokensOfFields fs ++ tokens rest
  | [] => rfl
  | (k, v) :: fs => by
    have hfields := tokens_writeFields depth rest h fs
    have hfirst := tokens_write depth _ (bounded_writeFields depth fs rest h) v
    rw [writeFields, tokensOfFields]
    simp only [String.toList_append, List.append_assoc]
    rw [tokens_mark "," .comma _ rfl, tokens_newline, tokens_quote, tokens_colon, hfirst, hfields]
    simp

end

/-! ### Reading the tokens of a value -/

/-- Reading goes on behind the first tokens where they lead. -/
theorem foldlM_step_append (due due' : Due) (ts us : List Token)
    (h : ts.foldlM Due.step due = some due') :
    (ts ++ us).foldlM Due.step due = us.foldlM Due.step due' := by
  rw [List.foldlM_append, h]
  rfl

/-- The first item of an array is read as any other value. -/
theorem foldlM_firstItem (v : JsonValue) (holes : List Hole) :
    (tokensOf v).foldlM Due.step (.firstItem holes) =
      (tokensOf v).foldlM Due.step (.value (.item [] :: holes)) := by
  match v with
  | bool _ | num _ | str _ | arr [] | obj [] => rfl
  | arr (_ :: _) | obj ((_, _) :: _) =>
    rw [tokensOf, List.foldlM_cons, List.foldlM_cons]
    rfl

mutual

/-- The tokens of a value put it into the hole where a value is due. -/
theorem foldlM_tokensOf (holes : List Hole) :
    ∀ v : JsonValue, (tokensOf v).foldlM Due.step (.value holes) = some (fill v holes)
  | bool _ | num _ | str _ => by
    rw [tokensOf]
    rfl
  | arr [] => by
    rw [tokensOf]
    rfl
  | arr (v :: vs) => by
    -- the first item goes into a hole of its own, the others are added to what is read so far
    have hfirst := foldlM_tokensOf (.item [] :: holes) v
    rw [← foldlM_firstItem] at hfirst
    have hrest := foldlM_tokensOfItems [v] holes vs
    rw [tokensOf, List.append_assoc]
    change (tokensOf v ++ _).foldlM Due.step (.firstItem holes) = _
    rw [foldlM_step_append _ _ _ _ hfirst]
    exact hrest
  | obj [] => by
    rw [tokensOf]
    rfl
  | obj ((k, v) :: fs) => by
    have hfirst := foldlM_tokensOf (.field [] k :: holes) v
    have hrest := foldlM_tokensOfFields [(k, v)] holes fs
    rw [tokensOf, List.append_assoc]
    change (tokensOf v ++ _).foldlM Due.step (.value (.field [] k :: holes)) = _
    rw [foldlM_step_append _ _ _ _ hfirst]
    exact hrest

theorem foldlM_tokensOfItems (items : List JsonValue) (holes : List Hole) :
    ∀ vs : List JsonValue,
      (tokensOfItems vs ++ [Token.closeArray]).foldlM Due.step (.moreItems items holes) =
        some (fill (arr (items ++ vs)) holes)
  | [] => by
    rw [tokensOfItems, List.append_nil]
    rfl
  | v :: vs => by
    have hfirst := foldlM_tokensOf (.item items :: holes) v
    have hrest := foldlM_tokensOfItems (items ++ [v]) holes vs
    rw [List.append_assoc, List.singleton_append] at hrest
    rw [tokensOfItems, List.cons_append, List.append_assoc]
    change (tokensOf v ++ _).foldlM Due.step (.value (.item items :: holes)) = _
    rw [foldlM_step_append _ _ _ _ hfirst]
    exact hrest

theorem foldlM_tokensOfFields (fields : List (String × JsonValue)) (holes : List Hole) :
    ∀ fs : List (String × JsonValue),
      (tokensOfFields fs ++ [Token.closeObject]).foldlM Due.step (.moreFields fields holes) =
        some (fill (obj (fields ++ fs)) holes)
  | [] => by
    rw [tokensOfFields, List.append_nil]
    rfl
  | (k, v) :: fs => by
    have hfirst := foldlM_tokensOf (.field fields k :: holes) v
    have hrest := foldlM_tokensOfFields (fields ++ [(k, v)]) holes fs
    rw [List.append_assoc, List.singleton_append] at hrest
    rw [tokensOfFields, List.cons_append, List.cons_append, List.cons_append, List.append_assoc]
    change (tokensOf v ++ _).foldlM Due.step (.value (.field fields k :: holes)) = _
    rw [foldlM_step_append _ _ _ _ hfirst]
    exact hrest

end

/-- A written value, with a line end behind it, is read as that value. -/
theorem read?_pretty (v : JsonValue) : read? (v.pretty ++ "\n") = some v := by
  have hbounded : Bounded "\n".toList := bounded_cons '\n' [] rfl
  have htokens : tokens (v.pretty ++ "\n").toList = tokensOf v := by
    have hend : tokens "\n".toList = [] := rfl
    rw [String.toList_append, pretty, tokens_write 0 _ hbounded, hend, List.append_nil]
  rw [read?, htokens, foldlM_tokensOf]
  rfl

end Synopsis.JsonValue
