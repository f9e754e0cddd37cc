/-! Bytes read as UTF-8. -/
namespace Synopsis.Utf8

/-- A character being read: how many bytes are missing, its value so far, and the bounds of
the next byte, which rule out surrogates, overlong forms and values that are too large. -/
structure Pending where
  missing : Nat
  value : Nat
  low : Nat := 0x80
  high : Nat := 0xBF
  deriving DecidableEq, Repr

/-- What a first byte starts: a whole character, a longer one, or nothing. -/
inductive Start where
  | whole (c : Char)
  | longer (p : Pending)
  | invalid

def start (b : UInt8) : Start :=
  let n := b.toNat
  if n < 0x80 then .whole (Char.ofNat n)
  else if n < 0xC2 then .invalid
  else if n < 0xE0 then .longer ⟨1, n - 0xC0, 0x80, 0xBF⟩
  else if n = 0xE0 then .longer ⟨2, 0, 0xA0, 0xBF⟩
  else if n = 0xED then .longer ⟨2, 0xD, 0x80, 0x9F⟩
  else if n < 0xF0 then .longer ⟨2, n - 0xE0, 0x80, 0xBF⟩
  else if n = 0xF0 then .longer ⟨3, 0, 0x90, 0xBF⟩
  else if n < 0xF4 then .longer ⟨3, n - 0xF0, 0x80, 0xBF⟩
  else if n = 0xF4 then .longer ⟨3, 4, 0x80, 0x8F⟩
  else .invalid

/-- Reads from the middle of a character, if one is pending. Each longest part that cannot
be continued gives one `none`. -/
def decodeFrom : Option Pending → List UInt8 → List (Option Char)
  | none, [] => []
  | some _, [] => [none]
  | none, b :: bs =>
    match start b with
    | .whole c => some c :: decodeFrom none bs
    | .longer p => decodeFrom (some p) bs
    | .invalid => none :: decodeFrom none bs
  | some p, b :: bs =>
    let n := b.toNat
    if p.low ≤ n && n ≤ p.high then
      let value := p.value * 64 + (n - 0x80)
      if p.missing ≤ 1 then some (Char.ofNat value) :: decodeFrom none bs
      else decodeFrom (some { missing := p.missing - 1, value }) bs
    else
      none :: match start b with
        | .whole c => some c :: decodeFrom none bs
        | .longer p => decodeFrom (some p) bs
        | .invalid => none :: decodeFrom none bs

def decode (bs : List UInt8) : List (Option Char) := decodeFrom none bs

/-- The text, with U+FFFD for every part that is not UTF-8. -/
def lossy (bs : List UInt8) : String := String.ofList ((decode bs).map (·.getD '\uFFFD'))

/-- The text, if all of it is UTF-8. -/
def text? (bs : List UInt8) : Option String :=
  let cs := decode bs
  if cs.all Option.isSome then some (String.ofList (cs.filterMap id)) else none

def encode (s : String) : List UInt8 := s.toUTF8.toList

end Synopsis.Utf8
