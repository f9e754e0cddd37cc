/-! The size of a document in tokens. They are those of an encoding where there is one, and else
about four characters each. -/
namespace Synopsis.Tokens

/-- A quarter of the number of characters, rounded up. -/
def estimate (text : String) : Nat := (text.length + 3) / 4

/-- How many tokens a text has in an encoding, which gives their number for each text. -/
def count (encoding? : Option (String → Nat)) (text : String) : Nat :=
  if text.isEmpty then 0 else encoding?.getD estimate text

end Synopsis.Tokens
