import Synopsis.Proofs.Grammar.CapturedPlaces
import Synopsis.Proofs.Registered

/-! Languages whose queries are read as patterns over the trees of a grammar. Their texts are given
as characters, so that compiling and what is extracted can be evaluated. -/
open Synopsis.Tree

namespace Synopsis.Grammar

/-- Patterns given as characters. -/
def Patterns.ofChars (v : Patterns.Vocabulary) (cs : List Char) : Except PatternError Patterns :=
  let tokens := Patterns.tokensFrom 0 0 false cs
  Patterns.groups v cs.length (2 * tokens.length + 2) tokens

theorem Patterns.parse_ofList (v : Patterns.Vocabulary) (cs : List Char) :
    Patterns.parse v (String.ofList cs) = Patterns.ofChars v cs := by
  rw [Patterns.parse, String.toList_ofList, Patterns.ofChars]

theorem readQuery_ofList (v : Patterns.Vocabulary) (cs : List Char) (q : Patterns)
    (hq : Patterns.ofChars v cs = .ok q) : readQuery v (String.ofList cs) = .ok q.query := by
  rw [readQuery, Patterns.parse_ofList, hq]

/-- A vocabulary of all words. -/
def anyWord : Patterns.Vocabulary := ⟨fun _ => true, fun _ => true⟩

/-- A parser that reads queries over any kinds and fields, and has a tree for one source. -/
def parserOf (source : String) (root : Node) : Parser where
  readQuery := readQuery anyWord
  parse := fun text => if text = source then some root else none

/-- A language over such a parser compiles, if its queries can be read; its query is lawful, and its
source has the tree. A literal is its characters by definition, and on those a test of the language
is evaluated. -/
theorem exists_compiled (p : Profile) (source : String) (root : Node)
    (hparser : p.parser = parserOf source root) (tag : String) (cs ds : List Char)
    (hquery : p.query = String.ofList cs) (himport : p.importQuery = some (String.ofList ds))
    (test : Compiled → Bool)
    (h : (Patterns.ofChars anyWord cs).toOption.any (fun q =>
      (Patterns.ofChars anyWord ds).toOption.any fun i => test ⟨p, q.query, some i.query⟩) = true) :
    ∃ c, p.compile tag = .ok c ∧ c.query.Lawful ∧ c.profile.parser.tree source = .ok root ∧
      test c = true := by
  obtain ⟨q, hq, h⟩ := exists_of_any _ _ h
  obtain ⟨i, hi, h⟩ := exists_of_any _ _ h
  have hfirst : p.parser.readQuery p.query = .ok q.query := by
    rw [hparser, hquery]
    exact readQuery_ofList anyWord cs q hq
  have hsecond : p.importQuery.mapM (p.readQuery tag .import_) = .ok (some i.query) := by
    have hread : p.readQuery tag .import_ (String.ofList ds) = .ok i.query := by
      rw [p.readQuery_eq_ok, hparser]
      exact readQuery_ofList anyWord ds i hi
    simp [himport, hread, Functor.map, Except.map]
  have hfits : p.parser.refusal = none := by
    rw [hparser]
    rfl
  have htree : p.parser.tree source = .ok root := by
    rw [hparser]
    simp [Parser.tree, parserOf]
  exact ⟨⟨p, q.query, some i.query⟩, (p.compile_eq_ok tag _).mpr ⟨hfits, rfl, hfirst, hsecond⟩,
    q.lawful_query, htree, h⟩

end Synopsis.Grammar
