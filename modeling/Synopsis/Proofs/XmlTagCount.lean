import Mathlib
import Synopsis.Proofs.XmlRoundTrip

/-! How often a start tag occurs in a document in XML: it is counted as a plain piece of text, and
no string of the document adds to the count. -/
namespace Synopsis

/-- How often a piece of text, which is not empty, occurs in another. -/
def Text.occurrences (needle : List Char) : List Char → Nat
  | [] => 0
  | c :: cs => (if needle.isPrefixOf (c :: cs) then 1 else 0) + occurrences needle cs

namespace Xml
open Text

/-- The start tags that are counted. -/
inductive Tag where
  | file | signature | error
  deriving DecidableEq, Repr

def Tag.start : Tag → List Char
  | file => "<file ".toList
  | signature => "<signature>".toList
  | error => "<error>".toList

def Tag.all : List Tag := [file, signature, error]

/-- One tag of a sort and none of the others. -/
def Tag.one (sort : Tag) (tag : Tag) : Nat := if tag = sort then 1 else 0

/-- How many start tags of a sort a file shows. -/
def Tag.ofFile (f : FileReport) : Tag → Nat
  | file => 1
  | signature => if f.isOk then f.signatures.length else 0
  | error => if f.isOk then 0 else 1

/-! ### Pieces and their counts -/

/-- Where the text ends, no occurrence has begun that what follows could complete. -/
def settled (needle : List Char) : List Char → Bool
  | [] => true
  | c :: cs => (needle.isPrefixOf (c :: cs) || !(c :: cs).isPrefixOf needle) && settled needle cs

theorem isPrefixOf_append_of_settled (needle cs rest : List Char)
    (h : (needle.isPrefixOf cs || !cs.isPrefixOf needle) = true) :
    needle.isPrefixOf (cs ++ rest) = needle.isPrefixOf cs := by
  rw [Bool.eq_iff_iff, List.isPrefixOf_iff_prefix, List.isPrefixOf_iff_prefix]
  constructor
  · intro hlong
    rcases List.prefix_or_prefix_of_prefix hlong (List.prefix_append cs rest) with hin | hout
    · exact hin
    · -- the text would have to be the beginning of an occurrence
      simpa [List.isPrefixOf_iff_prefix.mpr hout] using h
  · intro hshort
    exact hshort.trans (List.prefix_append cs rest)

theorem occurrences_append (needle cs rest : List Char) (h : settled needle cs = true) :
    occurrences needle (cs ++ rest) = occurrences needle cs + occurrences needle rest := by
  induction cs with
  | nil => rw [List.nil_append, occurrences, Nat.zero_add]
  | cons c cs ih =>
    obtain ⟨hhead, htail⟩ := Bool.and_eq_true_iff.mp h
    have hsame := isPrefixOf_append_of_settled needle (c :: cs) rest hhead
    rw [List.cons_append] at hsame
    rw [List.cons_append, occurrences, occurrences, hsame, ih htail]
    omega

variable (tag : Tag)

/-- A piece of a document that adds so many occurrences, whatever follows it. -/
def Adds (piece : String) (n : Nat) : Prop :=
  ∀ rest, occurrences tag.start (piece.toList ++ rest) = n + occurrences tag.start rest

theorem adds_empty : Adds tag "" 0 := by
  intro rest
  rw [Nat.zero_add]
  rfl

variable {tag} in
theorem Adds.append {a b : String} {m n : Nat} (ha : Adds tag a m) (hb : Adds tag b n) :
    Adds tag (a ++ b) (m + n) := by
  intro rest
  rw [String.toList_append, List.append_assoc, ha, hb]
  omega

theorem adds_join {α : Type} (write : α → String) (count : α → Nat) (xs : List α)
    (h : ∀ x, Adds tag (write x) (count x)) :
    Adds tag (String.join (xs.map write)) (xs.map count).sum := by
  intro rest
  rw [String.toList_join, List.flatMap_map]
  induction xs with
  | nil => simp
  | cons x xs ih =>
    rw [List.flatMap_cons, List.append_assoc, h x, ih, List.map_cons, List.sum_cons]
    omega

theorem adds_join_const {α : Type} (write : α → String) (n : Nat) (xs : List α)
    (h : ∀ x, Adds tag (write x) n) : Adds tag (String.join (xs.map write)) (xs.length * n) := by
  have hsum : (xs.map fun _ => n).sum = xs.length * n := by
    rw [List.map_const', List.sum_replicate_nat]
  rw [← hsum]
  exact adds_join tag write (fun _ => n) xs h

/-- Markup that is fixed adds what it has itself. -/
theorem adds_fixed (piece : String) (count : Tag → Nat)
    (h : Tag.all.all (fun tag => settled tag.start piece.toList &&
      occurrences tag.start piece.toList == count tag) = true) :
    Adds tag piece (count tag) := by
  have hmem : tag ∈ Tag.all := by cases tag <;> decide
  obtain ⟨hsettled, hcount⟩ := Bool.and_eq_true_iff.mp (List.all_eq_true.mp h tag hmem)
  intro rest
  rw [occurrences_append _ _ _ hsettled, eq_of_beq hcount]

theorem adds_nothing (piece : String)
    (h : Tag.all.all (fun tag => settled tag.start piece.toList &&
      occurrences tag.start piece.toList == 0) = true) : Adds tag piece 0 :=
  adds_fixed tag piece (fun _ => 0) h

/-- Text without `<` adds nothing. -/
theorem adds_text (piece : String) (h : '<' ∉ piece.toList) : Adds tag piece 0 := by
  have hstart : ∃ cs, tag.start = '<' :: cs := by
    cases tag
    · exact ⟨"file ".toList, rfl⟩
    · exact ⟨"signature>".toList, rfl⟩
    · exact ⟨"error>".toList, rfl⟩
  obtain ⟨cs, hcs⟩ := hstart
  intro rest
  rw [Nat.zero_add]
  -- no occurrence starts within the text, so none reaches from it into what follows
  generalize piece.toList = text at h
  induction text with
  | nil => rfl
  | cons c text ih =>
    obtain ⟨hc, htext⟩ : '<' ≠ c ∧ '<' ∉ text := by simpa using h
    have hno : tag.start.isPrefixOf (c :: (text ++ rest)) = false := by
      rw [hcs, List.isPrefixOf_cons_cons, beq_false_of_ne hc, Bool.false_and]
    rw [List.cons_append, occurrences, hno, ih htext]
    simp

theorem adds_escape (s : String) : Adds tag (escape s) 0 := adds_text tag _ (clean_escape s).lt

variable {tag} in
/-- An element adds what its start tag does. -/
theorem adds_element {piece close : String} {n : Nat} (text : String) (hopen : Adds tag piece n)
    (hclose : Adds tag close 0) : Adds tag (piece ++ escape text ++ close) n :=
  (hopen.append (adds_escape tag text)).append hclose

/-! ### The writers -/

theorem adds_writeSignature (s : Signature) :
    Adds tag (writeSignature s) (Tag.signature.one tag) := by
  have hopen := adds_fixed tag "      <signature>" Tag.signature.one (by decide +kernel)
  have hclose := adds_nothing tag "</signature>\n" (by decide +kernel)
  unfold writeSignature
  refine (adds_element s.text hopen hclose).append (n := 0) ?_
  split_ifs
  · exact adds_empty tag
  · exact adds_element s.doc (adds_nothing tag "      <doc>" (by decide +kernel))
      (adds_nothing tag "</doc>\n" (by decide +kernel))

theorem adds_writeImport (d : Dependency) : Adds tag (writeImport d) 0 := by
  have hopen : Adds tag ("        <" ++ d.direction.word ++ " line=\"") 0 := by
    cases d.direction <;> exact adds_nothing tag _ (by decide +kernel)
  have hclose : Adds tag ("</" ++ d.direction.word ++ ">\n") 0 := by
    cases d.direction <;> exact adds_nothing tag _ (by decide +kernel)
  have hline := adds_text tag (toString d.line) (not_mem_digits d.line '<' rfl)
  have hname : Adds tag (if d.name.isEmpty then "" else " name=\"" ++ escape d.name ++ "\"") 0 := by
    split_ifs
    · exact adds_empty tag
    · exact adds_element d.name (adds_nothing tag " name=\"" (by decide +kernel))
        (adds_nothing tag "\"" (by decide +kernel))
  have hquote := adds_nothing tag "\"" (by decide +kernel)
  have hend := adds_nothing tag ">" (by decide +kernel)
  have h := adds_element d.path ((((hopen.append hline).append hquote).append hname).append hend)
    hclose
  simp only [← String.append_assoc] at h
  exact h

theorem adds_writeImports (ds : List Dependency) : Adds tag (writeImports ds) 0 := by
  have hlines := adds_join_const tag writeImport 0 ds (adds_writeImport tag)
  have hopen := adds_nothing tag "      <imports>\n" (by decide +kernel)
  have hclose := adds_nothing tag "      </imports>\n" (by decide +kernel)
  unfold writeImports
  split_ifs
  · exact adds_empty tag
  · exact (hopen.append hlines).append hclose

/-- How many start tags of a sort the contents of a file show. -/
def Tag.ofContents (f : FileReport) (tag : Tag) : Nat :=
  match f.error with
  | some _ => Tag.error.one tag
  | none => f.signatures.length * Tag.signature.one tag

theorem adds_writeContents (includeImports : Bool) (f : FileReport) :
    Adds tag (writeContents includeImports f) (tag.ofContents f) := by
  unfold writeContents Tag.ofContents
  cases f.error with
  | some e =>
    exact adds_element e (adds_fixed tag "      <error>" Tag.error.one (by decide +kernel))
      (adds_nothing tag "</error>\n" (by decide +kernel))
  | none =>
    have himports : Adds tag (if includeImports then writeImports f.imports else "") 0 := by
      split_ifs
      · exact adds_writeImports tag f.imports
      · exact adds_empty tag
    have h := himports.append
      (adds_join_const tag writeSignature (Tag.signature.one tag) f.signatures
        (adds_writeSignature tag))
    rw [Nat.zero_add] at h
    exact h

theorem ofFile_eq (f : FileReport) : Tag.file.one tag + tag.ofContents f = tag.ofFile f := by
  unfold Tag.ofContents Tag.ofFile FileReport.isOk
  cases f.error with
  | some e => cases tag <;> rfl
  | none => cases tag <;> simp [Tag.one]

theorem adds_writeFile (includeImports : Bool) (f : FileReport) :
    Adds tag (writeFile includeImports f) (tag.ofFile f) := by
  have hopen := adds_fixed tag "    <file path=\"" Tag.file.one (by decide +kernel)
  have hpath := adds_element f.path hopen (adds_nothing tag "\" language=\"" (by decide +kernel))
  have htag := adds_element f.language hpath (adds_nothing tag "\">\n" (by decide +kernel))
  have hclose := adds_nothing tag "    </file>\n" (by decide +kernel)
  rw [← ofFile_eq]
  exact (htag.append (adds_writeContents tag includeImports f)).append hclose

theorem adds_writeTree (tree : String) : Adds tag (writeTree tree) 0 := by
  unfold writeTree
  split_ifs
  · exact adds_empty tag
  · exact adds_element tree (adds_nothing tag "    <tree>" (by decide +kernel))
      (adds_nothing tag "</tree>\n" (by decide +kernel))

theorem adds_writeSymbols (d : Document) : Adds tag (writeSymbols d) 0 := by
  have hline (s : Signature) : Adds tag ("      - " ++ escape s.text ++ "\n") 0 :=
    adds_element s.text (adds_nothing tag "      - " (by decide +kernel))
      (adds_nothing tag "\n" (by decide +kernel))
  have hlines := adds_join_const tag _ 0 (d.files.flatMap (·.signatures)) hline
  unfold writeSymbols
  split_ifs
  · exact adds_empty tag
  · exact ((adds_nothing tag "    <symbols>\n" (by decide +kernel)).append hlines).append
      (adds_nothing tag "    </symbols>\n" (by decide +kernel))

/-- A start tag occurs in a document as often as its files show it. -/
theorem occurrences_render (d : Document) :
    occurrences tag.start (render d).toList = (d.files.map (Tag.ofFile · tag)).sum := by
  have hhead := adds_nothing tag
    "<?xml version=\"1.0\" encoding=\"UTF-8\"?>\n<brief>\n  <metadata>\n" (by decide +kernel)
  have hmiddle := adds_nothing tag "  </metadata>\n  <files>\n" (by decide +kernel)
  have hend := adds_nothing tag "  </files>\n</brief>\n" (by decide +kernel)
  have hfiles := adds_join tag (writeFile d.includeImports) (Tag.ofFile · tag) d.files
    (adds_writeFile tag d.includeImports)
  have h : Adds tag (render d) _ :=
    ((((hhead.append (adds_writeTree tag d.tree)).append (adds_writeSymbols tag d)).append
      hmiddle).append hfiles).append hend
  rw [Nat.zero_add, Nat.add_zero] at h
  have hrender := h []
  rw [List.append_nil] at hrender
  exact hrender

end Xml

end Synopsis
