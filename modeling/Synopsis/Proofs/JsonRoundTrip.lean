import Mathlib
import Synopsis.Proofs.JsonReader

/-! Documents in JSON can be read back: the text is read as a value, and the value's fields give
the document again, but for what the format leaves out. -/
namespace Synopsis.JsonValue

/-! ### Records from fields -/

def string? : JsonValue → Option String
  | str s => some s
  | _ => none

def nat? : JsonValue → Option Nat
  | num n => some n
  | _ => none

def bool? : JsonValue → Option Bool
  | bool b => some b
  | _ => none

def listOf? (read : JsonValue → Option α) : JsonValue → Option (List α)
  | arr items => items.mapM read
  | _ => none

/-- A field that has to be there. -/
def field? (v : JsonValue) (name : String) (read : JsonValue → Option α) : Option α :=
  match v with
  | obj fields => (fields.lookup name) >>= read
  | _ => none

/-- A field that is left out where it has its default. -/
def fieldOr? (v : JsonValue) (name : String) (dflt : α) (read : JsonValue → Option α) : Option α :=
  match v with
  | obj fields =>
    match fields.lookup name with
    | some x => read x
    | none => some dflt
  | _ => none

def toSignature? (v : JsonValue) : Option Signature := do
  return {
    name := ← v.field? "name" string?
    kind := ← v.field? "kind" fun k => k.string?.map Kind.ofWord
    text := ← v.field? "text" string?
    doc := ← v.field? "doc" string?
    line := ← v.field? "line" nat?
    endLine := ← v.field? "endLine" nat?
    language := ← v.field? "language" string?
    exported := ← v.field? "exported" bool? }

def toDirection? : JsonValue → Option Direction
  | str "import" => some .import_
  | str "export" => some .export_
  | _ => none

def toDependency? (v : JsonValue) : Option Dependency := do
  return {
    direction := ← v.field? "type" toDirection?
    path := ← v.field? "path" string?
    name := ← v.field? "name" string?
    line := ← v.field? "line" nat? }

def toFile? (v : JsonValue) : Option FileReport := do
  return {
    path := ← v.field? "path" string?
    language := ← v.field? "language" string?
    signatures := ← v.field? "signatures" (listOf? toSignature?)
    imports := ← v.fieldOr? "imports" [] (listOf? toDependency?)
    error := ← v.fieldOr? "error" none fun e => e.string?.map some }

def toDocument? (v : JsonValue) : Option Document := do
  return {
    tree := ← v.fieldOr? "tree" "" string?
    files := ← v.field? "files" (listOf? toFile?)
    totalSignatures := ← v.field? "totalSignatures" nat?
    totalSize := ← v.field? "totalSize" nat? }

/-! ### Written records are read back -/

theorem word_ofWord (w : String) : (Kind.ofWord w).word = w := by
  have hwords : ∀ p ∈ Kind.vocabulary, p.2.word = p.1 := by decide
  unfold Kind.ofWord
  cases h : Kind.vocabulary.lookup w with
  | none => rfl
  | some k =>
    obtain ⟨before, behind, hsplit, -⟩ := List.lookup_eq_some_iff.mp h
    exact hwords (w, k) (by rw [hsplit]; simp)

/-- A list of records is read back if each of them is. -/
theorem listOf?_map {α : Type} (write : α → JsonValue) (read : JsonValue → Option α)
    (shown : α → α) (xs : List α) (h : ∀ x ∈ xs, read (write x) = some (shown x)) :
    listOf? read (arr (xs.map write)) = some (xs.map shown) := by
  change (xs.map write).mapM read = some (xs.map shown)
  induction xs with
  | nil => rfl
  | cons x xs ih =>
    have hx := h x List.mem_cons_self
    have hxs := ih fun y hy => h y (List.mem_cons_of_mem x hy)
    rw [List.map_cons, List.mapM_cons, hx, hxs]
    rfl

theorem toSignature?_ofSignature (s : Signature) (h : ∃ w, s.kind = Kind.ofWord w) :
    (ofSignature s).toSignature? = some s := by
  obtain ⟨w, hw⟩ := h
  have hkind : Kind.ofWord s.kind.word = s.kind := by rw [hw, word_ofWord]
  simp [toSignature?, ofSignature, field?, List.lookup, string?, nat?, bool?, hkind]

theorem toDependency?_ofDependency (d : Dependency) :
    (ofDependency d).toDependency? = some d := by
  have hdirection : toDirection? (str d.direction.word) = some d.direction := by
    cases d.direction <;> rfl
  simp [toDependency?, ofDependency, field?, List.lookup, string?, nat?, hdirection]

/-- What a document in JSON shows of a file: all but its size. -/
def shownFile (f : FileReport) : FileReport := { f with size := 0 }

/-- What it shows of a document: all but whether imports were wanted. -/
def shown (d : Document) : Document :=
  { d with files := d.files.map shownFile, includeImports := false }

theorem toFile?_ofFile (f : FileReport) (h : ∀ s ∈ f.signatures, ∃ w, s.kind = Kind.ofWord w) :
    (ofFile f).toFile? = some (shownFile f) := by
  obtain ⟨path, language, signatures, imports, error, size⟩ := f
  have hsignatures := listOf?_map ofSignature toSignature? id signatures fun s hs =>
    toSignature?_ofSignature s (h s hs)
  have himports := listOf?_map ofDependency toDependency? id imports fun d _ =>
    toDependency?_ofDependency d
  -- where there are no imports or no error, the default is taken for the missing field
  by_cases hnone : imports = []
  · cases error <;>
      simp [toFile?, ofFile, shownFile, field?, fieldOr?, List.lookup, string?, hsignatures, hnone]
  · cases error <;>
      simp [toFile?, ofFile, shownFile, field?, fieldOr?, List.lookup, string?, hsignatures,
        himports, hnone]

theorem toDocument?_ofDocument (d : Document)
    (h : ∀ f ∈ d.files, ∀ s ∈ f.signatures, ∃ w, s.kind = Kind.ofWord w) :
    (ofDocument d).toDocument? = some (shown d) := by
  obtain ⟨tree, files, totalSignatures, totalSize, includeImports⟩ := d
  have hfiles := listOf?_map ofFile toFile? shownFile files fun f hf => toFile?_ofFile f (h f hf)
  by_cases htree : tree = ""
  · simp [toDocument?, ofDocument, shown, field?, fieldOr?, List.lookup, nat?, htree,
      hfiles]
  · simp [toDocument?, ofDocument, shown, field?, fieldOr?, List.lookup, nat?, string?,
      htree, hfiles]

/-- A document whose kinds are those that words name is read back from its JSON form, whatever
characters its strings have. -/
theorem toDocument?_render (d : Document)
    (h : ∀ f ∈ d.files, ∀ s ∈ f.signatures, ∃ w, s.kind = Kind.ofWord w) :
    ∃ v, read? (render d) = some v ∧ v.toDocument? = some (shown d) :=
  ⟨ofDocument d, read?_pretty (ofDocument d), toDocument?_ofDocument d h⟩

/-- Quotes, backslashes, control characters and surrogates, a kind with a word of its own, and
files with and without imports and errors. -/
theorem toDocument?_render_special :
    let d : Document :=
      { tree := "a\"\\\x01\n\u2028😀"
        files :=
          [{ path := "m.c", language := "c", size := 7
             signatures :=
              [⟨"f", .function, "int f(\t\x7f)", "\x08\x0c\r", 1, 3, "c", true⟩,
               ⟨"A", Kind.ofWord "preproc_if", "#if A", "", 4, 4, "c", false⟩]
             imports := [⟨.import_, "<s.h>", "", 1⟩, ⟨.export_, "", "\"", 20⟩] },
           { path := "", language := "go", error := some "\x00" }]
        totalSignatures := 2
        totalSize := 18446744073709551615
        includeImports := true }
    (∀ f ∈ d.files, ∀ s ∈ f.signatures, ∃ w, s.kind = Kind.ofWord w) ∧
      ∃ v, read? (render d) = some v ∧ v.toDocument? = some (shown d) := by
  intro d
  have h : ∀ f ∈ d.files, ∀ s ∈ f.signatures, ∃ w, s.kind = Kind.ofWord w := by
    intro f hf s hs
    obtain rfl | rfl : f = _ ∨ f = _ := by simpa [d] using hf
    · obtain rfl | rfl : s = _ ∨ s = _ := by simpa using hs
      · exact ⟨"function", rfl⟩
      · exact ⟨"preproc_if", rfl⟩
    · simp at hs
  exact ⟨h, toDocument?_render d h⟩

end Synopsis.JsonValue
