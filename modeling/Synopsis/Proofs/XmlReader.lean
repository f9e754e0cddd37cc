import Synopsis.Document.Xml

/-! A reader of documents in XML, and how it reads what the writer's pieces put down. A start
tag is taken with the text up to the next `<`; of these only the elements that carry contents
count. -/
namespace Synopsis.Xml

/-- What a document shows of a file: why nothing was extracted, or the imports and the texts
of the signatures, each with its documentation. -/
inductive FileText where
  | failed (error : String)
  | extracted (imports : List Dependency) (signatures : List (String × String))
  deriving DecidableEq, Repr

structure FileContents where
  path : String
  language : String
  text : FileText
  deriving DecidableEq, Repr

/-- What a document shows. -/
structure Contents where
  tree : String
  files : List FileContents
  deriving DecidableEq, Repr

/-! ### The reader -/

def unescape : List Char → List Char
  | '&' :: 'a' :: 'm' :: 'p' :: ';' :: cs => '&' :: unescape cs
  | '&' :: 'l' :: 't' :: ';' :: cs => '<' :: unescape cs
  | '&' :: 'g' :: 't' :: ';' :: cs => '>' :: unescape cs
  | '&' :: 'q' :: 'u' :: 'o' :: 't' :: ';' :: cs => '"' :: unescape cs
  | '&' :: 'a' :: 'p' :: 'o' :: 's' :: ';' :: cs => '\'' :: unescape cs
  | c :: cs => c :: unescape cs
  | [] => []

/-- The string that some characters of a document stand for. -/
def plain (cs : List Char) : String := String.ofList (unescape cs)

/-- An element that carries contents. -/
inductive Mark where
  | tree (text : String)
  | error (text : String)
  | signature (text : String)
  | doc (text : String)
  | file (path language : String)
  | dependency (d : Dependency)
  deriving DecidableEq, Repr

/-- An import or export of which all but the path is read. -/
def Mark.ofEntry (direction : Direction) (line name path : String) : Mark :=
  .dependency ⟨direction, path, name, Nat.ofDigitChars 10 line.toList 0⟩

/-- What a start tag, cut at its quotes, makes of the text behind it. -/
def Mark.ofParts? : List String → Option (String → Mark)
  | ["tree"] => some .tree
  | ["error"] => some .error
  | ["signature"] => some .signature
  | ["doc"] => some .doc
  | ["file path=", path, " language=", language, ""] => some fun _ => .file path language
  | ["import line=", line, ""] => some (ofEntry .import_ line "")
  | ["import line=", line, " name=", name, ""] => some (ofEntry .import_ line name)
  | ["export line=", line, ""] => some (ofEntry .export_ line "")
  | ["export line=", line, " name=", name, ""] => some (ofEntry .export_ line name)
  | _ => none

def parts (tag : List Char) : List String := (tag.splitOnP (· == '"')).map plain

/-- The element of a segment that starts behind a `<` and ends before the next. -/
def mark? (segment : List Char) : Option Mark :=
  (Mark.ofParts? (parts (segment.takeWhile (· != '>')))).map
    fun m => m (plain ((segment.dropWhile (· != '>')).drop 1))

/-- The elements of a document in order. -/
def marks : List Char → List Mark
  | [] => []
  | c :: cs => (if c == '<' then (mark? (cs.takeWhile (· != '<'))).toList else []) ++ marks cs

/-- What is known of a document from some element on: the files that start there and what
belongs to the file before them. -/
structure Reading where
  tree : String := ""
  files : List FileContents := []
  error : Option String := none
  imports : List Dependency := []
  signatures : List (String × String) := []
  doc : String := ""
  deriving DecidableEq, Repr

def Reading.text (r : Reading) : FileText :=
  match r.error with
  | some e => .failed e
  | none => .extracted r.imports r.signatures

def Reading.add (m : Mark) (r : Reading) : Reading :=
  match m with
  | .tree text => { r with tree := text }
  | .error text => { r with error := some text }
  -- what was kept of a `doc` behind the signature is used up
  | .signature text => { r with signatures := (text, r.doc) :: r.signatures, doc := "" }
  | .doc text => { r with doc := text }
  -- all that was read since the next file belongs to this one
  | .file path language => { tree := r.tree, files := ⟨path, language, r.text⟩ :: r.files }
  | .dependency d => { r with imports := d :: r.imports }

/-- The contents of a document, read from its last element to its first. -/
def decode (s : String) : Contents :=
  let r := (marks s.toList).foldr Reading.add {}
  ⟨r.tree, r.files⟩

/-! ### Escaped text -/

theorem toList_escape (s : String) :
    (escape s).toList = s.toList.flatMap fun c => (escapeChar c).toList := by
  rw [escape, String.toList_join, List.flatMap_map]

theorem escapeChar_cases (c : Char) :
    (c = '&' ∨ c = '<' ∨ c = '>' ∨ c = '"' ∨ c = '\'') ∨
      (escapeChar c = String.singleton c ∧ c ≠ '&' ∧ c ≠ '<' ∧ c ≠ '>' ∧ c ≠ '"') := by
  unfold escapeChar
  split <;> simp_all

theorem not_mem_escape (s : String) (d : Char) (hd : d = '<' ∨ d = '>' ∨ d = '"') :
    d ∉ (escape s).toList := by
  rw [toList_escape, List.mem_flatMap]
  rintro ⟨c, _, hc⟩
  rcases escapeChar_cases c with hspecial | ⟨hself, _, hne⟩
  · -- an entity is made of letters, `&` and `;`
    rcases hspecial with rfl | rfl | rfl | rfl | rfl <;> rcases hd with rfl | rfl | rfl <;>
      exact absurd hc (by decide)
  · rw [hself, String.toList_singleton, List.mem_singleton] at hc
    subst hc
    simp [hne] at hd

/-- A string without the characters that delimit markup. -/
structure Clean (s : String) : Prop where
  lt : '<' ∉ s.toList
  gt : '>' ∉ s.toList
  quote : '"' ∉ s.toList

theorem clean_escape (s : String) : Clean (escape s) where
  lt := not_mem_escape s '<' (by simp)
  gt := not_mem_escape s '>' (by simp)
  quote := not_mem_escape s '"' (by simp)

theorem unescape_cons (c : Char) (cs : List Char) (hc : c ≠ '&') :
    unescape (c :: cs) = c :: unescape cs := by
  rw [unescape] <;> simp [hc]

theorem unescape_escapeChar (c : Char) (cs : List Char) :
    unescape ((escapeChar c).toList ++ cs) = c :: unescape cs := by
  rcases escapeChar_cases c with (rfl | rfl | rfl | rfl | rfl) | ⟨hself, hne, _⟩
  · rfl
  · rfl
  · rfl
  · rfl
  · rfl
  · rw [hself, String.toList_singleton]
    exact unescape_cons c cs hne

theorem unescape_flatMap_escapeChar (cs : List Char) :
    unescape (cs.flatMap fun c => (escapeChar c).toList) = cs := by
  induction cs with
  | nil => rfl
  | cons c cs ih => rw [List.flatMap_cons, unescape_escapeChar, ih]

@[simp] theorem plain_escape (s : String) : plain (escape s).toList = s := by
  rw [plain, toList_escape, unescape_flatMap_escapeChar, String.ofList_toList]

/-- Text without `&` stands for itself. -/
theorem plain_of_not_mem (cs : List Char) (h : '&' ∉ cs) : plain cs = String.ofList cs := by
  have hsame : unescape cs = cs := by
    induction cs with
    | nil => rfl
    | cons c cs ih =>
      obtain ⟨hc, hcs⟩ : '&' ≠ c ∧ '&' ∉ cs := by simpa using h
      rw [unescape_cons c cs (Ne.symm hc), ih hcs]
  rw [plain, hsame]

/-! ### Tags -/

theorem bne_of_not_mem (cs : List Char) (d : Char) (h : d ∉ cs) :
    ∀ c ∈ cs, (c != d) = true := by
  intro c hc
  rw [bne_iff_ne]
  rintro rfl
  exact h hc

theorem parts_cons (key tag : List Char) (h : '"' ∉ key) :
    parts (key ++ '"' :: tag) = plain key :: parts tag := by
  have hfree : ∀ c ∈ key, (c == '"') = false := by
    intro c hc
    simpa using bne_of_not_mem key '"' h c hc
  rw [parts, List.splitOnP_append_cons_of_forall_mem hfree _ rfl, List.map_cons, parts]

/-- Text without `<` holds no marks. -/
theorem marks_text (cs rest : List Char) (h : '<' ∉ cs) : marks (cs ++ rest) = marks rest := by
  induction cs with
  | nil => rfl
  | cons c cs ih =>
    obtain ⟨hc, hcs⟩ : '<' ≠ c ∧ '<' ∉ cs := by simpa using h
    rw [List.cons_append, marks, ih hcs]
    simp [Ne.symm hc]

/-- Tags end at `>`, whatever follows. -/
theorem mark?_eq (tag text : List Char) (h : '>' ∉ tag) :
    mark? (tag ++ '>' :: text) = (Mark.ofParts? (parts tag)).map fun m => m (plain text) := by
  have hfree := bne_of_not_mem tag '>' h
  rw [mark?, List.takeWhile_append_of_pos hfree, List.dropWhile_append_of_pos hfree]
  simp

theorem marks_tag (tag rest : List Char) (hlt : '<' ∉ tag) (hgt : '>' ∉ tag) :
    marks ('<' :: (tag ++ '>' :: rest)) =
      ((Mark.ofParts? (parts tag)).map
        fun m => m (plain (rest.takeWhile (· != '<')))).toList ++ marks rest := by
  have hfree := bne_of_not_mem (tag ++ ['>']) '<' (by simp [hlt])
  have htag : (tag ++ '>' :: rest).takeWhile (· != '<') =
      tag ++ '>' :: rest.takeWhile (· != '<') := by
    have h : (tag ++ ['>'] ++ rest).takeWhile (· != '<') =
        tag ++ ['>'] ++ rest.takeWhile (· != '<') := List.takeWhile_append_of_pos hfree
    simpa using h
  have hrest : marks (tag ++ '>' :: rest) = marks rest := by
    have h := marks_text (tag ++ ['>']) rest (by simp [hlt])
    simpa using h
  rw [marks, htag, mark?_eq tag _ hgt, hrest]
  simp

/-- Markup that carries no contents: whole tags, none of which is a mark. -/
def silent : List Char → Bool
  | [] => true
  | c :: cs =>
    (c != '<' || ((cs.takeWhile (· != '<')).contains '>' &&
      (mark? (cs.takeWhile (· != '<'))).isNone)) && silent cs

theorem takeWhile_append_exists (p : Char → Bool) (cs rest : List Char) :
    ∃ more, (cs ++ rest).takeWhile p = cs.takeWhile p ++ more := by
  rw [List.takeWhile_append]
  split
  next hlength =>
    have hall : cs.takeWhile p = cs := (List.takeWhile_prefix p).eq_of_length hlength
    exact ⟨rest.takeWhile p, by rw [hall]⟩
  next => exact ⟨[], by simp⟩

/-- What follows the end of a tag does not make it a mark. -/
theorem mark?_append (segment more : List Char) (h : '>' ∈ segment) :
    (mark? (segment ++ more)).isNone = (mark? segment).isNone := by
  obtain ⟨tag, text, rfl, htag⟩ := List.eq_append_cons_of_mem h
  rw [List.append_assoc, List.cons_append, mark?_eq tag _ htag, mark?_eq tag _ htag]
  simp

theorem marks_silent (cs rest : List Char) (h : silent cs = true) :
    marks (cs ++ rest) = marks rest := by
  induction cs with
  | nil => rfl
  | cons c cs ih =>
    obtain ⟨hc, hcs⟩ := Bool.and_eq_true_iff.mp h
    rw [List.cons_append, marks, ih hcs]
    by_cases hlt : c = '<'
    · obtain ⟨hend, hnone⟩ : '>' ∈ cs.takeWhile (· != '<') ∧
          (mark? (cs.takeWhile (· != '<'))).isNone = true := by
        simpa [hlt] using hc
      obtain ⟨more, hmore⟩ := takeWhile_append_exists (· != '<') cs rest
      rw [← mark?_append _ more hend, ← hmore, Option.isNone_iff_eq_none] at hnone
      simp [hnone]
    · simp [hlt]

/-! ### Pieces of a document -/

/-- A piece of a document that shows some elements, whatever follows it. -/
def Shows (piece : String) (ms : List Mark) : Prop :=
  ∀ rest, marks (piece.toList ++ rest) = ms ++ marks rest

theorem shows_empty : Shows "" [] := fun _ => rfl

theorem Shows.append {a b : String} {ms ns : List Mark} (ha : Shows a ms) (hb : Shows b ns) :
    Shows (a ++ b) (ms ++ ns) := by
  intro rest
  rw [String.toList_append, List.append_assoc, ha, hb, List.append_assoc]

/-- Pieces that are written one after the other show their elements one after the other. -/
theorem shows_join {α : Type} (write : α → String) (found : α → List Mark) (xs : List α)
    (h : ∀ x, Shows (write x) (found x)) :
    Shows (String.join (xs.map write)) (xs.flatMap found) := by
  intro rest
  rw [String.toList_join, List.flatMap_map]
  induction xs with
  | nil => rfl
  | cons x xs ih =>
    rw [List.flatMap_cons, List.flatMap_cons, List.append_assoc, h x, ih, List.append_assoc]

theorem shows_silent (piece : String) (h : silent piece.toList = true) : Shows piece [] :=
  fun rest => marks_silent piece.toList rest h

/-- Escaped text shows no element. -/
theorem shows_escape (s : String) : Shows (escape s) [] :=
  fun rest => marks_text _ rest (clean_escape s).lt

/-- A piece that ends with a start tag. -/
def Opens (piece : String) (m : String → Mark) : Prop :=
  ∃ lead tag, piece.toList = lead ++ '<' :: (tag ++ ['>']) ∧ '<' ∉ lead ∧ '<' ∉ tag ∧
    '>' ∉ tag ∧ Mark.ofParts? (parts tag) = some m

theorem marks_opens (piece : String) (rest : List Char) (m : String → Mark)
    (h : Opens piece m) :
    marks (piece.toList ++ rest) = m (plain (rest.takeWhile (· != '<'))) :: marks rest := by
  obtain ⟨lead, tag, hpiece, hlead, hlt, hgt, hm⟩ := h
  calc marks (piece.toList ++ rest)
      = marks (lead ++ '<' :: (tag ++ '>' :: rest)) := by
        rw [hpiece, List.append_assoc, List.cons_append, List.append_assoc, List.singleton_append]
    _ = marks ('<' :: (tag ++ '>' :: rest)) := marks_text lead _ hlead
    _ = m (plain (rest.takeWhile (· != '<'))) :: marks rest := by
        rw [marks_tag tag rest hlt hgt, hm]
        rfl

/-- A tag of attributes: each a key, with all that stands before its quote, and a value. -/
def tagOf (attributes : List (String × String)) : List Char :=
  attributes.flatMap fun a => a.1.toList ++ '"' :: (a.2.toList ++ ['"'])

theorem parts_tagOf (attributes : List (String × String))
    (h : ∀ a ∈ attributes, Clean a.1 ∧ Clean a.2) :
    parts (tagOf attributes) =
      attributes.flatMap (fun a => [plain a.1.toList, plain a.2.toList]) ++ [""] := by
  induction attributes with
  | nil => rfl
  | cons a attributes ih =>
    obtain ⟨hkey, hvalue⟩ := h a List.mem_cons_self
    have htail := ih fun b hb => h b (List.mem_cons_of_mem a hb)
    have htag : tagOf (a :: attributes) =
        a.1.toList ++ '"' :: (a.2.toList ++ '"' :: tagOf attributes) := by
      simp [tagOf]
    rw [htag, parts_cons _ _ hkey.quote, parts_cons _ _ hvalue.quote, htail]
    rfl

theorem not_mem_tagOf (attributes : List (String × String)) (c : Char) (hc : c ≠ '"')
    (h : ∀ a ∈ attributes, c ∉ a.1.toList ∧ c ∉ a.2.toList) : c ∉ tagOf attributes := by
  intro hmem
  obtain ⟨a, ha, hmem⟩ := List.mem_flatMap.mp hmem
  obtain ⟨hkey, hvalue⟩ := h a ha
  simp [hkey, hvalue, hc] at hmem

/-- A start tag with attributes is read as its keys and values say. -/
theorem opens_tagOf (piece : String) (lead : List Char) (attributes : List (String × String))
    (m : String → Mark) (hlead : '<' ∉ lead)
    (hclean : ∀ a ∈ attributes, Clean a.1 ∧ Clean a.2)
    (hpiece : piece.toList = lead ++ '<' :: (tagOf attributes ++ ['>']))
    (hm : Mark.ofParts?
      (attributes.flatMap (fun a => [plain a.1.toList, plain a.2.toList]) ++ [""]) = some m) :
    Opens piece m := by
  refine ⟨lead, tagOf attributes, hpiece, hlead, ?_, ?_, by rw [parts_tagOf _ hclean, hm]⟩
  · exact not_mem_tagOf attributes '<' (by decide) fun a ha =>
      ⟨(hclean a ha).1.lt, (hclean a ha).2.lt⟩
  · exact not_mem_tagOf attributes '>' (by decide) fun a ha =>
      ⟨(hclean a ha).1.gt, (hclean a ha).2.gt⟩

/-- An element with its text, whatever characters the text has. -/
theorem shows_element (piece close text : String) (m : String → Mark) (h : Opens piece m)
    (hclose : close.toList.head? = some '<') (hsilent : silent close.toList = true) :
    Shows (piece ++ escape text ++ close) [m text] := by
  intro rest
  obtain ⟨tail, htail⟩ := List.head?_eq_some_iff.mp hclose
  have hfree := bne_of_not_mem _ '<' (clean_escape text).lt
  have htext : ((escape text).toList ++ (close.toList ++ rest)).takeWhile (· != '<') =
      (escape text).toList := by
    rw [List.takeWhile_append_of_pos hfree, htail]
    simp
  calc marks ((piece ++ escape text ++ close).toList ++ rest)
      = marks (piece.toList ++ ((escape text).toList ++ (close.toList ++ rest))) := by
        rw [String.toList_append, String.toList_append, List.append_assoc, List.append_assoc]
    _ = m (plain (escape text).toList) ::
          marks ((escape text).toList ++ (close.toList ++ rest)) := by
        rw [marks_opens piece _ m h, htext]
    _ = m text :: marks (close.toList ++ rest) := by
        rw [plain_escape, shows_escape text, List.nil_append]
    _ = [m text] ++ marks rest := by
        rw [shows_silent close hsilent, List.nil_append, List.singleton_append]

end Synopsis.Xml
