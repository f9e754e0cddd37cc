import Mathlib.Tactic.SplitIfs
import Synopsis.Proofs.XmlReader

/-! Documents in XML can be read back: whatever strings a document holds, its elements are
exactly those of its contents, in order. -/
namespace Synopsis.Xml

/-! ### Signatures, imports and files -/

def signatureMarks (s : Signature) : List Mark :=
  [.signature s.text] ++ if s.doc.isEmpty then [] else [.doc s.doc]

theorem shows_writeSignature (s : Signature) : Shows (writeSignature s) (signatureMarks s) := by
  have hsignature : Opens "      <signature>" .signature :=
    ⟨"      ".toList, "signature".toList, rfl, by decide, by decide, by decide, rfl⟩
  have hdoc : Opens "      <doc>" .doc :=
    ⟨"      ".toList, "doc".toList, rfl, by decide, by decide, by decide, rfl⟩
  unfold writeSignature signatureMarks
  refine (shows_element _ "</signature>\n" s.text _ hsignature rfl (by decide)).append ?_
  split_ifs
  · exact shows_empty
  · exact shows_element _ "</doc>\n" s.doc _ hdoc rfl (by decide)

theorem not_mem_digits (n : Nat) (c : Char) (hc : c.isDigit = false) :
    c ∉ (toString n).toList := by
  intro h
  have hmem : c ∈ Nat.toDigits 10 n := by simpa using h
  have hdigit := Nat.isDigit_of_mem_toDigits (by decide) (by decide) hmem
  simp [hc] at hdigit

theorem clean_digits (n : Nat) : Clean (toString n) :=
  ⟨not_mem_digits n '<' rfl, not_mem_digits n '>' rfl, not_mem_digits n '"' rfl⟩

theorem plain_digits (n : Nat) : plain (toString n).toList = toString n := by
  rw [plain_of_not_mem _ (not_mem_digits n '&' rfl), String.ofList_toList]

theorem ofEntry_line (direction : Direction) (n : Nat) (name : String) :
    Mark.ofEntry direction (toString n) name =
      fun path => .dependency ⟨direction, path, name, n⟩ := by
  have hdigits : (toString n).toList = Nat.toDigits 10 n := by simp
  funext path
  rw [Mark.ofEntry, hdigits, Nat.ofDigitChars_toDigits (by decide) (by decide)]

/-- The start tag of an import or export. -/
def dependencyTag (d : Dependency) : String :=
  "        <" ++ d.direction.word ++ " line=\"" ++ toString d.line ++ "\"" ++
    (if d.name.isEmpty then "" else " name=\"" ++ escape d.name ++ "\"") ++ ">"

def dependencyAttributes (d : Dependency) : List (String × String) :=
  (d.direction.word ++ " line=", toString d.line) ::
    if d.name.isEmpty then [] else [(" name=", escape d.name)]

theorem toList_dependencyTag (d : Dependency) :
    (dependencyTag d).toList =
      "        ".toList ++ '<' :: (tagOf (dependencyAttributes d) ++ ['>']) := by
  have hlead : "        <".toList = "        ".toList ++ ['<'] := rfl
  have hline : " line=\"".toList = " line=".toList ++ ['"'] := rfl
  have hname : " name=\"".toList = " name=".toList ++ ['"'] := rfl
  have hquote : "\"".toList = ['"'] := rfl
  have hend : ">".toList = ['>'] := rfl
  have hempty : "".toList = [] := rfl
  unfold dependencyTag dependencyAttributes tagOf
  split_ifs
  · simp only [String.toList_append, hlead, hline, hquote, hend, hempty, List.append_assoc,
      List.cons_append, List.nil_append, List.flatMap_cons, List.flatMap_nil]
  · simp only [String.toList_append, hlead, hline, hname, hquote, hend, List.append_assoc,
      List.cons_append, List.nil_append, List.flatMap_cons, List.flatMap_nil]

theorem clean_dependencyAttributes (d : Dependency) :
    ∀ a ∈ dependencyAttributes d, Clean a.1 ∧ Clean a.2 := by
  have hline : Clean (d.direction.word ++ " line=") := by
    cases d.direction <;> exact ⟨by decide, by decide, by decide⟩
  have hname : Clean " name=" := ⟨by decide, by decide, by decide⟩
  unfold dependencyAttributes
  intro a ha
  split_ifs at ha
  · obtain rfl : a = _ := by simpa using ha
    exact ⟨hline, clean_digits d.line⟩
  · rcases List.mem_cons.mp ha with rfl | ha
    · exact ⟨hline, clean_digits d.line⟩
    · obtain rfl : a = _ := by simpa using ha
      exact ⟨hname, clean_escape d.name⟩

theorem opens_dependencyTag (d : Dependency) :
    Opens (dependencyTag d) fun path => .dependency { d with path } := by
  refine opens_tagOf _ _ _ _ (by decide) (clean_dependencyAttributes d)
    (toList_dependencyTag d) ?_
  obtain ⟨direction, path, name, line⟩ := d
  have hword : plain (direction.word ++ " line=").toList = direction.word ++ " line=" := by
    cases direction <;> rfl
  have hname : plain " name=".toList = " name=" := rfl
  rw [← ofEntry_line]
  unfold dependencyAttributes
  split_ifs with hempty
  · obtain rfl : name = "" := by simpa using hempty
    rw [List.flatMap_singleton, hword, plain_digits]
    cases direction <;> rfl
  · rw [List.flatMap_cons, List.flatMap_singleton, hword, hname, plain_digits, plain_escape]
    cases direction <;> rfl

theorem shows_writeImport (d : Dependency) : Shows (writeImport d) [.dependency d] := by
  -- the start tag, the path and the end tag, each one piece
  have hwrite : writeImport d =
      dependencyTag d ++ escape d.path ++ ("</" ++ d.direction.word ++ ">\n") := by
    change dependencyTag d ++ escape d.path ++ "</" ++ d.direction.word ++ ">\n" = _
    simp only [String.append_assoc]
  rw [hwrite]
  refine shows_element _ _ d.path _ (opens_dependencyTag d) ?_ ?_
  · cases d.direction <;> rfl
  · cases d.direction <;> decide

theorem shows_writeImports (ds : List Dependency) :
    Shows (writeImports ds) (ds.map .dependency) := by
  have hjoin := shows_join writeImport (fun d => [Mark.dependency d]) ds shows_writeImport
  rw [← List.map_eq_flatMap] at hjoin
  cases ds with
  | nil => exact shows_empty
  | cons d ds =>
    have hopen := shows_silent "      <imports>\n" (by decide)
    have hclose := shows_silent "      </imports>\n" (by decide)
    have h := (hopen.append hjoin).append hclose
    rw [List.nil_append, List.append_nil] at h
    exact h

def textMarks (includeImports : Bool) (f : FileReport) : List Mark :=
  match f.error with
  | some e => [.error e]
  | none => (if includeImports then f.imports.map .dependency else []) ++
      f.signatures.flatMap signatureMarks

theorem shows_writeContents (includeImports : Bool) (f : FileReport) :
    Shows (writeContents includeImports f) (textMarks includeImports f) := by
  have herror : Opens "      <error>" .error :=
    ⟨"      ".toList, "error".toList, rfl, by decide, by decide, by decide, rfl⟩
  unfold writeContents textMarks
  cases f.error with
  | some e => exact shows_element _ "</error>\n" e _ herror rfl (by decide)
  | none =>
    refine Shows.append ?_ (shows_join _ _ _ shows_writeSignature)
    split_ifs
    · exact shows_writeImports f.imports
    · exact shows_empty

def fileMarks (includeImports : Bool) (f : FileReport) : List Mark :=
  [.file f.path f.language] ++ textMarks includeImports f

theorem opens_fileTag (path language : String) :
    Opens ("    <file path=\"" ++ escape path ++ "\" language=\"" ++ escape language ++ "\">")
      fun _ => .file path language := by
  have hpath : Clean "file path=" := ⟨by decide, by decide, by decide⟩
  have hlanguage : Clean " language=" := ⟨by decide, by decide, by decide⟩
  have hlead : "    <file path=\"".toList =
      "    ".toList ++ '<' :: ("file path=".toList ++ ['"']) := rfl
  have hmiddle : "\" language=\"".toList = '"' :: (" language=".toList ++ ['"']) := rfl
  have hend : "\">".toList = ['"', '>'] := rfl
  refine opens_tagOf _ "    ".toList
    [("file path=", escape path), (" language=", escape language)] _ (by decide) ?_ ?_ ?_
  · intro a ha
    rcases List.mem_cons.mp ha with rfl | ha
    · exact ⟨hpath, clean_escape path⟩
    · obtain rfl := List.mem_singleton.mp ha
      exact ⟨hlanguage, clean_escape language⟩
  · simp only [String.toList_append, hlead, hmiddle, hend, tagOf, List.append_assoc,
      List.cons_append, List.nil_append, List.flatMap_cons, List.flatMap_nil]
  · have hkey : plain "file path=".toList = "file path=" := rfl
    have hkey' : plain " language=".toList = " language=" := rfl
    rw [List.flatMap_cons, List.flatMap_singleton, hkey, hkey', plain_escape, plain_escape]
    rfl

/-- The line end behind the start tag of a file is no part of its contents. -/
theorem shows_fileTag (path language : String) :
    Shows ("    <file path=\"" ++ escape path ++ "\" language=\"" ++ escape language ++ "\">\n")
      [.file path language] := by
  have hline : "\">\n".toList = "\">".toList ++ ['\n'] := rfl
  intro rest
  rw [String.toList_append, hline, ← List.append_assoc, ← String.toList_append,
    List.append_assoc, marks_opens _ _ _ (opens_fileTag path language)]
  exact congrArg _ (marks_text ['\n'] rest (by decide))

theorem shows_writeFile (includeImports : Bool) (f : FileReport) :
    Shows (writeFile includeImports f) (fileMarks includeImports f) := by
  have htext := shows_writeContents includeImports f
  have hclose := shows_silent "    </file>\n" (by decide)
  have h := ((shows_fileTag f.path f.language).append htext).append hclose
  rw [List.append_nil] at h
  exact h

/-! ### The whole document -/

def treeMarks (tree : String) : List Mark := if tree.isEmpty then [] else [.tree tree]

theorem shows_writeTree (tree : String) : Shows (writeTree tree) (treeMarks tree) := by
  have htree : Opens "    <tree>" .tree :=
    ⟨"    ".toList, "tree".toList, rfl, by decide, by decide, by decide, rfl⟩
  unfold writeTree treeMarks
  split_ifs
  · exact shows_empty
  · exact shows_element _ "</tree>\n" tree _ htree rfl (by decide)

/-- The list of symbols repeats texts but shows no element. -/
theorem shows_writeSymbols (d : Document) : Shows (writeSymbols d) [] := by
  have hline (s : Signature) : Shows ("      - " ++ escape s.text ++ "\n") [] :=
    ((shows_silent "      - " (by decide)).append (shows_escape s.text)).append
      (shows_silent "\n" (by decide))
  unfold writeSymbols
  split_ifs
  · exact shows_empty
  · have hlines := shows_join _ _ (d.files.flatMap (·.signatures)) hline
    rw [List.flatMap_eq_nil_iff.mpr fun _ _ => rfl] at hlines
    exact ((shows_silent "    <symbols>\n" (by decide)).append hlines).append
      (shows_silent "    </symbols>\n" (by decide))

def documentMarks (d : Document) : List Mark :=
  treeMarks d.tree ++ d.files.flatMap (fileMarks d.includeImports)

/-- The elements of a written document are its own: no string of it adds, hides or moves one. -/
theorem marks_render (d : Document) : marks (render d).toList = documentMarks d := by
  have hhead := shows_silent
    "<?xml version=\"1.0\" encoding=\"UTF-8\"?>\n<brief>\n  <metadata>\n" (by decide)
  have hmiddle := shows_silent "  </metadata>\n  <files>\n" (by decide)
  have hend := shows_silent "  </files>\n</brief>\n" (by decide)
  have hfiles := shows_join _ _ d.files (shows_writeFile d.includeImports)
  have h := ((((hhead.append (shows_writeTree d.tree)).append (shows_writeSymbols d)).append
    hmiddle).append hfiles).append hend
  have hrender : marks ((render d).toList ++ []) = _ := h []
  rw [List.append_nil] at hrender
  rw [hrender, marks, List.nil_append, List.append_nil, List.append_nil, List.append_nil,
    List.append_nil, documentMarks]

/-! ### What the reader makes of them -/

/-- What a document shows of a file: its error alone, or its imports, if the document has any,
and its signatures. -/
def contentsOfFile (includeImports : Bool) (f : FileReport) : FileContents where
  path := f.path
  language := f.language
  text := match f.error with
    | some e => .failed e
    | none => .extracted (if includeImports then f.imports else [])
        (f.signatures.map fun s => (s.text, s.doc))

def contentsOf (d : Document) : Contents where
  tree := d.tree
  files := d.files.map (contentsOfFile d.includeImports)

theorem read_signatureMarks (s : Signature) (files : List FileContents)
    (signatures : List (String × String)) :
    (signatureMarks s).foldr Reading.add { files, signatures } =
      { files, signatures := (s.text, s.doc) :: signatures } := by
  unfold signatureMarks
  split_ifs with hempty
  · obtain hdoc : s.doc = "" := by simpa using hempty
    rw [hdoc]
    rfl
  · rfl

theorem read_signatures (ss : List Signature) (files : List FileContents) :
    (ss.flatMap signatureMarks).foldr Reading.add { files } =
      { files, signatures := ss.map fun s => (s.text, s.doc) } := by
  induction ss with
  | nil => rfl
  | cons s ss ih =>
    rw [List.flatMap_cons, List.foldr_append, ih, read_signatureMarks]
    rfl

theorem read_imports (ds : List Dependency) (files : List FileContents)
    (signatures : List (String × String)) :
    (ds.map Mark.dependency).foldr Reading.add { files, signatures } =
      { files, signatures, imports := ds } := by
  induction ds with
  | nil => rfl
  | cons d ds ih =>
    rw [List.map_cons, List.foldr_cons, ih]
    rfl

theorem read_file (includeImports : Bool) (f : FileReport) (files : List FileContents) :
    (fileMarks includeImports f).foldr Reading.add { files } =
      { files := contentsOfFile includeImports f :: files } := by
  rw [fileMarks, List.foldr_append]
  cases herror : f.error with
  | some e => simp [textMarks, contentsOfFile, herror, Reading.add, Reading.text]
  | none =>
    cases includeImports with
    | false =>
      simp [textMarks, contentsOfFile, herror, read_signatures, Reading.add, Reading.text]
    | true =>
      simp [textMarks, contentsOfFile, herror, read_signatures, read_imports, Reading.add,
        Reading.text]

theorem read_files (includeImports : Bool) (fs : List FileReport) :
    (fs.flatMap (fileMarks includeImports)).foldr Reading.add {} =
      { files := fs.map (contentsOfFile includeImports) } := by
  induction fs with
  | nil => rfl
  | cons f fs ih =>
    rw [List.flatMap_cons, List.foldr_append, ih, read_file]
    rfl

theorem read_tree (tree : String) (files : List FileContents) :
    (treeMarks tree).foldr Reading.add { files } = { tree, files } := by
  unfold treeMarks
  split_ifs with hempty
  · obtain rfl : tree = "" := by simpa using hempty
    rfl
  · rfl

theorem read_documentMarks (d : Document) :
    (documentMarks d).foldr Reading.add {} =
      { tree := d.tree, files := d.files.map (contentsOfFile d.includeImports) } := by
  rw [documentMarks, List.foldr_append, read_files, read_tree]

/-- Reading a written document gives its contents, whatever characters its strings have, and
the elements found on the way are those of the contents: no string forges or hides one. -/
theorem decode_render (d : Document) :
    decode (render d) = contentsOf d ∧ marks (render d).toList = documentMarks d := by
  refine ⟨?_, marks_render d⟩
  rw [decode, marks_render, read_documentMarks]
  rfl

end Synopsis.Xml
