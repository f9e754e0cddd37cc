import Synopsis.Builtin
import Synopsis.Package
import Synopsis.Proofs.Registered
import Synopsis.Proofs.XmlTagCount

/-! The totals of a run against the scan it made and the document it wrote. They are counted on
the records of the files, and what is compared here is the text. -/
namespace Synopsis
open Text (occurrences)

/-! ### One file -/

section OneFile
variable (read : Except IoError (List UInt8)) (r : Registry) (o : Options) (path language : String)
  (size : Nat)

/-- A file with an error shows nothing else. -/
theorem extractFile_failed (h : (extractFile read r o path language size).isOk = false) :
    (extractFile read r o path language size).signatures = [] ∧
      (extractFile read r o path language size).imports = [] := by
  revert h
  unfold extractFile
  split
  · exact fun _ => ⟨rfl, rfl⟩
  · split
    · exact fun _ => ⟨rfl, rfl⟩
    · intro h
      cases h

/-- In a language in which extraction succeeds, the errors are those of reading. -/
theorem extractFile_error (hextract : ∀ source, ∃ x, r.extract source language o = .ok x)
    (e : String) :
    (extractFile read r o path language size).error = some e ↔
      ∃ cause, read = .error cause ∧ e = "read failed: " ++ cause.message := by
  cases read with
  | error cause =>
    constructor
    · intro h
      exact ⟨cause, rfl, (Option.some.inj h).symm⟩
    · rintro ⟨_, hcause, rfl⟩
      cases hcause
      rfl
  | ok bytes =>
    obtain ⟨x, hx⟩ := hextract (Utf8.lossy bytes)
    simp [extractFile, hx]

end OneFile

/-- No failure to read is worded as a language that is not supported. -/
theorem read_failed_ne_unsupported (cause tag : String) :
    "read failed: " ++ cause ≠ (ExtractError.unsupportedLanguage tag).message := by
  intro h
  have hchars : "read failed: ".toList ++ cause.toList =
      "unsupported language: ".toList ++ tag.toList := by
    rw [← String.toList_append, ← String.toList_append]
    exact congrArg String.toList h
  have hfirst : 'r' = 'u' := (List.cons.inj hchars).1
  exact absurd hfirst (by decide)

/-! ### The scan -/

/-- Whatever a scan looks at, its result comes from selecting among the files it has seen. -/
theorem scan_eq_ok (t : FileTree) (root : String) (s : ScanSettings) (scanned : ScanResult)
    (h : t.scan root s = .ok scanned) :
    ∃ filter base seen, scanned = selectFiles s filter base seen := by
  unfold FileTree.scan at h
  cases hfind : t.find root with
  | error e => simp [hfind] at h
  | ok found =>
    obtain ⟨base, entry⟩ := found
    cases hfilter : PathFilter.ofSettings s with
    | error e => simp [hfind, hfilter, bind, Except.bind] at h
    | ok filter =>
      cases entry with
      | file bytes =>
        simp [hfind, hfilter, bind, Except.bind, pure, Except.pure] at h
        exact ⟨filter, _, _, h.symm⟩
      | directory =>
        simp [hfind, hfilter, bind, Except.bind, pure, Except.pure] at h
        exact ⟨filter, _, _, h.symm⟩

section Select
variable (s : ScanSettings) (filter : PathFilter) (base : Location) (seen : List (Location × Nat))

theorem totalSize_selectFiles : (selectFiles s filter base seen).totalSize =
    ((selectFiles s filter base seen).files.map (·.size)).sum := by
  refine List.Perm.sum_nat (List.Perm.map SourceFile.size ?_)
  exact (List.mergeSort_perm _ _).symm

/-- A file that is kept is in the language of its extension. -/
theorem language_selectFiles (f : SourceFile) (hf : f ∈ (selectFiles s filter base seen).files) :
    ∃ name, Language.ofPath? name = some f.language := by
  have hkept := (List.mergeSort_perm _ _).mem_iff.mp hf
  obtain ⟨⟨names, size⟩, _, hnames⟩ := List.mem_filterMap.mp hkept
  obtain ⟨language, hlanguage, rfl⟩ := Option.map_eq_some_iff.mp hnames
  refine ⟨names.getLast?.getD "", ?_⟩
  simp only [keptLanguage?, Option.bind_eq_bind, Option.bind_eq_some_iff] at hlanguage
  obtain ⟨_, _, found, hfound, _, _, _, _, hreturned⟩ := hlanguage
  rw [hfound]
  exact hreturned

end Select

/-! ### The run -/

/-- What a run gives for a document. -/
def packageOf (format : OutputFormat) (c : Config) (encoding? : Option (String → Nat))
    (d : Document) (skipped : Nat) : Package where
  content := d.render format
  format := format
  totalFiles := d.files.length
  totalSignatures := d.totalSignatures
  totalSize := d.totalSize
  tokens := if c.output.tokens then some (Tokens.count encoding? (d.render format)) else none
  errors := (d.files.filter fun f => !f.isOk).length
  skipped := skipped

/-- Packing fails only in the choice of the format and in the scan. -/
theorem package_eq_ok (t : FileTree) (r : Registry) (c : Config) (root : String)
    (encoding? : Option (String → Nat)) (p : Package) :
    t.package r c root encoding? = .ok p ↔ ∃ format scanned,
      OutputFormat.ofName c.output.format = .ok format ∧ t.scan root c.scan = .ok scanned ∧
      p = packageOf format c encoding? (documentOf t r c scanned) scanned.skipped := by
  unfold FileTree.package
  cases hformat : OutputFormat.ofName c.output.format with
  | error e => simp [Except.mapError, bind, Except.bind]
  | ok format =>
    cases hscan : t.scan root c.scan with
    | error e => simp [Except.mapError, bind, Except.bind]
    | ok scanned =>
      constructor
      · intro h
        exact ⟨format, scanned, rfl, rfl, (Except.ok.inj h).symm⟩
      · rintro ⟨_, _, hf, hs, rfl⟩
        cases hf
        cases hs
        rfl

section Counts
variable (t : FileTree) (r : Registry) (c : Config) (scanned : ScanResult)

theorem mem_documentOf (f : FileReport) (hf : f ∈ (documentOf t r c scanned).files) :
    ∃ s ∈ scanned.files,
      f = extractFile (t.readAt s.location) r c.extract s.path s.language s.size := by
  obtain ⟨s, hs, rfl⟩ := List.mem_map.mp hf
  exact ⟨s, hs, rfl⟩

theorem documentOf_failed (f : FileReport) (hf : f ∈ (documentOf t r c scanned).files)
    (hfailed : f.isOk = false) : f.signatures = [] ∧ f.imports = [] := by
  obtain ⟨s, _, rfl⟩ := mem_documentOf t r c scanned f hf
  exact extractFile_failed _ _ _ _ _ _ hfailed

theorem sum_file (fs : List FileReport) : (fs.map (Xml.Tag.ofFile · .file)).sum = fs.length := by
  induction fs with
  | nil => rfl
  | cons f fs ih =>
    rw [List.map_cons, List.sum_cons, ih, List.length_cons, Xml.Tag.ofFile]
    omega

theorem sum_error (fs : List FileReport) :
    (fs.map (Xml.Tag.ofFile · .error)).sum = (fs.filter fun f => !f.isOk).length := by
  induction fs with
  | nil => rfl
  | cons f fs ih =>
    rw [List.map_cons, List.sum_cons, ih, List.filter_cons, Xml.Tag.ofFile]
    cases f.isOk with
    | true => simp
    | false => simp; omega

/-- The files that failed have no signatures, so that those shown are all there are. -/
theorem sum_signature : ((documentOf t r c scanned).files.map (Xml.Tag.ofFile · .signature)).sum =
    (documentOf t r c scanned).totalSignatures := by
  have hfile (f : FileReport) (hf : f ∈ (documentOf t r c scanned).files) :
      Xml.Tag.ofFile f .signature = f.signatures.length := by
    rw [Xml.Tag.ofFile]
    cases hok : f.isOk with
    | true => rfl
    | false => rw [(documentOf_failed t r c scanned f hf hok).1]; rfl
  rw [List.map_congr_left hfile]
  rfl

end Counts

/-- The totals of a run agree with its scan and its document, and an error of a file excludes
everything else about it. -/
structure PackageTotals (t : FileTree) (r : Registry) (c : Config) (scanned : ScanResult)
    (p : Package) : Prop where
  content : p.content = Xml.render (documentOf t r c scanned)
  files : p.totalFiles = scanned.files.length
  fileTags : p.totalFiles = occurrences "<file ".toList p.content.toList
  signatureTags : p.totalSignatures = occurrences "<signature>".toList p.content.toList
  errorTags : p.errors = occurrences "<error>".toList p.content.toList
  size : p.totalSize = (scanned.files.map (·.size)).sum
  failed : ∀ f ∈ (documentOf t r c scanned).files, ∀ e, f.error = some e →
    f.signatures = [] ∧ f.imports = []
  readFailures : ∀ P : Parsers, P.Total → r = P.registry → ∀ s ∈ scanned.files, ∀ e,
    (extractFile (t.readAt s.location) r c.extract s.path s.language s.size).error = some e ↔
      ∃ cause, t.readAt s.location = .error cause ∧ e = "read failed: " ++ cause.message
  supported : ∀ P : Parsers, P.Total → r = P.registry →
    ∀ f ∈ (documentOf t r c scanned).files, ∀ tag,
      f.error ≠ some (ExtractError.unsupportedLanguage tag).message

/-- Extraction succeeds in every language a scan finds. -/
theorem extract_scanned (P : Parsers) (hP : P.Total) (t : FileTree) (root : String)
    (s : ScanSettings) (scanned : ScanResult) (hscan : t.scan root s = .ok scanned) (f : SourceFile)
    (hf : f ∈ scanned.files) (o : Options) (source : String) :
    ∃ x, P.registry.extract source f.language o = .ok x := by
  obtain ⟨filter, base, seen, rfl⟩ := scan_eq_ok t root s scanned hscan
  obtain ⟨name, hname⟩ := language_selectFiles s filter base seen f hf
  exact extract_registry P hP name f.language hname source o

/-- The totals of a run that writes XML are those of its scan and of the text it writes. -/
theorem package_totals (t : FileTree) (r : Registry) (c : Config) (root : String)
    (encoding? : Option (String → Nat)) (p : Package)
    (hformat : OutputFormat.ofName c.output.format = .ok .xml)
    (h : t.package r c root encoding? = .ok p) :
    ∃ scanned, t.scan root c.scan = .ok scanned ∧ PackageTotals t r c scanned p := by
  obtain ⟨format, scanned, hname, hscan, rfl⟩ := (package_eq_ok t r c root encoding? p).mp h
  cases hformat.symm.trans hname
  -- occurrences in the text are sums over the records that the totals are counted on
  have hcount (tag : Xml.Tag) := Xml.occurrences_render tag (documentOf t r c scanned)
  have hread (P : Parsers) (hP : P.Total) (hr : r = P.registry) (s : SourceFile)
      (hs : s ∈ scanned.files) (e : String) :=
    extractFile_error (t.readAt s.location) r c.extract s.path s.language s.size
      (hr ▸ extract_scanned P hP t root c.scan scanned hscan s hs c.extract) e
  refine ⟨scanned, hscan, ?_⟩
  constructor
  case content => rfl
  case files => exact List.length_map _
  case fileTags => exact ((hcount .file).trans (sum_file _)).symm
  case signatureTags => exact ((hcount .signature).trans (sum_signature t r c scanned)).symm
  case errorTags => exact ((hcount .error).trans (sum_error _)).symm
  case size =>
    obtain ⟨filter, base, seen, rfl⟩ := scan_eq_ok t root c.scan scanned hscan
    exact totalSize_selectFiles c.scan filter base seen
  case failed =>
    intro f hf e he
    refine documentOf_failed t r c scanned f hf ?_
    rw [FileReport.isOk, he]
    rfl
  case readFailures => exact hread
  case supported =>
    intro P hP hr f hf tag hfailed
    obtain ⟨s, hs, rfl⟩ := mem_documentOf t r c scanned f hf
    obtain ⟨cause, _, hcause⟩ := (hread P hP hr s hs _).mp hfailed
    exact read_failed_ne_unsupported cause.message tag hcause.symm

/-- One file, whose path and text look like markup. -/
def tagged : FileTree where
  entries := [(["<file .go"], .file ("package a // <signature>\n".toList.map (·.val.toUInt8)))]

/-- Its language is not known to an empty registry, which is an error, and is known from the
start. -/
theorem package_totals_tagged :
    OutputFormat.ofName ({} : Config).output.format = .ok .xml ∧
    (∃ p, tagged.package Registry.empty {} "." = .ok p ∧ p.errors = 1 ∧
      ∃ scanned, tagged.scan "." {} = .ok scanned ∧
        PackageTotals tagged Registry.empty {} scanned p) ∧
    ∃ p, tagged.package Registry.withBuiltins {} "." = .ok p ∧ p.totalFiles = 1 ∧
      ∃ scanned, tagged.scan "." {} = .ok scanned ∧
        PackageTotals tagged Registry.withBuiltins {} scanned p := by
  obtain ⟨p, hp, herrors⟩ := exists_of_any (tagged.package Registry.empty {} ".")
    (fun p => p.errors == 1) (by decide +kernel)
  obtain ⟨q, hq, hfiles⟩ := exists_of_any (tagged.package Registry.withBuiltins {} ".")
    (fun p => p.totalFiles == 1) (by decide +kernel)
  obtain ⟨format, hformat, hxml⟩ := exists_of_any (OutputFormat.ofName ({} : Config).output.format)
    (· == .xml) (by decide +kernel)
  rw [eq_of_beq hxml] at hformat
  exact ⟨hformat, ⟨p, hp, eq_of_beq herrors, package_totals tagged _ {} "." none p hformat hp⟩,
    q, hq, eq_of_beq hfiles, package_totals tagged _ {} "." none q hformat hq⟩

end Synopsis
