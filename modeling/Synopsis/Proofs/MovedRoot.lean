import Synopsis.Proofs.GlobMatch
import Synopsis.Proofs.IgnoreSources

/-! Scanning from another directory. A tree is put below a directory, and this directory is scanned
from outside instead of from within. Files with rules for their own directory move with the tree.
The rules of a file that is read alone are for paths from the current directory, and they have to
mean the same for the longer paths. -/
namespace Synopsis

namespace FileTree

/-- The tree below a directory, with nothing else there. -/
def under (r : String) (t : FileTree) : FileTree :=
  ⟨([r], .directory) :: t.entries.map fun x => (r :: x.1, x.2)⟩

section
variable (t : FileTree) (r : String) (h : t.get? [] = some .directory)

theorem lookup_under (es : List (Location × Entry)) (r : String) (l : Location) :
    (es.map fun x => (r :: x.1, x.2)).lookup (r :: l) = es.lookup l := by
  induction es with
  | nil => rfl
  | cons x es ih =>
    rw [List.map_cons, List.lookup_cons, List.lookup_cons, ih]
    simp [List.cons_beq_cons]

theorem lookup_outside (l : Location) (hl : l.head? ≠ some r) :
    (t.under r).entries.lookup l = none := by
  rw [List.lookup_eq_none_iff]
  intro x hx
  have hhead : x.1.head? = some r := by
    rcases List.mem_cons.mp hx with rfl | hx
    · rfl
    · obtain ⟨y, _, rfl⟩ := List.mem_map.mp hx
      rfl
  rw [bne_iff_ne]
  rintro rfl
  exact hl hhead

include h

/-- Below the directory is what was in the tree. -/
theorem get?_under (l : Location) : (t.under r).get? (r :: l) = t.get? l := by
  cases l with
  | nil =>
    rw [h, get?, under, List.lookup_cons_self]
  | cons n l =>
    have hkey : (r :: n :: l == [r]) = false := by simp
    have hany : (t.under r).entries.any (fun x => (r :: n :: l).isPrefixOf x.1) =
        t.entries.any fun x => (n :: l).isPrefixOf x.1 := by
      simp [under, List.isPrefixOf, Function.comp_def]
    rw [get?, get?, hany, under, List.lookup_cons, hkey]
    simp only [lookup_under]
    rfl

omit h in
/-- Outside of the directory there is no file. -/
theorem bytes?_outside (l : Location) (hl : l.head? ≠ some r) : (t.under r).bytes? l = none := by
  rw [bytes?, get?, t.lookup_outside r l hl]
  dsimp only
  split_ifs <;> rfl

theorem bytes?_under (l : Location) : (t.under r).bytes? (r :: l) = t.bytes? l := by
  rw [bytes?, t.get?_under r h]
  rfl

theorem bytes?_beside (l : Location) (hl : l.head? = some r → t.bytes? l.tail = none) :
    (t.under r).bytes? l = none := by
  by_cases hhead : l.head? = some r
  · obtain ⟨rest, rfl⟩ := List.head?_eq_some_iff.mp hhead
    rw [t.bytes?_under r h]
    exact hl hhead
  · exact t.bytes?_outside r l hhead

end

theorem filesBelow_under (t : FileTree) (r : String) :
    (t.under r).filesBelow [r] = t.filesBelow [] := by
  rw [filesBelow, filesBelow, under, List.filterMap_cons_none rfl, List.filterMap_map]
  refine List.filterMap_congr fun x _ => ?_
  obtain ⟨l, e⟩ := x
  cases e <;> simp

end FileTree

/-! ### Verdicts -/

namespace Ignore

theorem directoriesAbove_cons (r : String) (l : Location) :
    directoriesAbove (r :: l) = (directoriesAbove l).map (r :: ·) ++ [[]] := by
  rw [directoriesAbove, List.length_cons, List.range_succ_eq_map, List.map_cons, List.map_map,
    List.reverse_cons, directoriesAbove, List.map_reverse, List.map_map]
  rfl

section
variable (t : FileTree) (r : String) (h : t.get? [] = some .directory)
  (hgit : r = ".git" → t.bytes? ["info", "exclude"] = none)
include h hgit

/-- No rules lie beside the directory. -/
theorem rulesIn_beside (s : Sources) (files : List Location) (hfiles : files ∈ s.kinds) :
    rulesIn (t.under r) [] files = [] := by
  have hroot : t.bytes? [] = none := by rw [FileTree.bytes?, h]
  rw [rulesIn, List.flatMap_eq_nil_iff]
  intro f hf
  rw [List.nil_append, t.bytes?_beside r h f]
  · rfl
  · intro hhead
    simp only [Sources.kinds, List.mem_cons, List.not_mem_nil, or_false] at hfiles
    rcases hfiles with rfl | rfl | rfl | rfl
    · obtain ⟨n, _, rfl⟩ := List.mem_map.mp hf
      exact hroot
    · rw [List.mem_singleton.mp hf]
      exact hroot
    · rw [List.mem_singleton.mp hf]
      exact hroot
    · rw [List.mem_singleton.mp hf] at hhead ⊢
      exact hgit (Option.some.inj hhead).symm

/-- Files with rules for their own directory have the same verdicts in the moved tree. -/
theorem closest?_under (s : Sources) (files : List Location) (hfiles : files ∈ s.kinds)
    (l : Location) (isDirectory : Bool) :
    closest? (t.under r) files (r :: l) isDirectory = closest? t files l isDirectory := by
  have hmoved (d : Location) : verdict? (rulesIn (t.under r) (r :: d) files)
      (pathFrom (r :: d) (r :: l)) isDirectory =
        verdict? (rulesIn t d files) (pathFrom d l) isDirectory := by
    simp only [rulesIn, List.cons_append, t.bytes?_under r h]
    rfl
  have hbeside : verdict? (rulesIn (t.under r) [] files) (pathFrom [] (r :: l)) isDirectory =
      none := by
    rw [rulesIn_beside t r h hgit s files hfiles]
    rfl
  -- the current directory is one level more, without rules
  rw [closest?, closest?, directoriesAbove_cons, List.findSome?_append, List.findSome?_map]
  simp only [Function.comp_def, hmoved, List.findSome?_cons, hbeside, List.findSome?_nil,
    Option.or_none]

end

/-- The rules have the same verdicts on the paths of a tree and on these paths below a directory. -/
def AgreeUnder (rules : List Rule) (t : FileTree) (r : String) : Prop :=
  ∀ x ∈ t.entries, ∀ front, front <+: x.1 → front ≠ [] → ∀ isDirectory,
    verdict? rules (Text.join "/" (r :: front)) isDirectory =
      verdict? rules (Text.join "/" front) isDirectory

/-- Rules for the last part of a path do. -/
theorem agreeUnder_of_floats (rules : List Rule) (t : FileTree) (r : String)
    (h : ∀ rule ∈ rules, rule.glob.floats = true) : AgreeUnder rules t r := by
  intro _ _ front _ hne isDirectory
  obtain ⟨n, rest, rfl⟩ := List.exists_cons_of_ne_nil hne
  have hjoin : Text.join "/" (r :: n :: rest) = r ++ "/" ++ Text.join "/" (n :: rest) := rfl
  rw [verdict?, verdict?, hjoin]
  congr 1
  refine List.find?_congr fun rule hrule => ?_
  rw [Glob.accepts_below rule.glob (h rule (List.mem_reverse.mp hrule))]

end Ignore

/-! ### The two scans -/

/-- The result with every file below a directory; its path from the root stays the same. -/
def ScanResult.below (r : String) (result : ScanResult) : ScanResult :=
  { result with files := result.files.map fun f => { f with location := r :: f.location } }

theorem withoutDot_name (r path : String) (hr : IsName r) :
    Path.withoutDot (Path.join r path) = r ++ "/" ++ path := by
  have hlast : r.toList.getLast? ≠ some '/' := fun h => hr.no_slash (List.mem_of_getLast? h)
  have hjoin : Path.join r path = r ++ "/" ++ path := by simp [Path.join, hr.ne_empty, hlast]
  rw [hjoin, Path.withoutDot]
  split
  next rest hstart =>
    exfalso
    have hdot : r.toList ++ '/' :: path.toList = '.' :: '/' :: rest := by simpa using hstart
    rcases hlist : r.toList with _ | ⟨c, _ | ⟨d, cs⟩⟩
    · exact hr.ne_empty (String.toList_eq_nil_iff.mp hlist)
    · rw [hlist] at hdot
      obtain ⟨rfl, _⟩ := List.cons.inj hdot
      exact hr.ne_dot (String.toList_injective hlist)
    · rw [hlist] at hdot
      obtain ⟨_, hrest⟩ := List.cons.inj hdot
      obtain ⟨rfl, _⟩ := List.cons.inj hrest
      exact hr.no_slash (by simp [hlist])
  next => rfl

theorem withoutDot_here (path : String) : Path.withoutDot (Path.join "." path) = path := by
  have hjoin : (Path.join "." path).toList = '.' :: '/' :: path.toList := by simp [Path.join]
  rw [Path.withoutDot, hjoin]
  exact String.ofList_toList

theorem selectFiles_under (s : ScanSettings) (filter : PathFilter) (r : String)
    (seen : List (Location × Nat)) :
    selectFiles s filter [r] seen = (selectFiles s filter [] seen).below r := by
  simp only [selectFiles, ScanResult.below, List.length_filterMap_eq_countP]
  rw [List.map_mergeSort (s := fun a b : SourceFile => Text.le a.path b.path) (by simp),
    List.map_filterMap, List.map_filterMap, List.map_filterMap]
  simp [Function.comp_def]

section
variable (t : FileTree) (r : String) (s : ScanSettings) (h : t.get? [] = some .directory)
  (hr : IsName r)
include h hr

theorem find_under : (t.under r).find r = .ok ([r], .directory) := by
  have hroot : (t.under r).get? [] = some .directory := by
    rw [FileTree.get?, t.lookup_outside r [] (by simp)]
    rfl
  rw [FileTree.find_of_follow _ r [r] (FileTree.follow_name _ r hroot hr), t.get?_under r h, h]

omit hr in
theorem find_here : t.find "." = .ok ([], .directory) := by
  have hfollow : t.follow "." = .ok [] := by
    have hparts : Path.parts "." = [['.']] := by decide
    have habsolute : Path.isAbsolute "." = false := by decide
    simp [FileTree.follow, hparts, habsolute, FileTree.step, h]
  rw [t.find_of_follow "." [] hfollow, h]

theorem ignoreSources_under (hname : IsName s.ignoreFile) :
    ignoreSources (t.under r) r s = ignoreSources t "." s := by
  by_cases husual : s.ignoreFile = ".gitignore" ∨ s.ignoreFile = ".briefignore"
  · rw [ignoreSources_usual _ _ s husual, ignoreSources_usual _ _ s husual]
  · obtain ⟨hgit, hbrief⟩ := not_or.mp husual
    have honly :
        onlyIgnoreFile? (t.under r) [r] s.ignoreFile = onlyIgnoreFile? t [] s.ignoreFile := by
      have hbeside : (t.under r).bytes? [s.ignoreFile] = none := by
        refine t.bytes?_beside r h _ fun _ => ?_
        rw [List.tail_cons, FileTree.bytes?, h]
      rw [onlyIgnoreFile?, onlyIgnoreFile?, hbeside, List.cons_append, t.bytes?_under r h]
      simp
    rw [ignoreSources_name _ r s [r] (find_under t r h hr) hname hgit hbrief,
      ignoreSources_name t "." s [] (find_here t h) hname hgit hbrief, honly]

end

/-- A scan from within a directory and one from outside, where nothing else lies, have the same
result if the rules that are read alone mean the same for both. -/
theorem scan_under (t : FileTree) (r : String) (s : ScanSettings)
    (h : t.get? [] = some .directory) (hr : IsName r) (hname : IsName s.ignoreFile)
    (hgit : r = ".git" → t.bytes? ["info", "exclude"] = none)
    (hagree : Ignore.AgreeUnder (ignoreSources t "." s).extra t r) :
    (t.under r).scan r s = (t.scan "." s).map (·.below r) := by
  have hreached : ∀ x ∈ t.filesBelow [],
      isReached (t.under r) s (ignoreSources (t.under r) r s) r [r] x.1 =
        isReached t s (ignoreSources t "." s) "." [] x.1 := by
    intro x hx
    obtain ⟨bytes, hentry, _⟩ := (mem_filesBelow t [] x).mp hx
    rw [ignoreSources_under t r s h hr hname]
    apply isReached_of_verdict
    intro front hfront hne isDirectory
    apply Ignore.Sources.verdict?_congr rfl
    · -- files with rules for their own directory have moved along
      intro files hfiles
      exact Ignore.closest?_under t r h hgit _ files hfiles front isDirectory
    · -- the rules that are read alone see the longer path
      have hjoin : r ++ "/" ++ Text.join "/" front = Text.join "/" (r :: front) := by
        cases front with
        | nil => exact absurd rfl hne
        | cons n rest => rfl
      rw [withoutDot_name r _ hr, withoutDot_here, hjoin]
      exact hagree _ hentry front hfront hne isDirectory
  rw [scan_eq, scan_eq, seen_of_directory _ r s [r] (find_under t r h hr),
    seen_of_directory t "." s [] (find_here t h), t.filesBelow_under r,
    List.filter_congr hreached]
  dsimp only
  cases PathFilter.ofSettings s with
  | error e => rfl
  | ok filter => exact congrArg Except.ok (selectFiles_under s filter r _)

/-- A file in the root leaves some of the sources out, by rules for the last part of a path. -/
def floatingSources : FileTree where
  entries := [(["my.ignore"], .file (Utf8.encode "*.gen.py\nvendor/\n")),
    (["vendor", "v.py"], .file []), (["src", "a.gen.py"], .file []),
    (["src", "main.py"], .file [0])]

/-- The file leaves out the same sources from outside. -/
theorem scan_under_floating :
    let s : ScanSettings := { ignoreFile := "my.ignore" }
    ∃ result, floatingSources.scan "." s = .ok result ∧
      result.files.map (·.path) = ["src/main.py"] ∧ result.skipped = 1 ∧
      (floatingSources.under "lib").scan "lib" s = .ok (result.below "lib") := by
  intro s
  have hfloats : ∀ rule ∈ (ignoreSources floatingSources "." s).extra, rule.glob.floats = true := by
    decide +kernel
  have hmoved := scan_under floatingSources "lib" s (by decide) (by decide) (by decide)
    (fun hgit => absurd hgit (by decide)) (Ignore.agreeUnder_of_floats _ _ _ hfloats)
  have hscan : (floatingSources.scan "." s).toOption.any (fun result =>
      result.files.map (·.path) == ["src/main.py"] && result.skipped == 1) = true := by
    decide +kernel
  cases hresult : floatingSources.scan "." s with
  | error e =>
    rw [hresult] at hscan
    cases hscan
  | ok result =>
    rw [hresult] at hscan hmoved
    obtain ⟨hpaths, hskipped⟩ :
        result.files.map (·.path) = ["src/main.py"] ∧ result.skipped = 1 := by
      simpa [Except.toOption] using hscan
    exact ⟨result, rfl, hpaths, hskipped, hmoved⟩

-- a directory called `.git` holds the exclude file of the directory it is in, not one of its own
example :
    let t : FileTree := ⟨[(["info", "exclude"], .file (Utf8.encode "x.py")), (["x.py"], .file [])]⟩
    (t.scan "." {}).toOption.any (·.files.map (·.path) == ["x.py"]) = true ∧
    ((t.under ".git").scan ".git" {}).toOption.any (·.files == []) = true := by
  decide +kernel

/-- A source that a file in the root leaves out by its path from there. -/
def anchoredSource : FileTree where
  entries := [(["my.ignore"], .file (Utf8.encode "/gen.py\n")), (["gen.py"], .file [])]

/-- From outside, the rule is for a path from the current directory, and the source is returned. -/
theorem anchored_rule_stays :
    let s : ScanSettings := { ignoreFile := "my.ignore" }
    anchoredSource.get? [] = some .directory ∧ IsName "r" ∧ IsName s.ignoreFile ∧
    (anchoredSource.scan "." s).toOption.any (fun result =>
      result.files == [] && result.skipped == 1) = true ∧
    ((anchoredSource.under "r").scan "r" s).toOption.any (fun result =>
      result.files.map (·.path) == ["gen.py"] && result.skipped == 1) = true ∧
    (anchoredSource.under "r").scan "r" s ≠ (anchoredSource.scan "." s).map (·.below "r") := by
  intro s
  have hwithin : (anchoredSource.scan "." s).toOption.any (fun result =>
      result.files == [] && result.skipped == 1) = true := by decide +kernel
  have houtside : ((anchoredSource.under "r").scan "r" s).toOption.any (fun result =>
      result.files.map (·.path) == ["gen.py"] && result.skipped == 1) = true := by decide +kernel
  refine ⟨by decide, by decide, by decide, hwithin, houtside, fun hsame => ?_⟩
  rw [hsame] at houtside
  cases hresult : anchoredSource.scan "." s with
  | error e =>
    rw [hresult] at hwithin
    cases hwithin
  | ok result =>
    rw [hresult] at hwithin houtside
    obtain ⟨hnone, _⟩ : result.files = [] ∧ result.skipped = 1 := by
      simpa [Except.toOption] using hwithin
    simp [Except.map, Except.toOption, ScanResult.below, hnone] at houtside

end Synopsis
