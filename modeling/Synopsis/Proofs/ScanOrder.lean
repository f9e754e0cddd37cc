import Synopsis.Proofs.ScanFilters
import Synopsis.Proofs.Text

/-! The result of scanning a directory: its order is that of the paths, whatever the order of the
files in the tree, and no rule of an ignore file brings back what is never shown. -/
namespace Synopsis

/-! ### Names and the paths made of them -/

/-- A name that a file or directory can have. -/
@[mk_iff]
structure IsName (n : String) : Prop where
  ne_empty : n ≠ ""
  no_slash : '/' ∉ n.toList
  ne_dot : n ≠ "."
  ne_dots : n ≠ ".."

instance : DecidablePred IsName := fun n => decidable_of_iff _ (isName_iff n).symm

/-- The names along a path are its components. -/
theorem components_join (names : List String) (h : ∀ n ∈ names, IsName n) :
    Path.components (Text.join "/" names) = names.map String.toList := by
  cases names with
  | nil => rfl
  | cons n names =>
    have hparts : Path.parts (Text.join "/" (n :: names)) = (n :: names).map String.toList :=
      Text.splitWhere_join "/" '/' rfl (n :: names) (by simp) fun m hm => (h m hm).no_slash
    have hfirst : n.toList.isEmpty = false := by
      simpa using (h n List.mem_cons_self).ne_empty
    -- no name is empty or a dot, so none is dropped
    have hrest : (names.map String.toList).filter (fun w => !w.isEmpty && w != ['.']) =
        names.map String.toList := by
      refine List.filter_eq_self.mpr ?_
      intro w hw
      obtain ⟨m, hm, rfl⟩ := List.mem_map.mp hw
      have hname := h m (List.mem_cons_of_mem n hm)
      have hdot : m.toList ≠ ['.'] := fun hm => hname.ne_dot (String.toList_injective hm)
      simpa [hdot] using hname.ne_empty
    rw [Path.components, hparts, List.map_cons]
    simp only [hfirst, hrest]
    rfl

theorem join_injective (names names' : List String) (h : ∀ n ∈ names, IsName n)
    (h' : ∀ n ∈ names', IsName n) (heq : Text.join "/" names = Text.join "/" names') :
    names = names' := by
  have hmap : names.map String.toList = names'.map String.toList := by
    rw [← components_join names h, ← components_join names' h', heq]
  exact List.map_injective_iff.mpr (fun _ _ => String.toList_injective) hmap

/-- A path ends in the last of its names. -/
theorem fileName?_join (names : List String) (h : ∀ n ∈ names, IsName n) :
    Path.fileName? (Text.join "/" names) = names.getLast? := by
  rw [Path.fileName?, components_join names h, List.getLast?_map]
  cases hlast : names.getLast? with
  | none => rfl
  | some n =>
    have hname := h n (List.mem_of_getLast? hlast)
    have hdot : n.toList ≠ ['.'] := fun hn => hname.ne_dot (String.toList_injective hn)
    have hdots : n.toList ≠ ['.', '.'] := fun hn => hname.ne_dots (String.toList_injective hn)
    simp [hdot, hdots]

/-- The language of a path is that of its last name. -/
theorem ofPath?_join (names : List String) (h : ∀ n ∈ names, IsName n) :
    Language.ofPath? (Text.join "/" names) = Language.ofPath? (names.getLast?.getD "") := by
  have hname : Path.fileName? (Text.join "/" names) = Path.fileName? (names.getLast?.getD "") := by
    rw [fileName?_join names h]
    cases hlast : names.getLast? with
    | none => rfl
    | some n =>
      have hn := fileName?_join [n] (by simpa using h n (List.mem_of_getLast? hlast))
      exact hn.symm
  simp only [Language.ofPath?, Path.extension?, hname]

/-- A tree as a file system holds it: one entry for each location, and proper names. -/
structure FileTree.WellFormed (t : FileTree) : Prop where
  distinct : (t.entries.map (·.1)).Nodup
  names : ∀ x ∈ t.entries, ∀ n ∈ x.1, IsName n

/-! ### The order of the files in a tree -/

theorem lookup_perm {α β : Type} [BEq α] [LawfulBEq α] {es es' : List (α × β)}
    (hperm : es.Perm es') (hdistinct : (es.map (·.1)).Nodup) (k : α) :
    es.lookup k = es'.lookup k := by
  -- neighbours have different keys, so they may change places
  induction hperm with
  | nil => rfl
  | cons x _ ih => rw [List.lookup_cons, List.lookup_cons, ih hdistinct.of_cons]
  | swap x y es =>
    obtain ⟨a, b⟩ := x
    obtain ⟨a', b'⟩ := y
    have hne : a ≠ a' := by
      rintro rfl
      simp at hdistinct
    simp only [List.lookup_cons]
    cases hk : k == a with
    | false => rfl
    | true =>
      have hk' : (k == a') = false := by
        rw [eq_of_beq hk]
        exact beq_false_of_ne hne
      rw [hk']
  | trans hleft _ ihleft ihright =>
    exact (ihleft hdistinct).trans (ihright ((hleft.map _).nodup_iff.mp hdistinct))

/-- What is at a location does not depend on the order of the entries. -/
theorem get?_perm {t t' : FileTree} (hperm : t.entries.Perm t'.entries)
    (hdistinct : (t.entries.map (·.1)).Nodup) : t.get? = t'.get? := by
  funext l
  rw [FileTree.get?, FileTree.get?, lookup_perm hperm hdistinct, hperm.any_eq]

section
variable {t t' : FileTree} (h : t.get? = t'.get?)
include h

theorem find_congr : t.find = t'.find := by
  have hstep : t.step = t'.step := by
    funext l part
    simp only [FileTree.step, h]
  funext path
  simp only [FileTree.find, FileTree.follow, hstep, h]

theorem ignoreSources_congr (root : String) (s : ScanSettings) :
    ignoreSources t root s = ignoreSources t' root s := by
  have hread : t.read = t'.read := by
    funext path
    simp only [FileTree.read, find_congr h]
  have hfile : t.isFile = t'.isFile := by
    funext path
    simp only [FileTree.isFile, find_congr h]
  simp only [ignoreSources, hread, hfile]

theorem isReached_congr (s : ScanSettings) (sources : Ignore.Sources) (root : String)
    (base names : Location) :
    isReached t s sources root base names = isReached t' s sources root base names := by
  have hbytes : t.bytes? = t'.bytes? := by
    funext l
    simp only [FileTree.bytes?, h]
  simp only [isReached, isAdmitted, Ignore.Sources.verdict?, Ignore.closest?, Ignore.rulesIn,
    hbytes]

end

/-! ### What the walk sees below a directory -/

theorem seen_of_directory (t : FileTree) (root : String) (s : ScanSettings) (base : Location)
    (h : t.find root = .ok (base, .directory)) :
    t.seen root s = .ok (base, (t.filesBelow base).filter fun x =>
      isReached t s (ignoreSources t root s) root base x.1) := by
  simp only [FileTree.seen, h, Except.map]

/-- The files below a location have their entries, and the names below it. -/
theorem entry_of_mem_filesBelow (t : FileTree) (base : Location) (x : Location × Nat)
    (hx : x ∈ t.filesBelow base) : ∃ e, (base ++ x.1, e) ∈ t.entries := by
  obtain ⟨⟨l, e⟩, hentry, hfile⟩ := List.mem_filterMap.mp hx
  cases e with
  | directory => cases hfile
  | file bytes =>
    dsimp only at hfile
    split_ifs at hfile with hstart
    cases hfile
    obtain ⟨names, rfl⟩ := List.isPrefixOf_iff_prefix.mp hstart
    rw [List.drop_left]
    exact ⟨_, hentry⟩

theorem distinct_filesBelow (t : FileTree) (base : Location)
    (hdistinct : (t.entries.map (·.1)).Nodup) :
    (t.filesBelow base).Pairwise fun x y => x.1 ≠ y.1 := by
  -- what lies below the base at one place lies in the tree at one place
  refine List.Pairwise.filterMap _ ?_ (List.pairwise_map.mp hdistinct)
  rintro ⟨l, e⟩ ⟨l', e'⟩ hne x hx x' hx' heq
  cases e with
  | directory => cases hx
  | file bytes =>
    cases e' with
    | directory => cases hx'
    | file bytes' =>
      simp only [Option.ite_none_right_eq_some] at hx hx'
      obtain ⟨hstart, hx⟩ := hx
      obtain ⟨hstart', hx'⟩ := hx'
      obtain ⟨names, rfl⟩ := List.isPrefixOf_iff_prefix.mp hstart
      obtain ⟨names', rfl⟩ := List.isPrefixOf_iff_prefix.mp hstart'
      rw [List.drop_left] at hx hx'
      cases hx
      cases hx'
      exact hne (congrArg (base ++ ·) heq)

/-- No file is seen in a directory called `.git`, whatever the ignore files say. -/
theorem no_git_of_isReached (t : FileTree) (s : ScanSettings) (sources : Ignore.Sources)
    (root : String) (base names : Location)
    (h : isReached t s sources root base names = true) : ".git" ∉ names := by
  intro hgit
  obtain ⟨i, hi, hname⟩ := List.mem_iff_getElem.mp hgit
  have hadmitted := List.all_eq_true.mp h i (List.mem_range.mpr hi)
  have hlast : (names.take (i + 1)).getLast?.getD "" = ".git" := by
    rw [List.getLast?_take, if_neg (by omega), Nat.add_sub_cancel, List.getElem?_eq_getElem hi,
      hname]
    rfl
  simp [isAdmitted, hlast] at hadmitted

/-- What is reached without hidden files is also reached with them. -/
theorem isReached_includeHidden (t : FileTree) (s : ScanSettings) (sources : Ignore.Sources)
    (root : String) (base names : Location)
    (h : isReached t s sources root base names = true) :
    isReached t { s with includeHidden := true } sources root base names = true := by
  refine List.all_eq_true.mpr fun i hi => ?_
  have hadmitted := List.all_eq_true.mp h i hi
  simp only [isAdmitted, Bool.and_eq_true] at hadmitted ⊢
  refine ⟨hadmitted.1, ?_⟩
  have hverdict := hadmitted.2
  revert hverdict
  cases sources.verdict? t (base ++ names.take (i + 1)) _ _ with
  | none => intro _; rfl
  | some v => cases v <;> exact id

/-! ### The files that are kept -/

theorem readable_of_readAll (list : PatternList) (ps : List String) (gs : List Glob)
    (h : PathFilter.readAll list ps = .ok gs) : ∀ p ∈ ps, ∃ g, Glob.ofPattern p = .ok g := by
  induction ps generalizing gs with
  | nil => simp
  | cons p ps ih =>
    rw [PathFilter.readAll] at h
    cases hp : Glob.ofPattern p with
    | error e => simp [hp] at h
    | ok g =>
      cases hps : PathFilter.readAll list ps with
      | error e => simp [hp, hps, Except.map] at h
      | ok gs' => simpa [hp] using ih gs' hps

/-- A scan succeeds only if its patterns can be read. -/
theorem readable_of_scan (t : FileTree) (root : String) (s : ScanSettings) (r : ScanResult)
    (h : t.scan root s = .ok r) : s.Readable := by
  rw [scan_eq] at h
  cases hseen : t.seen root s with
  | error e => simp [hseen] at h
  | ok found =>
    cases hincluded : PathFilter.readAll .included s.included with
    | error e => simp [hseen, PathFilter.ofSettings, hincluded, Except.map, bind, Except.bind] at h
    | ok included =>
      cases hexcluded : PathFilter.readAll .excluded s.excluded with
      | error e =>
        simp [hseen, PathFilter.ofSettings, hincluded, hexcluded, Except.map, bind,
          Except.bind] at h
      | ok excluded =>
        intro p hp
        rcases List.mem_append.mp hp with hp | hp
        · exact readable_of_readAll _ _ _ hincluded p hp
        · exact readable_of_readAll _ _ _ hexcluded p hp

theorem sourceLanguage?_eq_some (hidden : Bool) (name language : String) :
    sourceLanguage? hidden name = some language ↔
      (hidden = true ∨ isHidden name = false) ∧ Language.ofPath? name = some language := by
  rw [sourceLanguage?, Option.ite_none_right_eq_some]
  simp

/-- A file that is kept was seen, under its path and with the language of its name. -/
theorem source_of_mem_keptFiles (s : ScanSettings) (base : Location)
    (seen : List (Location × Nat)) (f : SourceFile) (hf : f ∈ keptFiles s base seen) :
    ∃ x ∈ seen, f.path = Text.join "/" x.1 ∧
      sourceLanguage? s.includeHidden (x.1.getLast?.getD "") = some f.language := by
  obtain ⟨x, hx, hsource⟩ := List.mem_filterMap.mp (List.mem_filter.mp hf).1
  obtain ⟨language, hlanguage, rfl⟩ := Option.map_eq_some_iff.mp hsource
  exact ⟨x, hx, rfl, hlanguage⟩

theorem keptFiles_perm (s : ScanSettings) (base : Location) {seen seen' : List (Location × Nat)}
    (hperm : seen.Perm seen') : (keptFiles s base seen).Perm (keptFiles s base seen') :=
  (hperm.filterMap _).filter _

theorem distinct_keptFiles (s : ScanSettings) (base : Location) (seen : List (Location × Nat))
    (hnames : ∀ x ∈ seen, ∀ n ∈ x.1, IsName n) (hdistinct : seen.Pairwise fun x y => x.1 ≠ y.1) :
    (keptFiles s base seen).Pairwise fun a b => a.path ≠ b.path := by
  have hpaths : seen.Pairwise fun x y => Text.join "/" x.1 ≠ Text.join "/" y.1 := by
    refine hdistinct.imp_of_mem ?_
    intro x y hx hy hne heq
    exact hne (join_injective x.1 y.1 (hnames x hx) (hnames y hy) heq)
  refine (List.Pairwise.filterMap _ ?_ hpaths).filter _
  intro x y hne f hf g hg
  obtain ⟨_, _, rfl⟩ := Option.map_eq_some_iff.mp hf
  obtain ⟨_, _, rfl⟩ := Option.map_eq_some_iff.mp hg
  exact hne

/-- What is kept of some of the files is kept of all of them, and with hidden files too. -/
theorem keptFiles_subset (s : ScanSettings) (base : Location) (seen seen' : List (Location × Nat))
    (h : seen ⊆ seen') :
    keptFiles s base seen ⊆ keptFiles { s with includeHidden := true } base seen' := by
  intro f hf
  obtain ⟨hsource, hselects⟩ := List.mem_filter.mp hf
  obtain ⟨x, hx, hfile⟩ := List.mem_filterMap.mp hsource
  obtain ⟨language, hlanguage, rfl⟩ := Option.map_eq_some_iff.mp hfile
  have hshown : sourceLanguage? true (x.1.getLast?.getD "") = some language :=
    (sourceLanguage?_eq_some _ _ _).mpr ⟨.inl rfl, ((sourceLanguage?_eq_some _ _ _).mp hlanguage).2⟩
  refine List.mem_filter.mpr ⟨List.mem_filterMap.mpr ⟨x, h hx, ?_⟩, hselects⟩
  rw [sourceOf?, hshown]
  rfl

/-- Files with distinct paths are sorted strictly. -/
theorem increasing_resultOf (kept : List SourceFile) (count : Nat)
    (hdistinct : kept.Pairwise fun a b => a.path ≠ b.path) :
    (resultOf kept count).files.Pairwise fun a b => a.path < b.path := by
  have hsorted := List.pairwise_mergeSort
    (fun a b c : SourceFile => Text.trans_le a.path b.path c.path)
    (fun a b => Text.total_le a.path b.path) kept
  have hne : (resultOf kept count).files.Pairwise fun a b => a.path ≠ b.path :=
    (List.mergeSort_perm kept _).symm.pairwise hdistinct fun h => h.symm
  refine hsorted.imp₂ ?_ hne
  intro a b hle hpath
  exact lt_of_le_of_ne ((Text.le_iff _ _).mp hle) hpath

/-- The order in which files were kept is not that of the result. -/
theorem resultOf_perm (kept kept' : List SourceFile) (count : Nat) (hperm : kept.Perm kept')
    (hdistinct : kept.Pairwise fun a b => a.path ≠ b.path) :
    resultOf kept count = resultOf kept' count := by
  have hdistinct' : kept'.Pairwise fun a b => a.path ≠ b.path :=
    hperm.pairwise hdistinct fun h => h.symm
  have hfiles : (resultOf kept count).files = (resultOf kept' count).files := by
    refine List.Perm.eq_of_pairwise ?_ (increasing_resultOf kept count hdistinct)
      (increasing_resultOf kept' count hdistinct') ?_
    · intro a b _ _ hab hba
      exact absurd hba hab.asymm
    · exact ((List.mergeSort_perm kept _).trans hperm).trans (List.mergeSort_perm kept' _).symm
  have hsize : (kept.map (·.size)).sum = (kept'.map (·.size)).sum := (hperm.map _).sum_nat
  rw [resultOf, resultOf, hperm.length_eq, hsize]
  exact congrArg (fun files => ScanResult.mk files _ _) hfiles

/-! ### Scanning a directory -/

/-- What holds of the result of every scan of a directory. -/
structure CleanScan (t : FileTree) (root : String) (s : ScanSettings) (r : ScanResult) :
    Prop where
  increasing : r.files.Pairwise fun a b => a.path < b.path
  total : r.totalSize = (r.files.map (·.size)).sum
  /-- The result is the same in whatever order the tree lists its files. -/
  any_order : ∀ t' : FileTree, t'.entries.Perm t.entries → t'.scan root s = .ok r
  language : ∀ f ∈ r.files, Language.ofPath? f.path = some f.language
  no_git : ∀ f ∈ r.files, ".git".toList ∉ Path.components f.path
  no_dot : s.includeHidden = false → ∀ f ∈ r.files, ∀ n, Path.fileName? f.path = some n →
    n.toList.head? ≠ some '.'
  /-- With hidden files nothing is lost. -/
  more_hidden : ∃ all, t.scan root { s with includeHidden := true } = .ok all ∧
    r.files ⊆ all.files

/-- The scan of a directory that succeeds sorts files by distinct paths and adds up their sizes,
does not depend on the order of the files in the tree, and shows no file below `.git` and no hidden
file that is not wanted, whatever the ignore files allow. -/
theorem scan_clean (t : FileTree) (root : String) (s : ScanSettings) (base : Location)
    (r : ScanResult) (ht : t.WellFormed) (hroot : t.find root = .ok (base, .directory))
    (hscan : t.scan root s = .ok r) : CleanScan t root s r := by
  have hreadable := readable_of_scan t root s r hscan
  have hreadable' : ({ s with includeHidden := true } : ScanSettings).Readable := hreadable
  set seen := (t.filesBelow base).filter fun x =>
    isReached t s (ignoreSources t root s) root base x.1
  have hfound : t.seen root s = .ok (base, seen) := seen_of_directory t root s base hroot
  rw [scan_of_readable t root s hreadable, hfound] at hscan
  obtain rfl : resultOf (keptFiles s base seen) seen.length = r := Except.ok.inj hscan
  have hnames : ∀ x ∈ seen, ∀ n ∈ x.1, IsName n := by
    intro x hx n hn
    obtain ⟨e, hentry⟩ := entry_of_mem_filesBelow t base x (List.mem_filter.mp hx).1
    exact ht.names _ hentry n (List.mem_append_right base hn)
  have hdistinct : (keptFiles s base seen).Pairwise fun a b => a.path ≠ b.path :=
    distinct_keptFiles s base seen hnames ((distinct_filesBelow t base ht.distinct).filter _)
  have hsource : ∀ f ∈ (resultOf (keptFiles s base seen) seen.length).files,
      ∃ x ∈ seen, f.path = Text.join "/" x.1 ∧
        sourceLanguage? s.includeHidden (x.1.getLast?.getD "") = some f.language := by
    intro f hf
    exact source_of_mem_keptFiles s base seen f (List.mem_mergeSort.mp hf)
  refine
    { increasing := increasing_resultOf _ _ hdistinct
      total := ((List.mergeSort_perm _ _).map SourceFile.size).sum_nat.symm
      any_order := ?_
      language := ?_
      no_git := ?_
      no_dot := ?_
      more_hidden := ?_ }
  -- the same files are seen in another order, which sorting by distinct paths undoes
  · intro t' hperm
    have hget := get?_perm hperm ((hperm.map _).nodup_iff.mpr ht.distinct)
    have hroot' : t'.find root = .ok (base, .directory) := by
      rw [find_congr hget]
      exact hroot
    have hseen' : ((t'.filesBelow base).filter fun x =>
        isReached t' s (ignoreSources t' root s) root base x.1).Perm seen := by
      simp only [ignoreSources_congr hget, isReached_congr hget]
      exact (hperm.filterMap _).filter _
    have hresult := resultOf_perm _ _ seen.length (keptFiles_perm s base hseen'.symm) hdistinct
    rw [scan_of_readable t' root s hreadable, seen_of_directory t' root s base hroot']
    dsimp only
    rw [hseen'.length_eq, hresult]
  · intro f hf
    obtain ⟨x, hx, hpath, hlanguage⟩ := hsource f hf
    rw [hpath, ofPath?_join x.1 (hnames x hx)]
    exact ((sourceLanguage?_eq_some _ _ _).mp hlanguage).2
  · intro f hf
    obtain ⟨x, hx, hpath, _⟩ := hsource f hf
    rw [hpath, components_join x.1 (hnames x hx), List.mem_map]
    rintro ⟨n, hn, hgit⟩
    rw [String.toList_injective hgit] at hn
    exact no_git_of_isReached t s _ root base x.1 (List.mem_filter.mp hx).2 hn
  · intro hhidden f hf n hname hdot
    obtain ⟨x, hx, hpath, hlanguage⟩ := hsource f hf
    rw [hpath, fileName?_join x.1 (hnames x hx)] at hname
    have hn := hnames x hx n (List.mem_of_getLast? hname)
    rw [hname, hhidden, sourceLanguage?_eq_some] at hlanguage
    simp [isHidden, hdot, hn.ne_dot, hn.ne_dots] at hlanguage
  -- with hidden files at least as much is reached, and of that the same is kept
  · set more := (t.filesBelow base).filter fun x =>
      isReached t { s with includeHidden := true } (ignoreSources t root s) root base x.1
    have hmore : seen ⊆ more := by
      intro x hx
      obtain ⟨hbelow, hreached⟩ := List.mem_filter.mp hx
      exact List.mem_filter.mpr ⟨hbelow, isReached_includeHidden t s _ root base x.1 hreached⟩
    refine ⟨resultOf (keptFiles { s with includeHidden := true } base more) more.length, ?_, ?_⟩
    · rw [scan_of_readable t root _ hreadable', seen_of_directory t root _ base hroot]
      rfl
    · intro f hf
      rw [resultOf, List.mem_mergeSort] at hf ⊢
      exact keptFiles_subset s base seen more hmore hf

/-- A source, a hidden one, one below `.git`, and an ignore file that allows both of these. -/
def allowedSources : FileTree where
  entries := [(["p", ".git", "hook.py"], .file []), (["p", "main.go"], .file [0, 0]),
    (["p", ".ignore"], .file ("!.git\n!.run.go\n".toList.map fun c => UInt8.ofNat c.toNat)),
    (["p", ".run.go"], .file [])]

/-- The hidden source is seen and skipped, and the one below `.git` is not even seen. -/
theorem scan_clean_allowed : ∃ r, allowedSources.scan "p" {} = .ok r ∧
    r.files.map (·.path) = ["main.go"] ∧ r.skipped = 1 ∧ CleanScan allowedSources "p" {} r := by
  have hwf : allowedSources.WellFormed := ⟨by decide, by decide⟩
  have hroot : allowedSources.find "p" = .ok (["p"], .directory) := by decide +kernel
  have hscan : (allowedSources.scan "p" {}).toOption.any (fun r =>
      r.files.map (·.path) == ["main.go"] && r.skipped == 1) = true := by decide +kernel
  cases hr : allowedSources.scan "p" {} with
  | error e =>
    rw [hr] at hscan
    cases hscan
  | ok r =>
    rw [hr] at hscan
    obtain ⟨hpaths, hskipped⟩ : r.files.map (·.path) = ["main.go"] ∧ r.skipped = 1 := by
      simpa [Except.toOption] using hscan
    exact ⟨r, rfl, hpaths, hskipped, scan_clean allowedSources "p" {} ["p"] r hwf hroot hr⟩

end Synopsis
