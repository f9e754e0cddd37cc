import Mathlib
import Synopsis.Scan

/-! Patterns and the size limit as filters. What a scan sees depends on neither; they decide file
by file which of the sources seen are kept, and every other file seen is counted as skipped. -/
namespace Synopsis

/-! ### What a scan sees -/

/-- The location that paths start from and the files that a scan comes to, each with the names that
lead to it and its size. -/
def FileTree.seen (t : FileTree) (root : String) (s : ScanSettings) :
    Except IoError (Location × List (Location × Nat)) :=
  (t.find root).map fun (base, entry) =>
    match entry with
    | .file bytes => (base.dropLast, [(base.drop (base.length - 1), bytes.length)])
    | .directory => (base, (t.filesBelow base).filter fun x =>
        isReached t s (ignoreSources t root s) root base x.1)

theorem scan_eq (t : FileTree) (root : String) (s : ScanSettings) :
    t.scan root s =
      match t.seen root s with
      | .error e => .error (.noRoot root e)
      | .ok (base, seen) =>
        (PathFilter.ofSettings s).map fun filter => selectFiles s filter base seen := by
  unfold FileTree.scan FileTree.seen
  cases t.find root with
  | error e => rfl
  | ok found =>
    obtain ⟨base, entry⟩ := found
    cases entry <;> cases PathFilter.ofSettings s <;> rfl

/-- Of the settings only two decide what is seen. -/
theorem seen_congr (t : FileTree) (root : String) (s s' : ScanSettings)
    (hhidden : s.includeHidden = s'.includeHidden) (hignore : s.ignoreFile = s'.ignoreFile) :
    t.seen root s = t.seen root s' := by
  have hsources : ignoreSources t root s = ignoreSources t root s' := by
    simp only [ignoreSources, hignore]
  simp only [FileTree.seen, isReached, isAdmitted, hsources, hhidden]

theorem mem_entries_of_get? (t : FileTree) (l : Location) (bytes : List UInt8)
    (h : t.get? l = some (.file bytes)) : (l, Entry.file bytes) ∈ t.entries := by
  unfold FileTree.get? at h
  split at h
  next e he =>
    cases h
    obtain ⟨before, after, hentries, _⟩ := List.lookup_eq_some_iff.mp he
    simp [hentries]
  next =>
    split_ifs at h
    cases h

theorem get?_of_find (t : FileTree) (path : String) (l : Location) (e : Entry)
    (h : t.find path = .ok (l, e)) : t.get? l = some e := by
  unfold FileTree.find at h
  cases hfollow : t.follow path with
  | error cause => simp [hfollow, bind, Except.bind] at h
  | ok l' =>
    cases hget : t.get? l' with
    | none => simp [hfollow, hget, bind, Except.bind] at h
    | some e' =>
      simp only [hfollow, hget, bind, Except.bind, Except.ok.injEq, Prod.mk.injEq] at h
      obtain ⟨rfl, rfl⟩ := h
      exact hget

/-- Every file seen is one of the tree, with its size. -/
theorem file_of_seen (t : FileTree) (root : String) (s : ScanSettings) (base : Location)
    (seen : List (Location × Nat)) (h : t.seen root s = .ok (base, seen)) (x : Location × Nat)
    (hx : x ∈ seen) :
    ∃ bytes, (base ++ x.1, Entry.file bytes) ∈ t.entries ∧ x.2 = bytes.length := by
  unfold FileTree.seen at h
  cases hfind : t.find root with
  | error e => simp [hfind, Except.map] at h
  | ok found =>
    obtain ⟨l, entry⟩ := found
    rw [hfind] at h
    -- a root that is a file is all that is seen; otherwise what lies below it
    cases entry with
    | file bytes =>
      simp only [Except.map, Except.ok.injEq, Prod.mk.injEq] at h
      obtain ⟨rfl, rfl⟩ := h
      rw [List.mem_singleton.mp hx]
      refine ⟨bytes, ?_, rfl⟩
      rw [List.dropLast_eq_take, List.take_append_drop]
      exact mem_entries_of_get? t l bytes (get?_of_find t root l _ hfind)
    | directory =>
      simp only [Except.map, Except.ok.injEq, Prod.mk.injEq] at h
      obtain ⟨rfl, rfl⟩ := h
      obtain ⟨⟨l', e⟩, hentry, hmap⟩ := List.mem_filterMap.mp (List.mem_filter.mp hx).1
      cases e with
      | directory => cases hmap
      | file bytes =>
        dsimp only at hmap
        split_ifs at hmap with hprefix
        cases hmap
        obtain ⟨names, rfl⟩ := List.isPrefixOf_iff_prefix.mp hprefix
        rw [List.drop_left]
        exact ⟨bytes, hentry, rfl⟩

/-! ### What is kept -/

/-- Some pattern of a list can be read and matches a path. -/
def matchesAny (patterns : List String) (path : String) : Bool :=
  patterns.any fun p => (Glob.ofPattern p).toOption.any (·.accepts path)

/-- Patterns and limit of the settings keep a source with this path and size. -/
def ScanSettings.selects (s : ScanSettings) (path : String) (size : Nat) : Bool :=
  (s.included.isEmpty || matchesAny s.included path) && !matchesAny s.excluded path &&
    decide (size ≤ s.maxFileSize)

/-- All patterns of the settings can be read. -/
def ScanSettings.Readable (s : ScanSettings) : Prop :=
  ∀ p ∈ s.included ++ s.excluded, ∃ g, Glob.ofPattern p = .ok g

instance (s : ScanSettings) : Decidable s.Readable :=
  decidable_of_iff (∀ p ∈ s.included ++ s.excluded, (Glob.ofPattern p).toOption.isSome = true) <| by
    refine forall₂_congr fun p _ => ?_
    cases Glob.ofPattern p <;> simp [Except.toOption]

theorem readAll_of_readable (list : PatternList) (ps : List String)
    (h : ∀ p ∈ ps, ∃ g, Glob.ofPattern p = .ok g) :
    ∃ gs, PathFilter.readAll list ps = .ok gs ∧ gs.isEmpty = ps.isEmpty ∧
      ∀ path, gs.any (·.accepts path) = matchesAny ps path := by
  induction ps with
  | nil => exact ⟨[], rfl, rfl, fun _ => rfl⟩
  | cons p ps ih =>
    obtain ⟨g, hg⟩ := h p List.mem_cons_self
    obtain ⟨gs, hgs, _, hany⟩ := ih fun q hq => h q (List.mem_cons_of_mem p hq)
    refine ⟨g :: gs, ?_, rfl, fun path => ?_⟩
    · rw [PathFilter.readAll, hg, hgs]
      rfl
    · rw [List.any_cons, hany, matchesAny, matchesAny, List.any_cons, hg]
      rfl

/-- Patterns that can be read allow what they select. -/
theorem ofSettings_of_readable (s : ScanSettings) (h : s.Readable) :
    ∃ filter, PathFilter.ofSettings s = .ok filter ∧ ∀ path size,
      (filter.allows path && decide (size ≤ s.maxFileSize)) = s.selects path size := by
  obtain ⟨included, hincluded, hempty, hany⟩ := readAll_of_readable .included s.included
    fun p hp => h p (List.mem_append_left _ hp)
  obtain ⟨excluded, hexcluded, _, hnone⟩ := readAll_of_readable .excluded s.excluded
    fun p hp => h p (List.mem_append_right _ hp)
  refine ⟨{ included, excluded }, ?_, fun path size => ?_⟩
  · rw [PathFilter.ofSettings, hincluded, hexcluded]
    rfl
  · rw [PathFilter.allows, hempty, hany, hnone, ScanSettings.selects]

/-- The language of a file that is shown, by its name. -/
def sourceLanguage? (hidden : Bool) (name : String) : Option String :=
  if hidden || !isHidden name then Language.ofPath? name else none

/-- A file that was seen, if it is a source that is shown. -/
def sourceOf? (hidden : Bool) (base : Location) (x : Location × Nat) : Option SourceFile :=
  (sourceLanguage? hidden (x.1.getLast?.getD "")).map fun language =>
    { location := base ++ x.1, path := Text.join "/" x.1, language, size := x.2 }

theorem keptLanguage?_eq (s : ScanSettings) (filter : PathFilter) (name path : String)
    (size : Nat) : keptLanguage? s filter name path size =
      if filter.allows path && decide (size ≤ s.maxFileSize) then
        sourceLanguage? s.includeHidden name else none := by
  unfold keptLanguage? sourceLanguage?
  cases hshown : s.includeHidden || !isHidden name <;> cases Language.ofPath? name <;>
    cases filter.allows path <;> by_cases hsize : size ≤ s.maxFileSize <;>
      simp only [guard, hsize] <;> rfl

/-- The files that are kept, in the order in which they were seen. -/
def keptFiles (s : ScanSettings) (base : Location) (seen : List (Location × Nat)) :
    List SourceFile :=
  (seen.filterMap (sourceOf? s.includeHidden base)).filter fun f => s.selects f.path f.size

/-- The result of a scan that has kept some of the files it has seen. -/
def resultOf (kept : List SourceFile) (count : Nat) : ScanResult where
  files := kept.mergeSort fun a b => Text.le a.path b.path
  totalSize := (kept.map (·.size)).sum
  skipped := count - kept.length

theorem selectFiles_eq (s : ScanSettings) (filter : PathFilter) (base : Location)
    (seen : List (Location × Nat))
    (hfilter : ∀ path size,
      (filter.allows path && decide (size ≤ s.maxFileSize)) = s.selects path size) :
    selectFiles s filter base seen = resultOf (keptFiles s base seen) seen.length := by
  have hkept : keptFiles s base seen = seen.filterMap fun x =>
      (keptLanguage? s filter (x.1.getLast?.getD "") (Text.join "/" x.1) x.2).map fun language =>
        { location := base ++ x.1, path := Text.join "/" x.1, language, size := x.2 } := by
    rw [keptFiles, List.filter_filterMap]
    refine List.filterMap_congr fun x _ => ?_
    rw [keptLanguage?_eq, hfilter, sourceOf?]
    cases sourceLanguage? s.includeHidden (x.1.getLast?.getD "") with
    | none => simp
    | some language => cases hselects : s.selects (Text.join "/" x.1) x.2 <;> simp [hselects]
  rw [hkept]
  rfl

theorem scan_of_readable (t : FileTree) (root : String) (s : ScanSettings) (h : s.Readable) :
    t.scan root s =
      match t.seen root s with
      | .error e => .error (.noRoot root e)
      | .ok (base, seen) => .ok (resultOf (keptFiles s base seen) seen.length) := by
  obtain ⟨filter, hfilter, hselects⟩ := ofSettings_of_readable s h
  rw [scan_eq]
  cases t.seen root s with
  | error e => rfl
  | ok found =>
    obtain ⟨base, seen⟩ := found
    dsimp only
    rw [hfilter, ← selectFiles_eq s filter base seen hselects]
    rfl

/-! ### The order of the result -/

theorem Text.le_iff (a b : String) : Text.le a b = true ↔ a ≤ b := by
  simp only [Text.le, Bool.not_eq_true', decide_eq_false_iff_not, not_lt]

theorem Text.trans_le (a b c : String) (hab : Text.le a b = true) (hbc : Text.le b c = true) :
    Text.le a c = true := by
  rw [Text.le_iff] at *
  exact hab.trans hbc

theorem Text.total_le (a b : String) : (Text.le a b || Text.le b a) = true := by
  rw [Bool.or_eq_true, Text.le_iff, Text.le_iff]
  exact le_total a b

/-- Sorting leaves equal elements in their order, so it does not matter whether a filter comes
before it or after it. -/
theorem filter_mergeSort {α : Type} (le : α → α → Bool)
    (trans : ∀ a b c, le a b = true → le b c = true → le a c = true)
    (total : ∀ a b, (le a b || le b a) = true) (p : α → Bool) (xs : List α) :
    (xs.mergeSort le).filter p = (xs.filter p).mergeSort le := by
  induction xs with
  | nil => simp
  | cons a xs ih =>
    obtain ⟨before, after, hsort, hrest, hbefore⟩ := List.mergeSort_cons trans total a xs
    rw [hrest] at ih
    by_cases ha : p a = true
    · obtain ⟨before', after', hsort', hrest', hbefore'⟩ :=
        List.mergeSort_cons trans total a (xs.filter p)
      -- both lists are cut where the elements that `a` does not precede end
      have hcut (us vs : List α) (hus : ∀ b ∈ us, (!le a b) = true)
          (hvs : (us ++ a :: vs).Pairwise fun b c => le b c = true) :
          us = (us ++ vs).takeWhile fun b => !le a b := by
        have hafter : ∀ b ∈ vs, (!le a b) = false := by
          intro b hb
          simpa using (List.pairwise_cons.mp (List.pairwise_append.mp hvs).2.1).1 b hb
        rw [List.takeWhile_append_of_pos hus]
        cases vs with
        | nil => simp
        | cons b vs => simp [hafter b List.mem_cons_self]
      have hsorted := List.pairwise_mergeSort trans total (a :: xs)
      have hsorted' := List.pairwise_mergeSort trans total (a :: xs.filter p)
      rw [hsort] at hsorted
      rw [hsort'] at hsorted'
      have hfiltered := hsorted.filter p
      rw [List.filter_append, List.filter_cons_of_pos ha] at hfiltered
      have heq : before.filter p ++ after.filter p = before' ++ after' := by
        rw [← hrest', ← ih, List.filter_append]
      have hleft : before.filter p = before' := by
        rw [hcut _ _ (fun b hb => hbefore b (List.mem_filter.mp hb).1) hfiltered, heq]
        exact (hcut _ _ hbefore' hsorted').symm
      have hright : after.filter p = after' := by
        rw [hleft] at heq
        exact List.append_cancel_left heq
      rw [List.filter_cons_of_pos ha, hsort, hsort', List.filter_append,
        List.filter_cons_of_pos ha, hleft, hright]
    · rw [List.filter_cons_of_neg ha, hsort, List.filter_append, List.filter_cons_of_neg ha, ← ih,
        List.filter_append]

/-! ### The filters -/

/-- The settings without patterns and with a limit that is not meant to exclude anything. -/
def ScanSettings.unfiltered (s : ScanSettings) (limit : Nat) : ScanSettings :=
  { s with included := [], excluded := [], maxFileSize := limit }

/-- The number of bytes of a file. -/
def Entry.size : Entry → Nat
  | file bytes => bytes.length
  | directory => 0

/-- Without patterns, and with a limit that no file exceeds, all sources are kept. -/
theorem keptFiles_unfiltered (s : ScanSettings) (limit : Nat) (base : Location)
    (seen : List (Location × Nat)) (h : ∀ x ∈ seen, x.2 ≤ limit) :
    keptFiles (s.unfiltered limit) base seen =
      seen.filterMap (sourceOf? s.includeHidden base) := by
  refine List.filter_eq_self.mpr fun f hf => ?_
  obtain ⟨x, hx, hsource⟩ := List.mem_filterMap.mp hf
  obtain ⟨language, _, rfl⟩ := Option.map_eq_some_iff.mp hsource
  simp [ScanSettings.selects, ScanSettings.unfiltered, matchesAny, h x hx]

theorem length_keptFiles_le (s : ScanSettings) (base : Location) (seen : List (Location × Nat)) :
    (keptFiles s base seen).length ≤ seen.length :=
  (List.length_filter_le _ _).trans (List.length_filterMap_le _ _)

/-- A scan with patterns that can be read and a size limit fails where one without them fails, with
the same error. Otherwise it keeps those files of the other that the patterns and the limit select,
in the same order, and both see the same number of files. -/
theorem scan_filters (t : FileTree) (root : String) (s : ScanSettings) (limit : Nat)
    (hreadable : s.Readable)
    (hlimit : ∀ x ∈ t.entries, x.2.size ≤ limit) :
    (∃ e, t.scan root s = .error e ∧ t.scan root (s.unfiltered limit) = .error e) ∨
    ∃ r all, t.scan root s = .ok r ∧ t.scan root (s.unfiltered limit) = .ok all ∧
      r.files = all.files.filter (fun f => s.selects f.path f.size) ∧
      r.files.length + r.skipped = all.files.length + all.skipped := by
  have hunfiltered : (s.unfiltered limit).Readable := by
    intro p hp
    cases hp
  rw [scan_of_readable t root s hreadable, scan_of_readable t root _ hunfiltered,
    seen_congr t root (s.unfiltered limit) s rfl rfl]
  cases hseen : t.seen root s with
  | error e => exact .inl ⟨_, rfl, rfl⟩
  | ok found =>
    obtain ⟨base, seen⟩ := found
    have hsizes : ∀ x ∈ seen, x.2 ≤ limit := by
      intro x hx
      obtain ⟨bytes, hentry, hsize⟩ := file_of_seen t root s base seen hseen x hx
      exact hsize ▸ hlimit _ hentry
    have hcount (s' : ScanSettings) := length_keptFiles_le s' base seen
    refine .inr ⟨_, _, rfl, rfl, ?_, ?_⟩
    · rw [resultOf, resultOf, filter_mergeSort (fun a b : SourceFile => Text.le a.path b.path)
        (fun a b c => Text.trans_le a.path b.path c.path)
        (fun a b => Text.total_le a.path b.path), keptFiles_unfiltered s limit base seen hsizes]
      rfl
    · simp only [resultOf, List.length_mergeSort]
      have := hcount s
      have := hcount (s.unfiltered limit)
      omega

/-- Sources in two directories, one of them a test and one large, and a file in no language. -/
def mixedSources : FileTree where
  entries := [(["src", "a.go"], .file (List.replicate 10 0)),
    (["src", "a_test.go"], .file (List.replicate 10 0)),
    (["src", "big.go"], .file (List.replicate 30 0)),
    (["tools", "t.py"], .file []), (["notes.md"], .file [])]

/-- The patterns and the limit leave one of four sources, and count the other three as skipped. -/
theorem scan_filters_mixed :
    let s : ScanSettings :=
      { included := ["src/**"], excluded := ["**/*_test.go"], maxFileSize := 20 }
    s.Readable ∧ (∀ x ∈ mixedSources.entries, x.2.size ≤ 100) ∧
    ∃ r all, mixedSources.scan "." s = .ok r ∧
      mixedSources.scan "." (s.unfiltered 100) = .ok all ∧
      r.files.map (·.path) = ["src/a.go"] ∧ r.skipped = 4 ∧ all.files.length = 4 ∧
      r.files = all.files.filter (fun f => s.selects f.path f.size) ∧
      r.files.length + r.skipped = all.files.length + all.skipped := by
  intro s
  have hreadable : s.Readable := by decide +kernel
  have hlimit : ∀ x ∈ mixedSources.entries, x.2.size ≤ 100 := by decide
  have hscan : (mixedSources.scan "." s).toOption.any (fun r =>
      r.files.map (·.path) == ["src/a.go"] && r.skipped == 4) = true := by decide +kernel
  refine ⟨hreadable, hlimit, ?_⟩
  rcases scan_filters mixedSources "." s 100 hreadable hlimit with
    ⟨e, he, _⟩ | ⟨r, all, hr, hall, hfiles, hcount⟩
  · rw [he] at hscan
    cases hscan
  · rw [hr] at hscan
    obtain ⟨hpaths, hskipped⟩ : r.files.map (·.path) = ["src/a.go"] ∧ r.skipped = 4 := by
      simpa [Except.toOption] using hscan
    have hskipped' : (mixedSources.scan "." (s.unfiltered 100)).toOption.any (·.skipped == 1) =
        true := by decide +kernel
    rw [hall] at hskipped'
    have hother : all.skipped = 1 := by simpa [Except.toOption] using hskipped'
    have hone : r.files.length = 1 := by simpa using congrArg List.length hpaths
    exact ⟨r, all, hr, hall, hpaths, hskipped, by omega, hfiles, hcount⟩

end Synopsis
