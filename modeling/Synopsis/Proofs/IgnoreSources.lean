import Synopsis.Proofs.ScanOrder

/-! Which ignore files a scan reads. A bare name in the settings is that of a file in every
directory, unless a file of this name lies in the root or in the current directory: that one is read
once, and no other. -/
namespace Synopsis

/-! ### A path continued by a name -/

theorem parts_name (n : String) (hn : IsName n) : Path.parts n = [n.toList] := by
  apply Text.splitWhere_unbroken
  intro c hc
  rw [beq_eq_false_iff_ne]
  rintro rfl
  exact hn.no_slash hc

theorem join_eq (path n : String) (hpath : path ≠ "") :
    ∃ front, Path.join path n = front ++ "/" ++ n ∧
      (path = front ∨ path = front ++ "/") := by
  by_cases hlast : path.toList.getLast? = some '/'
  · obtain ⟨us, hus⟩ := List.getLast?_eq_some_iff.mp hlast
    have hfront : path = String.ofList us ++ "/" := by
      apply String.toList_injective
      simp [hus]
    exact ⟨String.ofList us, by simp [Path.join, hus, ← hfront], .inr hfront⟩
  · exact ⟨path, by simp [Path.join, hlast, hpath], .inl rfl⟩

/-- A path made of names ends in the last one. -/
theorem join_concat (names : List String) (n : String) :
    Text.join "/" (names ++ [n]) = n ∨
      ∃ front, Text.join "/" (names ++ [n]) = front ++ "/" ++ n := by
  induction names with
  | nil => exact .inl rfl
  | cons m names ih =>
    right
    have hjoin : Text.join "/" (m :: names ++ [n]) = m ++ "/" ++ Text.join "/" (names ++ [n]) := by
      cases names <;> rfl
    rcases ih with h | ⟨front, h⟩
    · exact ⟨m, by rw [hjoin, h]⟩
    · exact ⟨m ++ "/" ++ front, by simp only [hjoin, h, String.append_assoc]⟩

theorem withoutDot_join (path n : String) (hpath : path ≠ "") :
    Path.withoutDot (Path.join path n) = n ∨
      ∃ front, Path.withoutDot (Path.join path n) = front ++ "/" ++ n := by
  obtain ⟨front, hjoin, _⟩ := join_eq path n hpath
  rw [hjoin, Path.withoutDot]
  split
  next rest hstart =>
    -- what is dropped is all of the front or its start
    have hfront : front.toList ++ '/' :: n.toList = '.' :: '/' :: rest := by simpa using hstart
    rcases List.append_eq_cons_iff.mp hfront with ⟨_, h⟩ | ⟨us, hus, hrest⟩
    · cases h
    · rcases List.cons_eq_append_iff.mp hrest with ⟨_, h⟩ | ⟨vs, _, hvs⟩
      · left
        apply String.toList_injective
        simpa using (List.cons.inj h).2.symm
      · refine .inr ⟨String.ofList vs, ?_⟩
        apply String.toList_injective
        simp [hvs]
  next => exact .inr ⟨front, rfl⟩

/-- A name goes behind the parts of a path, in place of an empty part at the end. -/
theorem parts_join (path n : String) (hpath : path ≠ "") (hn : IsName n) :
    Path.parts (Path.join path n) = Path.parts path ++ [n.toList] ∨
      ∃ front, Path.parts path = front ++ [[]] ∧
        Path.parts (Path.join path n) = front ++ [n.toList] := by
  obtain ⟨front, hjoin, hfront⟩ := join_eq path n hpath
  have hbehind (m : String) :
      Path.parts (front ++ "/" ++ m) = Path.parts front ++ Path.parts m := by
    have hlist : (front ++ "/" ++ m).toList = front.toList ++ '/' :: m.toList := by simp
    rw [Path.parts, hlist, Text.splitWhere_append_cons _ _ _ _ rfl]
    rfl
  rw [hjoin, hbehind, parts_name n hn]
  rcases hfront with rfl | hslash
  · exact .inl rfl
  · refine .inr ⟨Path.parts front, ?_, rfl⟩
    rw [hslash, ← String.append_empty (s := front ++ "/"), hbehind]
    rfl

theorem head?_join (path n : String) (hpath : path ≠ "") :
    (Path.join path n).toList.head? = path.toList.head? := by
  have hne : path.toList ≠ [] := by simpa using hpath
  unfold Path.join
  split_ifs <;> simp [List.head?_append, List.head?_eq_some_head hne]

namespace FileTree
variable (t : FileTree)

theorem step_name (l : Location) (n : String) (hl : t.get? l = some .directory) (hn : IsName n) :
    t.step l n.toList = .ok (l ++ [n]) := by
  have hempty : n.toList ≠ [] := by simpa using hn.ne_empty
  have hdot : n.toList ≠ ['.'] := fun h => hn.ne_dot (String.toList_injective h)
  have hdots : n.toList ≠ ['.', '.'] := fun h => hn.ne_dots (String.toList_injective h)
  simp [step, hl, hempty, hdot, hdots]

/-- A step that succeeds starts in a directory. -/
theorem get?_of_step (l l' : Location) (part : List Char) (h : t.step l part = .ok l') :
    t.get? l = some .directory := by
  unfold step at h
  split at h
  · cases h
  · cases h
  · assumption

theorem follow_of_find (path : String) (l : Location) (e : Entry) (h : t.find path = .ok (l, e)) :
    path ≠ "" ∧ Path.isAbsolute path = false ∧ (Path.parts path).foldlM t.step [] = .ok l := by
  unfold find at h
  cases hfollow : t.follow path with
  | error cause => simp [hfollow, bind, Except.bind] at h
  | ok l' =>
    obtain rfl : l' = l := by
      cases hget : t.get? l' with
      | none => simp [hfollow, hget, bind, Except.bind] at h
      | some e' =>
        simp only [hfollow, hget, bind, Except.bind, Except.ok.injEq, Prod.mk.injEq] at h
        exact h.1
    unfold follow at hfollow
    split_ifs at hfollow with hpath
    obtain ⟨hempty, habsolute⟩ : path ≠ "" ∧ Path.isAbsolute path = false := by
      simpa using hpath
    exact ⟨hempty, habsolute, hfollow⟩

/-- Where a path leads anywhere, the current directory is a directory. -/
theorem get?_nil_of_find (path : String) (l : Location) (e : Entry)
    (h : t.find path = .ok (l, e)) : t.get? [] = some .directory := by
  obtain ⟨_, _, hsteps⟩ := t.follow_of_find path l e h
  obtain ⟨part, rest, hparts⟩ := List.exists_cons_of_ne_nil
    (Text.splitWhere_ne_nil (· == '/') path.toList)
  rw [Path.parts, hparts, List.foldlM_cons] at hsteps
  cases hstep : t.step [] part with
  | error cause => simp [hstep, bind, Except.bind] at hsteps
  | ok l' => exact t.get?_of_step [] l' part hstep

theorem find_of_follow (path : String) (l : Location) (h : t.follow path = .ok l) :
    t.find path = match t.get? l with
      | some e => .ok (l, e)
      | none => .error .notFound := by
  rw [find, h]
  rfl

/-- What a name means in the current directory. -/
theorem follow_name (n : String) (h : t.get? [] = some .directory) (hn : IsName n) :
    t.follow n = .ok [n] := by
  have hempty : n ≠ "" := hn.ne_empty
  have habsolute : Path.isAbsolute n = false := by
    rw [Path.isAbsolute, beq_eq_false_iff_ne]
    intro hhead
    exact hn.no_slash (List.mem_of_head? hhead)
  rw [follow, parts_name n hn, List.foldlM_cons, t.step_name [] n h hn]
  simp [hempty, habsolute]

/-- What a name means in a directory that a path leads to. -/
theorem follow_join (path n : String) (l : Location) (h : t.find path = .ok (l, .directory))
    (hn : IsName n) : t.follow (Path.join path n) = .ok (l ++ [n]) := by
  obtain ⟨hpath, habsolute, hsteps⟩ := t.follow_of_find path l _ h
  have hl := get?_of_find t path l _ h
  have hempty : Path.join path n ≠ "" := by
    unfold Path.join
    split_ifs <;> simp [hpath]
  have hrelative : Path.isAbsolute (Path.join path n) = false := by
    rw [Path.isAbsolute, head?_join path n hpath]
    exact habsolute
  have hfold : (Path.parts (Path.join path n)).foldlM t.step [] = .ok (l ++ [n]) := by
    rcases parts_join path n hpath hn with hparts | ⟨front, hfront, hparts⟩
    · rw [hparts, List.foldlM_append, hsteps]
      simp only [bind, Except.bind, List.foldlM_cons, t.step_name l n hl hn]
      rfl
    · -- the empty part at the end says nothing
      rw [hfront, List.foldlM_append] at hsteps
      cases hbefore : front.foldlM t.step [] with
      | error cause => simp [hbefore, bind, Except.bind] at hsteps
      | ok l' =>
        have hstep : t.step l' [] = .ok l := by
          rw [hbefore] at hsteps
          simp only [bind, Except.bind, List.foldlM_cons, List.foldlM_nil] at hsteps
          cases hlast : t.step l' [] with
          | error cause => simp [hlast] at hsteps
          | ok l'' =>
            rw [hlast] at hsteps
            exact hsteps
        have hdirectory := t.get?_of_step l' l [] hstep
        obtain rfl : l' = l := by simpa [step, hdirectory] using hstep
        rw [hparts, List.foldlM_append, hbefore]
        simp only [bind, Except.bind, List.foldlM_cons, t.step_name l' n hl hn]
        rfl
  rw [follow, hfold]
  simp [hempty, hrelative]

theorem isFile_of_follow (path : String) (l : Location) (h : t.follow path = .ok l) :
    t.isFile path = (t.bytes? l).isSome := by
  rw [isFile, t.find_of_follow path l h, bytes?]
  rcases t.get? l with _ | _ | _ <;> rfl

theorem get?_of_bytes (l : Location) (bytes : List UInt8) (h : t.bytes? l = some bytes) :
    t.get? l = some (.file bytes) := by
  unfold bytes? at h
  split at h
  next found hfile =>
    cases h
    exact hfile
  next => cases h

theorem read_of_follow (path : String) (l : Location) (bytes : List UInt8)
    (h : t.follow path = .ok l) (hbytes : t.bytes? l = some bytes) : t.read path = .ok bytes := by
  rw [read, t.find_of_follow path l h, t.get?_of_bytes l bytes hbytes]

end FileTree

/-! ### The sources of a scan -/

/-- The ignore file that a bare name stands for alone, if there is one: in the root, else in the
current directory. -/
def onlyIgnoreFile? (t : FileTree) (base : Location) (name : String) : Option (List UInt8) :=
  (t.bytes? (base ++ [name])).or (t.bytes? [name])

theorem ignoreSources_usual (t : FileTree) (root : String) (s : ScanSettings)
    (h : s.ignoreFile = ".gitignore" ∨ s.ignoreFile = ".briefignore") :
    ignoreSources t root s = ⟨[".briefignore"], []⟩ := by
  rcases h with h | h <;> simp [ignoreSources, h]

theorem ignoreSources_name (t : FileTree) (root : String) (s : ScanSettings) (base : Location)
    (hroot : t.find root = .ok (base, .directory)) (hname : IsName s.ignoreFile)
    (hgit : s.ignoreFile ≠ ".gitignore") (hbrief : s.ignoreFile ≠ ".briefignore") :
    ignoreSources t root s = match onlyIgnoreFile? t base s.ignoreFile with
      | some bytes => ⟨[".briefignore"], Ignore.rulesOf bytes⟩
      | none => ⟨[".briefignore", s.ignoreFile], []⟩ := by
  have hunder := t.follow_join root s.ignoreFile base hroot hname
  have hhere := t.follow_name s.ignoreFile (t.get?_nil_of_find root base _ hroot) hname
  have hbare : (Path.components s.ignoreFile).length = 1 := by
    have hcomponents := components_join [s.ignoreFile] (by simpa using hname)
    rw [Text.join] at hcomponents
    simp [hcomponents]
  have hrelative : Path.isAbsolute s.ignoreFile = false := by
    rw [Path.isAbsolute, beq_eq_false_iff_ne]
    intro hhead
    exact hname.no_slash (List.mem_of_head? hhead)
  have hempty := hname.ne_empty
  -- a file under the root comes before one in the directory of the run
  simp only [ignoreSources, t.isFile_of_follow _ _ hunder, t.isFile_of_follow _ _ hhere, hbare,
    hrelative, onlyIgnoreFile?]
  cases hin : t.bytes? (base ++ [s.ignoreFile]) with
  | some bytes => simp [hempty, hgit, hbrief, t.read_of_follow _ _ bytes hunder hin]
  | none =>
    cases hat : t.bytes? [s.ignoreFile] with
    | some bytes => simp [hempty, hgit, hbrief, t.read_of_follow _ _ bytes hhere hat]
    | none => simp [hempty, hgit, hbrief]

/-! ### What a scan depends on -/

theorem Ignore.Sources.verdict?_congr {s s' : Ignore.Sources} {t t' : FileTree} {l l' : Location}
    {path path' : String} {isDirectory : Bool} (hkinds : s.kinds = s'.kinds)
    (hclosest : ∀ files ∈ s.kinds,
      Ignore.closest? t files l isDirectory = Ignore.closest? t' files l' isDirectory)
    (hextra :
      Ignore.verdict? s.extra path isDirectory = Ignore.verdict? s'.extra path' isDirectory) :
    s.verdict? t l path isDirectory = s'.verdict? t' l' path' isDirectory := by
  rw [verdict?, verdict?, ← hkinds, hextra, ← List.head?_filterMap, ← List.head?_filterMap,
    List.filterMap_congr hclosest]

/-- The walk depends on the verdicts along the way only. -/
theorem isReached_of_verdict {t t' : FileTree} {s : ScanSettings}
    {sources sources' : Ignore.Sources} {root root' : String} {base base' names : Location}
    (h : ∀ front, front <+: names → front ≠ [] → ∀ isDirectory,
      sources.verdict? t (base ++ front) (Path.withoutDot (Path.join root (Text.join "/" front)))
          isDirectory =
        sources'.verdict? t' (base' ++ front)
          (Path.withoutDot (Path.join root' (Text.join "/" front))) isDirectory) :
    isReached t s sources root base names = isReached t' s sources' root' base' names := by
  rw [isReached, isReached, Bool.eq_iff_iff, List.all_eq_true, List.all_eq_true]
  refine forall₂_congr fun i hi => ?_
  have hne : names.take (i + 1) ≠ [] := by
    have hlength := List.mem_range.mp hi
    simp [List.take_eq_nil_iff, List.ne_nil_of_length_pos (Nat.zero_lt_of_lt hlength)]
  rw [isAdmitted, isAdmitted, h _ (List.take_prefix _ _) hne]

/-- The files below a location, as entries. -/
theorem mem_filesBelow (t : FileTree) (base : Location) (x : Location × Nat) :
    x ∈ t.filesBelow base ↔
      ∃ bytes, (base ++ x.1, Entry.file bytes) ∈ t.entries ∧ x.2 = bytes.length := by
  rw [FileTree.filesBelow, List.mem_filterMap]
  constructor
  · rintro ⟨⟨l, e⟩, hentry, hfile⟩
    cases e with
    | directory => cases hfile
    | file bytes =>
      simp only [Option.ite_none_right_eq_some, Option.some.injEq] at hfile
      obtain ⟨hstart, rfl⟩ := hfile
      obtain ⟨names, rfl⟩ := List.isPrefixOf_iff_prefix.mp hstart
      exact ⟨bytes, by rwa [List.drop_left], rfl⟩
  · rintro ⟨bytes, hentry, hsize⟩
    refine ⟨_, hentry, ?_⟩
    simp [← hsize]

/-- The scan of a directory keeps the selected sources among the files that the walk reaches. -/
theorem mem_files_iff (t : FileTree) (root : String) (s : ScanSettings) (base : Location)
    (r : ScanResult) (hroot : t.find root = .ok (base, .directory)) (hscan : t.scan root s = .ok r)
    (f : SourceFile) :
    f ∈ r.files ↔ ∃ x ∈ t.filesBelow base,
      isReached t s (ignoreSources t root s) root base x.1 = true ∧
        sourceOf? s.includeHidden base x = some f ∧ s.selects f.path f.size = true := by
  rw [scan_of_readable t root s (readable_of_scan t root s r hscan),
    seen_of_directory t root s base hroot] at hscan
  rw [← Except.ok.inj hscan, resultOf, List.mem_mergeSort, keptFiles]
  simp only [List.mem_filter, List.mem_filterMap]
  constructor
  · rintro ⟨⟨x, ⟨hbelow, hreached⟩, hsource⟩, hselects⟩
    exact ⟨x, hbelow, hreached, hsource, hselects⟩
  · rintro ⟨x, hbelow, hreached, hsource, hselects⟩
    exact ⟨⟨x, ⟨hbelow, hreached⟩, hsource⟩, hselects⟩

end Synopsis
