import Synopsis.Proofs.GlobMatch
import Synopsis.Proofs.IgnoreSources

/-! A bare name in the settings is meant for ignore files in every directory. A line there that is
the name of a source leaves that source out, unless another file of the name, in the root or in the
current directory, is the only one that is read. -/
namespace Synopsis.Ignore

/-! ### Verdicts where nothing is taken back -/

theorem verdict?_eq_ignore (rules : List Rule) (path : String) (isDirectory : Bool) (v : Verdict)
    (hallows : ∀ r ∈ rules, r.allows = false) (h : verdict? rules path isDirectory = some v) :
    v = .ignore := by
  obtain ⟨r, hr, rfl⟩ := Option.map_eq_some_iff.mp h
  have hmem := List.mem_reverse.mp (List.mem_of_find?_eq_some hr)
  simp [hallows r hmem]

/-- A rule for files that matches a path leaves it out. -/
theorem verdict?_of_mem (rules : List Rule) (path : String) (r : Rule) (hr : r ∈ rules)
    (hfiles : r.onlyDirectories = false) (hmatches : r.glob.accepts path = true)
    (hallows : ∀ r ∈ rules, r.allows = false) : verdict? rules path false = some .ignore := by
  have hsome : (verdict? rules path false).isSome := by
    rw [verdict?, Option.isSome_map, List.find?_isSome]
    exact ⟨r, List.mem_reverse.mpr hr, by simp [hfiles, hmatches]⟩
  obtain ⟨v, hv⟩ := Option.isSome_iff_exists.mp hsome
  rw [hv, verdict?_eq_ignore rules path false v hallows hv]

theorem mem_directoriesAbove (d l : Location) :
    d ∈ directoriesAbove l ↔ ∃ n rest, l = d ++ n :: rest := by
  simp only [directoriesAbove, List.mem_reverse, List.mem_map, List.mem_range]
  constructor
  · rintro ⟨i, hi, rfl⟩
    refine ⟨l[i], l.drop (i + 1), ?_⟩
    rw [← List.drop_eq_getElem_cons hi, List.take_append_drop]
  · rintro ⟨n, rest, rfl⟩
    exact ⟨d.length, by simp, List.take_left⟩

theorem closest?_eq_ignore (t : FileTree) (files : List Location) (l : Location)
    (isDirectory : Bool) (v : Verdict) (hallows : ∀ d, ∀ r ∈ rulesIn t d files, r.allows = false)
    (h : closest? t files l isDirectory = some v) : v = .ignore := by
  obtain ⟨d, _, hd⟩ := List.exists_of_findSome?_eq_some h
  exact verdict?_eq_ignore _ _ _ v (hallows d) hd

/-- A verdict of files in a directory above is one of the closest files too. -/
theorem closest?_of_directory (t : FileTree) (files : List Location) (d l : Location)
    (isDirectory : Bool) (hd : d ∈ directoriesAbove l)
    (hallows : ∀ d, ∀ r ∈ rulesIn t d files, r.allows = false)
    (h : verdict? (rulesIn t d files) (pathFrom d l) isDirectory = some .ignore) :
    closest? t files l isDirectory = some .ignore := by
  have hsome : (closest? t files l isDirectory).isSome := by
    rw [closest?, List.findSome?_isSome_iff]
    exact ⟨d, hd, by rw [h]; rfl⟩
  obtain ⟨v, hv⟩ := Option.isSome_iff_exists.mp hsome
  rw [hv, closest?_eq_ignore t files l isDirectory v hallows hv]

/-- Nothing that the sources hold in a tree takes back what is ignored. -/
structure Sources.NothingAllowed (s : Sources) (t : FileTree) : Prop where
  files : ∀ d, ∀ files ∈ s.kinds, ∀ r ∈ rulesIn t d files, r.allows = false
  extra : ∀ r ∈ s.extra, r.allows = false

namespace Sources.NothingAllowed
variable {s : Sources} {t : FileTree} (h : s.NothingAllowed t)
include h

theorem verdict?_eq_ignore (l : Location) (path : String) (isDirectory : Bool) (v : Verdict)
    (hv : s.verdict? t l path isDirectory = some v) : v = .ignore := by
  rcases Option.or_eq_some_iff.mp hv with hv | ⟨_, hv⟩
  · obtain ⟨files, hfiles, hclosest⟩ := List.exists_of_findSome?_eq_some hv
    exact closest?_eq_ignore t files l isDirectory v (fun d => h.files d files hfiles) hclosest
  · exact Ignore.verdict?_eq_ignore _ _ _ v h.extra hv

/-- One kind of file that leaves a location out is enough. -/
theorem verdict?_of_kind (l : Location) (path : String) (isDirectory : Bool)
    (files : List Location) (hfiles : files ∈ s.kinds)
    (hclosest : closest? t files l isDirectory = some .ignore) :
    s.verdict? t l path isDirectory = some .ignore := by
  have hsome : (s.verdict? t l path isDirectory).isSome := by
    have hkind : (s.kinds.findSome? fun files => closest? t files l isDirectory).isSome := by
      rw [List.findSome?_isSome_iff]
      exact ⟨files, hfiles, by rw [hclosest]; rfl⟩
    rw [Sources.verdict?, Option.isSome_or, hkind, Bool.true_or]
  obtain ⟨v, hv⟩ := Option.isSome_iff_exists.mp hsome
  rw [hv, h.verdict?_eq_ignore l path isDirectory v hv]

theorem verdict?_of_extra (l : Location) (path : String) (isDirectory : Bool)
    (hextra : Ignore.verdict? s.extra path isDirectory = some .ignore) :
    s.verdict? t l path isDirectory = some .ignore := by
  have hsome : (s.verdict? t l path isDirectory).isSome := by
    rw [Sources.verdict?, Option.isSome_or, hextra, Option.isSome_some, Bool.or_true]
  obtain ⟨v, hv⟩ := Option.isSome_iff_exists.mp hsome
  rw [hv, h.verdict?_eq_ignore l path isDirectory v hv]

end Sources.NothingAllowed

/-! ### Lines that are names -/

/-- A name that a line gives as it is: no character of it has a meaning in patterns, and it does not
start like a comment, like a line that takes back, or with a byte order mark. -/
structure IsPlainName (n : String) : Prop where
  name : IsName n
  plain : ∀ c ∈ n.toList, Glob.isPlain c = true
  no_mark : n.toList.head? ∉ [some '!', some '#', some '\uFEFF']

/-- The rule of a line that is a name. -/
def nameRule (n : String) : Rule :=
  { glob := ⟨.leading :: n.toList.map .literal, true⟩ }

theorem toLower_blank (c : Char) (h : Text.isBlank c = true) : c.toLower = c := by
  unfold Char.toLower
  split_ifs with hupper
  · -- no capital letter is blank
    exfalso
    obtain ⟨hlow, hhigh⟩ := hupper
    have hlow' : 65 ≤ c.toNat := hlow
    have hhigh' : c.toNat ≤ 90 := hhigh
    simp only [Text.isBlank, Bool.or_eq_true, Bool.and_eq_true, decide_eq_true_eq, beq_iff_eq] at h
    omega
  · rfl

/-- A source has an extension, so that its name does not end in a blank. -/
theorem trimEnd_source (n : String) (hn : IsName n) (hsource : (Language.ofPath? n).isSome) :
    Text.trimEnd n.toList = n.toList := by
  have hfile : Path.fileName? n = some n := fileName?_join [n] (by simpa using hn)
  have hkeys : ∀ k ∈ Language.extensions, k.1.toList.getLast?.any Text.isBlank = false := by
    decide
  rcases List.eq_nil_or_concat n.toList with hnil | ⟨front, c, hlast⟩
  · rw [hnil]
    rfl
  · rw [List.concat_eq_append] at hlast
    rw [hlast]
    apply Text.trimEnd_concat
    by_contra hblank
    have hc : Text.isBlank c = true := by simpa using hblank
    have hdot : c ≠ '.' := by
      rintro rfl
      cases hc
    have hstop : (c :: front.reverse).takeWhile (· != '.') =
        c :: front.reverse.takeWhile (· != '.') := List.takeWhile_cons_of_pos (by simpa using hdot)
    simp only [Language.ofPath?, Path.extension?, hfile, hlast, List.reverse_concat,
      Option.bind_eq_bind, Option.bind_some, List.span_eq_takeWhile_dropWhile, hstop] at hsource
    -- a blank at the end would end the extension, and none in the table ends so
    have hextension : (Language.ofExtension?
        (String.ofList ((front.reverse.takeWhile (· != '.')).reverse ++ [c]))).isSome := by
      split at hsource
      · cases hsource
      · cases hsource
      next ext _ hext =>
        obtain ⟨rfl, _⟩ := Prod.mk.inj hext
        simpa using hsource
    rw [Language.ofExtension?, String.toList_ofList] at hextension
    obtain ⟨tag, hlookup⟩ := Option.isSome_iff_exists.mp hextension
    obtain ⟨before, after, hentries, _⟩ := List.lookup_eq_some_iff.mp hlookup
    have hkey := hkeys _ (hentries ▸ List.mem_append_right before List.mem_cons_self)
    have hend : (((front.reverse.takeWhile (· != '.')).reverse ++ [c]).dropWhile
        (· == '.')).getLast? = some c := by
      rw [List.dropWhile_append]
      split_ifs <;> simp [hdot]
    simp [Text.asciiLower, hend, toLower_blank c hc, hc] at hkey

theorem ofLine?_name (n : String) (hn : IsPlainName n) (hend : Text.trimEnd n.toList = n.toList) :
    Rule.ofLine? n.toList = some (nameRule n) := by
  have hread := Glob.ofIgnorePattern_name n.toList hn.plain
  have hne : n.toList ≠ [] := by simpa using hn.name.ne_empty
  have hplain (c : Char) (hc : Glob.isPlain c = false) : c ∉ n.toList := by
    intro hmem
    rw [hn.plain c hmem] at hc
    cases hc
  obtain ⟨hnot, hcomment, _⟩ : n.toList.head? ≠ some '!' ∧ n.toList.head? ≠ some '#' ∧
      n.toList.head? ≠ some '\uFEFF' := by simpa using hn.no_mark
  have hescape (c : Char) : ['\\', c].isPrefixOf n.toList = false := by
    rw [Bool.eq_false_iff]
    intro h
    exact hplain '\\' rfl ((List.isPrefixOf_iff_prefix.mp h).subset List.mem_cons_self)
  have hanchor : n.toList.head? ≠ some '/' := fun h => hn.name.no_slash (List.mem_of_head? h)
  have hdirectory : n.toList.getLast? ≠ some '/' :=
    fun h => hn.name.no_slash (List.mem_of_getLast? h)
  -- a name without a slash is looked for at any depth
  have hpattern : pattern false n.toList = String.ofList ("**/".toList ++ n.toList) := by
    have hslash : n.toList.contains '/' = false := by simpa using hn.name.no_slash
    have hstars : (n.toList == ['*', '*']) = false := by
      rw [beq_eq_false_iff_ne]
      intro h
      exact hplain '*' rfl (by simp [h])
    have hclosed : ['/', '*', '*'].isSuffixOf (['*', '*', '/'] ++ n.toList) = false := by
      rw [Bool.eq_false_iff]
      intro h
      obtain ⟨before, hbefore⟩ := List.isSuffixOf_iff_suffix.mp h
      have hlast := congrArg List.getLast? hbefore
      rw [List.getLast?_append, List.getLast?_append, List.getLast?_eq_some_getLast hne] at hlast
      have hstar : n.toList.getLast hne = '*' := by simpa using hlast.symm
      exact hplain '*' rfl (hstar ▸ List.getLast_mem hne)
    simp only [pattern, hslash, hstars, hclosed, Bool.or_self, Bool.false_eq_true, ↓reduceIte]
    rfl
  simp only [Rule.ofLine?, hend, hescape, hpattern, hread, ite_self, Bool.or_self,
    beq_eq_false_iff_ne.mpr hcomment, beq_eq_false_iff_ne.mpr hnot,
    beq_eq_false_iff_ne.mpr hanchor, beq_eq_false_iff_ne.mpr hdirectory, Bool.and_false,
    List.isEmpty_eq_false_iff.mpr hne, Bool.false_eq_true, ↓reduceIte, nameRule]

theorem nameRule_mem_rulesOf (bytes : List UInt8) (n : String) (hn : IsPlainName n)
    (hend : Text.trimEnd n.toList = n.toList) (hline : n.toList ∈ readableLines bytes) :
    nameRule n ∈ rulesOf bytes := by
  have hrule := ofLine?_name n hn hend
  unfold rulesOf
  cases hlines : readableLines bytes with
  | nil => simp [hlines] at hline
  | cons first rest =>
    refine List.mem_filterMap.mpr ⟨n.toList, ?_, hrule⟩
    rw [hlines, List.mem_cons] at hline
    rcases hline with hfirst | hrest
    · -- the line has no byte order mark to lose
      have hstart : first.dropWhile (· == '\uFEFF') = first := by
        rw [← hfirst]
        cases hname : n.toList with
        | nil => rfl
        | cons c cs =>
          have hmark : c ≠ '\uFEFF' := by
            rintro rfl
            exact hn.no_mark (by simp [hname])
          rw [List.dropWhile_cons_of_neg (by simpa using hmark)]
      rw [hstart, hfirst]
      exact List.mem_cons_self
    · exact List.mem_cons_of_mem _ hrest

/-! ### Files whose lines are read -/

/-- A location that a scan reads rules at when a bare name is looked up in every directory. -/
def isIgnoreFile (name : String) (l : Location) : Bool :=
  (Sources.kinds ⟨[".briefignore", name], []⟩).any fun files => files.any (·.isSuffixOf l)

/-- No ignore file of the tree takes back what is ignored. -/
def NothingAllowed (t : FileTree) (name : String) : Prop :=
  ∀ l bytes, isIgnoreFile name l = true → t.bytes? l = some bytes →
    ∀ r ∈ rulesOf bytes, r.allows = false

/-- Only a line that starts with `!` takes anything back. -/
theorem head?_of_allows (line : List Char) (r : Rule) (h : Rule.ofLine? line = some r)
    (hallows : r.allows = true) : line.head? = some '!' := by
  set body := if ['\\', ' '].isSuffixOf line then line else Text.trimEnd line with hbody
  -- trimming changes the end of the line only
  have hstart : body <+: line := by
    rw [hbody]
    split_ifs
    · exact List.prefix_refl line
    · exact Text.trimEnd_isPrefix line
  have hhead : body.head? = some '!' := by
    simp only [Rule.ofLine?, ← hbody, Option.ite_none_left_eq_some] at h
    obtain ⟨_, _, h⟩ := h
    generalize Glob.ofIgnorePattern _ = read at h
    cases read with
    | error e => cases h
    | ok glob =>
      cases h
      simpa using hallows
  obtain ⟨rest, hrest⟩ := hstart
  rw [← hrest, List.head?_append, hhead]
  rfl

/-- A file without such a line takes nothing back. -/
theorem allows_of_lines (bytes : List UInt8)
    (h : ∀ line ∈ readableLines bytes, (line.dropWhile (· == '\uFEFF')).head? ≠ some '!') :
    ∀ r ∈ rulesOf bytes, r.allows = false := by
  have hline (line : List Char) (hstart : line.head? ≠ some '!') (r : Rule)
      (hr : Rule.ofLine? line = some r) : r.allows = false :=
    Bool.eq_false_iff.mpr fun hallows => hstart (head?_of_allows line r hr hallows)
  intro r hr
  unfold rulesOf at hr
  cases hlines : readableLines bytes with
  | nil => simp [hlines] at hr
  | cons first rest =>
    rw [hlines] at h hr
    obtain ⟨line, hmem, hr⟩ := List.mem_filterMap.mp hr
    rcases List.mem_cons.mp hmem with rfl | hmem
    · exact hline _ (h first List.mem_cons_self) r hr
    · refine hline line (fun hhead => ?_) r hr
      obtain ⟨cs, rfl⟩ := List.head?_eq_some_iff.mp hhead
      exact h _ (List.mem_cons_of_mem first hmem) rfl

theorem mem_rulesIn (t : FileTree) (d : Location) (files : List Location) (r : Rule) :
    r ∈ rulesIn t d files ↔ ∃ f ∈ files, ∃ bytes, t.bytes? (d ++ f) = some bytes ∧
      r ∈ rulesOf bytes := by
  rw [rulesIn, List.mem_flatMap]
  refine exists_congr fun f => and_congr_right fun _ => ?_
  cases t.bytes? (d ++ f) <;> simp

theorem nameRule_accepts (n path : String) (hn : n ≠ "")
    (hpath : path = n ∨ ∃ front, path = front ++ "/" ++ n) :
    (nameRule n).glob.accepts path = true := by
  rcases hpath with rfl | ⟨front, rfl⟩
  · exact (Glob.accepts_name true path "" hn).1
  · exact (Glob.accepts_name true n front hn).2

/-- A name in a file with rules leaves out what has this name in the directory of the file. -/
theorem Sources.NothingAllowed.verdict?_of_file {s : Sources} {t : FileTree}
    (h : s.NothingAllowed t) (d f : Location) (files : List Location) (bytes : List UInt8)
    (n path : String) (hfiles : files ∈ s.kinds) (hf : f ∈ files)
    (hfile : t.bytes? (d ++ f) = some bytes) (hn : n ≠ "") (hrule : nameRule n ∈ rulesOf bytes) :
    s.verdict? t (d ++ (f.dropLast ++ [n])) path false = some .ignore := by
  have hallows : ∀ d, ∀ r ∈ rulesIn t d files, r.allows = false := fun d => h.files d files hfiles
  have hmem : nameRule n ∈ rulesIn t d files :=
    (mem_rulesIn t d files _).mpr ⟨f, hf, bytes, hfile, hrule⟩
  have hd : d ∈ directoriesAbove (d ++ (f.dropLast ++ [n])) := by
    rw [mem_directoriesAbove]
    rcases f.dropLast with _ | ⟨m, ms⟩
    · exact ⟨n, [], rfl⟩
    · exact ⟨m, ms ++ [n], rfl⟩
  -- no rule of the directory allows anything, so the one that accepts the path decides
  have hverdict : Ignore.verdict? (rulesIn t d files)
      (pathFrom d (d ++ (f.dropLast ++ [n]))) false = some .ignore := by
    apply verdict?_of_mem _ _ (nameRule n) hmem rfl _ (hallows d)
    rw [pathFrom, List.drop_left]
    exact nameRule_accepts n _ hn (join_concat f.dropLast n)
  exact h.verdict?_of_kind _ path false files hfiles
    (closest?_of_directory t files d _ false hd hallows hverdict)

end Synopsis.Ignore

namespace Synopsis
open Ignore

/-- The file of this name in the directory that `names` lead to from the root holds rules for its
directory: it is the one file that is read alone, or no file is, or the name is that of an ignore
file under all settings. -/
def IsHonoured (t : FileTree) (base : Location) (name : String) (names : Location) : Prop :=
  names = [] ∨ onlyIgnoreFile? t base name = none ∨ name = ".ignore" ∨
    [".git", "info", "exclude"] <:+ base ++ names ++ [name]

instance (t : FileTree) (base : Location) (name : String) (names : Location) :
    Decidable (IsHonoured t base name names) :=
  inferInstanceAs (Decidable (_ ∨ _ ∨ _ ∨ _))

section
variable (t : FileTree) (root : String) (s : ScanSettings) (base : Location)
  (hroot : t.find root = .ok (base, .directory)) (hname : IsName s.ignoreFile)
  (hgit : s.ignoreFile ≠ ".gitignore") (hbrief : s.ignoreFile ≠ ".briefignore")
include hroot hname hgit hbrief

theorem sources_nothingAllowed (h : NothingAllowed t s.ignoreFile) :
    (ignoreSources t root s).NothingAllowed t := by
  -- every file that the sources look for is an ignore file of the tree
  have hkinds (extra : List Rule) (names : List String)
      (hnames : names ⊆ [".briefignore", s.ignoreFile]) (d : Location) (files : List Location)
      (hfiles : files ∈ Sources.kinds ⟨names, extra⟩) :
      ∀ r ∈ rulesIn t d files, r.allows = false := by
    intro r hr
    obtain ⟨f, hf, bytes, hbytes, hr⟩ := (mem_rulesIn t d files r).mp hr
    refine h (d ++ f) bytes ?_ hbytes r hr
    have hkind : ∃ files ∈ Sources.kinds ⟨[".briefignore", s.ignoreFile], []⟩, f ∈ files := by
      simp only [Sources.kinds, List.mem_cons, List.not_mem_nil, or_false] at hfiles
      rcases hfiles with rfl | hfiles
      · obtain ⟨n, hn, rfl⟩ := List.mem_map.mp hf
        exact ⟨_, List.mem_cons_self, List.mem_map_of_mem (hnames hn)⟩
      · exact ⟨files, by simp [Sources.kinds, hfiles], hf⟩
    obtain ⟨files', hfiles', hf'⟩ := hkind
    exact List.any_eq_true.mpr ⟨files', hfiles', List.any_eq_true.mpr ⟨f, hf', by simp⟩⟩
  rw [ignoreSources_name t root s base hroot hname hgit hbrief]
  cases honly : onlyIgnoreFile? t base s.ignoreFile with
  | none => exact ⟨hkinds [] _ (List.Subset.refl _), by simp⟩
  | some bytes =>
    have hignore (l : Location) : isIgnoreFile s.ignoreFile (l ++ [s.ignoreFile]) = true :=
      List.any_eq_true.mpr ⟨_, List.mem_cons_self, by simp⟩
    refine ⟨hkinds _ _ (by simp), ?_⟩
    rcases Option.or_eq_some_iff.mp honly with hbytes | ⟨_, hbytes⟩
    · exact h _ bytes (hignore base) hbytes
    · exact h _ bytes (hignore []) hbytes

/-- A name in a file that is honoured leaves out what has this name in the directory. -/
theorem verdict?_of_honoured (names : Location) (bytes : List UInt8) (n : String) (hn : n ≠ "")
    (hallowed : NothingAllowed t s.ignoreFile)
    (hhonoured : IsHonoured t base s.ignoreFile names)
    (hfile : t.bytes? (base ++ names ++ [s.ignoreFile]) = some bytes)
    (hrule : nameRule n ∈ rulesOf bytes) :
    (ignoreSources t root s).verdict? t (base ++ (names ++ [n]))
      (Path.withoutDot (Path.join root (Text.join "/" (names ++ [n])))) false = some .ignore := by
  have hsources := ignoreSources_name t root s base hroot hname hgit hbrief
  have hnothing := sources_nothingAllowed t root s base hroot hname hgit hbrief hallowed
  rcases hhonoured with rfl | hnone | hignore | ⟨d, hd⟩
  · -- the file in the root is the one that is read alone
    have honly : onlyIgnoreFile? t base s.ignoreFile = some bytes := by
      rw [List.append_nil] at hfile
      rw [onlyIgnoreFile?, hfile, Option.some_or]
    rw [honly] at hsources
    obtain ⟨hpath, _, _⟩ := t.follow_of_find root base _ hroot
    have hextra : (ignoreSources t root s).extra = rulesOf bytes := by rw [hsources]
    apply hnothing.verdict?_of_extra
    rw [hextra]
    exact verdict?_of_mem _ _ (nameRule n) hrule rfl
      (nameRule_accepts n _ hn (withoutDot_join root n hpath)) (hextra ▸ hnothing.extra)
  · -- no file is read alone, so that the name is one for every directory
    rw [hnone] at hsources
    have hkind : [[".briefignore"], [s.ignoreFile]] ∈ (ignoreSources t root s).kinds := by
      rw [hsources]
      exact List.mem_cons_self
    rw [← List.append_assoc]
    exact hnothing.verdict?_of_file (base ++ names) [s.ignoreFile] _ bytes n _ hkind (by simp) hfile
      hn hrule
  · have hkind : [[".ignore"]] ∈ (ignoreSources t root s).kinds := by simp [Sources.kinds]
    rw [← List.append_assoc]
    exact hnothing.verdict?_of_file (base ++ names) [s.ignoreFile] _ bytes n _ hkind
      (by simp [hignore]) hfile hn hrule
  · have hkind : [[".git", "info", "exclude"]] ∈ (ignoreSources t root s).kinds := by
      simp [Sources.kinds]
    have hdirectory :
        base ++ (names ++ [n]) = d ++ ([".git", "info", "exclude"].dropLast ++ [n]) := by
      have hnames := congrArg List.dropLast hd
      rw [List.dropLast_append_of_ne_nil (by simp), List.dropLast_concat] at hnames
      rw [← List.append_assoc, ← hnames, List.append_assoc]
    rw [hdirectory]
    exact hnothing.verdict?_of_file d _ _ bytes n _ hkind (by simp) (hd ▸ hfile) hn hrule

end

/-- What the rules leave out is not reached. -/
theorem not_isReached_of_verdict (t : FileTree) (s : ScanSettings) (sources : Sources)
    (root : String) (base names : Location) (n : String)
    (h : sources.verdict? t (base ++ (names ++ [n]))
      (Path.withoutDot (Path.join root (Text.join "/" (names ++ [n])))) false = some .ignore) :
    isReached t s sources root base (names ++ [n]) = false := by
  rw [isReached, List.all_eq_false]
  refine ⟨names.length, by simp, ?_⟩
  have hall : (names ++ [n]).take (names.length + 1) = names ++ [n] :=
    List.take_of_length_le (by simp)
  simp [isAdmitted, hall, h]

/-! ### A file with other contents -/

theorem lookup_filter_ne (es : List (Location × Entry)) (l l' : Location) :
    (es.filter fun x => x.1 != l).lookup l' = if l' = l then none else es.lookup l' := by
  induction es with
  | nil => simp
  | cons x es ih =>
    obtain ⟨k, e⟩ := x
    by_cases hk : k = l
    · subst hk
      rw [List.filter_cons_of_neg (by simp), ih, List.lookup_cons]
      split_ifs with hl
      · rfl
      · rw [beq_false_of_ne hl]
    · rw [List.filter_cons_of_pos (by simpa using hk), List.lookup_cons, List.lookup_cons, ih]
      cases hkey : l' == k with
      | false => rfl
      | true =>
        have hl : l' ≠ l := by
          rintro rfl
          exact hk (eq_of_beq hkey).symm
        simp [hl]

namespace FileTree
variable (t : FileTree) (l : Location) (bytes bytes' : List UInt8) (h : t.bytes? l = some bytes)
include h

theorem get?_put (l' : Location) :
    (t.put l (.file bytes')).get? l' = if l' = l then some (.file bytes') else t.get? l' := by
  have hentry := mem_entries_of_get? t l bytes (t.get?_of_bytes l bytes h)
  have hlookup : (t.put l (.file bytes')).entries.lookup l' =
      if l' = l then some (.file bytes') else t.entries.lookup l' := by
    rw [put, List.lookup_append, lookup_filter_ne]
    split_ifs with hl
    · subst hl
      simp
    · rw [List.lookup_cons, beq_false_of_ne hl]
      simp
  -- the directories that lead to the file are there before and after
  have hany : (t.put l (.file bytes')).entries.any (fun x => l'.isPrefixOf x.1) =
      t.entries.any fun x => l'.isPrefixOf x.1 := by
    rw [Bool.eq_iff_iff, List.any_eq_true, List.any_eq_true]
    constructor
    · rintro ⟨x, hx, hstart⟩
      rcases List.mem_append.mp hx with hx | hx
      · exact ⟨x, (List.mem_filter.mp hx).1, hstart⟩
      · rw [List.mem_singleton.mp hx] at hstart
        exact ⟨_, hentry, hstart⟩
    · rintro ⟨x, hx, hstart⟩
      by_cases hl : x.1 = l
      · exact ⟨(l, .file bytes'), by simp [put], hl ▸ hstart⟩
      · exact ⟨x, by simp [put, hx, hl], hstart⟩
  rw [get?, hlookup, hany, get?]
  split_ifs <;> rfl

theorem find_put (path : String) (base : Location) (hpath : t.find path = .ok (base, .directory)) :
    (t.put l (.file bytes')).find path = .ok (base, .directory) := by
  have hget := t.get?_put l bytes bytes' h
  have hstep : (t.put l (.file bytes')).step = t.step := by
    funext l' part
    rw [step, step, hget]
    by_cases hl : l' = l
    · rw [if_pos hl, hl, t.get?_of_bytes l bytes h]
    · rw [if_neg hl]
  have hbase : base ≠ l := by
    rintro rfl
    have hdirectory := get?_of_find t path base _ hpath
    rw [t.get?_of_bytes base bytes h] at hdirectory
    cases hdirectory
  obtain ⟨hempty, habsolute, hsteps⟩ := t.follow_of_find path base _ hpath
  have hfollow : (t.put l (.file bytes')).follow path = .ok base := by
    rw [follow, hstep, hsteps]
    simp [hempty, habsolute]
  rw [find_of_follow _ _ _ hfollow, hget, if_neg hbase, get?_of_find t path base _ hpath]

theorem bytes?_put (l' : Location) :
    (t.put l (.file bytes')).bytes? l' = if l' = l then some bytes' else t.bytes? l' := by
  rw [bytes?, t.get?_put l bytes bytes' h]
  split_ifs <;> rfl

end FileTree

/-- No rules are read at a file that is not honoured. -/
theorem ne_of_not_honoured (t : FileTree) (base : Location) (name : String) (names : Location)
    (hgit : name ≠ ".gitignore") (hbrief : name ≠ ".briefignore")
    (hnot : ¬ IsHonoured t base name names) (extra : List Rule) (files : List Location)
    (hfiles : files ∈ Sources.kinds ⟨[".briefignore"], extra⟩) (d f : Location) (hf : f ∈ files) :
    d ++ f ≠ base ++ names ++ [name] := by
  intro heq
  simp only [IsHonoured, not_or] at hnot
  obtain ⟨_, _, hignore, hexclude⟩ := hnot
  have hlast (n : String) (hn : f = [n]) : n = name := by
    rw [hn] at heq
    simpa using congrArg List.getLast? heq
  simp only [Sources.kinds, List.mem_cons, List.not_mem_nil, or_false] at hfiles
  rcases hfiles with rfl | rfl | rfl | rfl
  · exact hbrief (hlast _ (by simpa using hf)).symm
  · exact hignore (hlast _ (by simpa using hf)).symm
  · exact hgit (hlast _ (by simpa using hf)).symm
  · exact hexclude ⟨d, by rw [← heq, List.mem_singleton.mp hf]⟩

section
variable (t : FileTree) (root : String) (s : ScanSettings) (base names : Location)
  (bytes bytes' : List UInt8) (hroot : t.find root = .ok (base, .directory))
  (hname : IsName s.ignoreFile) (hgit : s.ignoreFile ≠ ".gitignore")
  (hbrief : s.ignoreFile ≠ ".briefignore")
  (hfile : t.bytes? (base ++ names ++ [s.ignoreFile]) = some bytes)
  (hnot : ¬ IsHonoured t base s.ignoreFile names)
include hroot hname hgit hbrief hfile hnot

theorem ignoreSources_put : ∃ extra, ignoreSources t root s = ⟨[".briefignore"], extra⟩ ∧
    ignoreSources (t.put (base ++ names ++ [s.ignoreFile]) (.file bytes')) root s =
      ⟨[".briefignore"], extra⟩ := by
  obtain ⟨hnames, honly⟩ : names ≠ [] ∧ onlyIgnoreFile? t base s.ignoreFile ≠ none := by
    simp only [IsHonoured, not_or] at hnot
    exact ⟨hnot.1, hnot.2.1⟩
  obtain ⟨found, hfound⟩ := Option.ne_none_iff_exists'.mp honly
  have hroot' := t.find_put _ bytes bytes' hfile root base hroot
  -- the file that is read alone lies elsewhere and is found as before
  have hsame : onlyIgnoreFile? (t.put (base ++ names ++ [s.ignoreFile]) (.file bytes')) base
      s.ignoreFile = some found := by
    have hunder : base ++ [s.ignoreFile] ≠ base ++ names ++ [s.ignoreFile] := by simpa using hnames
    have hhere : [s.ignoreFile] ≠ base ++ names ++ [s.ignoreFile] := by
      intro heq
      have hlength := congrArg List.length heq
      have hpos := List.length_pos_of_ne_nil hnames
      simp only [List.length_append, List.length_singleton] at hlength
      omega
    rw [onlyIgnoreFile?, t.bytes?_put _ bytes bytes' hfile, t.bytes?_put _ bytes bytes' hfile,
      if_neg hunder, if_neg hhere]
    exact hfound
  refine ⟨rulesOf found, ?_, ?_⟩
  · rw [ignoreSources_name t root s base hroot hname hgit hbrief, hfound]
  · rw [ignoreSources_name _ root s base hroot' hname hgit hbrief, hsame]

theorem isReached_put (l : Location) :
    isReached (t.put (base ++ names ++ [s.ignoreFile]) (.file bytes')) s
        (ignoreSources (t.put (base ++ names ++ [s.ignoreFile]) (.file bytes')) root s)
        root base l =
      isReached t s (ignoreSources t root s) root base l := by
  obtain ⟨extra, hsources, hsources'⟩ := ignoreSources_put t root s base names bytes bytes' hroot
    hname hgit hbrief hfile hnot
  rw [hsources, hsources']
  apply isReached_of_verdict
  intro front _ _ isDirectory
  -- the sources never look at the file, so that all rules are as before
  apply Sources.verdict?_congr rfl
  · intro files hfiles
    have hrules (d : Location) :
        rulesIn (t.put (base ++ names ++ [s.ignoreFile]) (.file bytes')) d files =
          rulesIn t d files := by
      apply List.flatMap_congr
      intro f hf
      rw [t.bytes?_put _ bytes bytes' hfile, if_neg
        (ne_of_not_honoured t base s.ignoreFile names hgit hbrief hnot extra files hfiles d f hf)]
    simp only [closest?, hrules]
  · rfl

/-- What a file holds that is not honoured does not matter to the other files. -/
theorem mem_files_put (r : ScanResult) (hscan : t.scan root s = .ok r) :
    ∃ r', (t.put (base ++ names ++ [s.ignoreFile]) (.file bytes')).scan root s = .ok r' ∧
      ∀ f : SourceFile, f.location ≠ base ++ names ++ [s.ignoreFile] →
        (f ∈ r'.files ↔ f ∈ r.files) := by
  have hroot' := t.find_put _ bytes bytes' hfile root base hroot
  have hreached := isReached_put t root s base names bytes bytes' hroot hname hgit hbrief hfile hnot
  have hreadable := readable_of_scan t root s r hscan
  obtain ⟨r', hscan'⟩ : ∃ r', (t.put (base ++ names ++ [s.ignoreFile]) (.file bytes')).scan root s =
      .ok r' := by
    rw [scan_of_readable _ root s hreadable, seen_of_directory _ root s base hroot']
    exact ⟨_, rfl⟩
  refine ⟨r', hscan', fun f hf => ?_⟩
  rw [mem_files_iff _ root s base r' hroot' hscan', mem_files_iff t root s base r hroot hscan]
  refine exists_congr fun x => ?_
  rw [hreached]
  refine and_congr_left fun ⟨_, hsource, _⟩ => ?_
  have hx : x.1 ≠ names ++ [s.ignoreFile] := by
    obtain ⟨_, _, rfl⟩ := Option.map_eq_some_iff.mp hsource
    simpa using hf
  -- the entries of the two trees differ at the file only
  rw [mem_filesBelow, mem_filesBelow]
  simp [FileTree.put, hx]

end

/-! ### Sources that a file names -/

/-- An ignore file in some directory, under a bare name of the settings, has a line that is the name
of a source there, and no ignore file takes anything back. If the file is honoured, the source is
not in the result. Otherwise the file could hold anything else, and the other files of the result
would be the same. -/
theorem named_ignore_file (t : FileTree) (root : String) (s : ScanSettings) (base names : Location)
    (bytes : List UInt8) (n : String) (r : ScanResult)
    (hroot : t.find root = .ok (base, .directory)) (hname : IsName s.ignoreFile)
    (hgit : s.ignoreFile ≠ ".gitignore") (hbrief : s.ignoreFile ≠ ".briefignore")
    (hfile : t.bytes? (base ++ names ++ [s.ignoreFile]) = some bytes) (hn : IsPlainName n)
    (hsource : (Language.ofPath? n).isSome) (hline : n.toList ∈ readableLines bytes)
    (hallowed : NothingAllowed t s.ignoreFile) (hscan : t.scan root s = .ok r) :
    (IsHonoured t base s.ignoreFile names →
      ∀ f ∈ r.files, f.location ≠ base ++ names ++ [n]) ∧
    (¬ IsHonoured t base s.ignoreFile names → ∀ bytes', ∃ r',
      (t.put (base ++ names ++ [s.ignoreFile]) (.file bytes')).scan root s = .ok r' ∧
        ∀ f : SourceFile, f.location ≠ base ++ names ++ [s.ignoreFile] →
          (f ∈ r'.files ↔ f ∈ r.files)) := by
  constructor
  · intro hhonoured f hf hlocation
    have hrule := nameRule_mem_rulesOf bytes n hn (trimEnd_source n hn.name hsource) hline
    have hverdict := verdict?_of_honoured t root s base hroot hname hgit hbrief names bytes n
      hn.name.ne_empty hallowed hhonoured hfile hrule
    obtain ⟨x, _, hreached, hfound, _⟩ := (mem_files_iff t root s base r hroot hscan f).mp hf
    obtain ⟨_, _, rfl⟩ := Option.map_eq_some_iff.mp hfound
    have hx : x.1 = names ++ [n] := by
      rw [List.append_assoc] at hlocation
      exact List.append_cancel_left hlocation
    rw [hx, not_isReached_of_verdict t s _ root base names n hverdict] at hreached
    cases hreached
  · intro hnot bytes'
    exact mem_files_put t root s base names bytes bytes' hroot hname hgit hbrief hfile hnot r hscan

/-- No file of the tree has a line that starts with `!`, byte order marks apart. -/
theorem nothingAllowed_of_entries (t : FileTree) (name : String)
    (h : (t.entries.all fun x => match x.2 with
      | .file bytes => (readableLines bytes).all fun line =>
          (line.dropWhile (· == '\uFEFF')).head? != some '!'
      | .directory => true) = true) : NothingAllowed t name := by
  intro l bytes _ hbytes
  have hentry := mem_entries_of_get? t l bytes (t.get?_of_bytes l bytes hbytes)
  apply allows_of_lines
  intro line hline
  simpa using List.all_eq_true.mp (List.all_eq_true.mp h _ hentry) line hline

/-- A source and a file beside it that names the source. -/
def namedSource : FileTree where
  entries := [(["sub", "my.ignore"], .file (Utf8.encode "x.py\n")),
    (["sub", "x.py"], .file [])]

/-- The same with an empty file of the name in the root. -/
def shadowedSource : FileTree := namedSource.put ["my.ignore"] (.file [])

/-- Alone, the file leaves out the source that it names. Where another file of its name lies in the
root, it might as well be empty. -/
theorem named_ignore_file_below :
    let s : ScanSettings := { ignoreFile := "my.ignore" }
    (∃ r, namedSource.scan "." s = .ok r ∧ r.skipped = 1 ∧
      ∀ f ∈ r.files, f.location ≠ ["sub", "x.py"]) ∧
    ∃ r r', shadowedSource.scan "." s = .ok r ∧
      (shadowedSource.put ["sub", "my.ignore"] (.file [])).scan "." s = .ok r' ∧
      ∀ f : SourceFile, f.location ≠ ["sub", "my.ignore"] → (f ∈ r'.files ↔ f ∈ r.files) := by
  intro s
  have hname : IsName s.ignoreFile := by decide
  have hn : IsPlainName "x.py" := ⟨by decide, List.all_eq_true.mp (by decide), by simp⟩
  have hline : "x.py".toList ∈ readableLines (Utf8.encode "x.py\n") := by decide +kernel
  constructor
  · have hscan : (namedSource.scan "." s).toOption.any (fun r => r.skipped == 1) = true := by
      decide +kernel
    cases hr : namedSource.scan "." s with
    | error e =>
      rw [hr] at hscan
      cases hscan
    | ok r =>
      rw [hr] at hscan
      refine ⟨r, rfl, by simpa [Except.toOption] using hscan, ?_⟩
      exact (named_ignore_file namedSource "." s [] ["sub"] _ "x.py" r (by decide +kernel) hname
        (by decide) (by decide) (by decide +kernel) hn (by decide +kernel) hline
        (nothingAllowed_of_entries _ _ (by decide +kernel)) hr).1 (by decide +kernel)
  · obtain ⟨r, hr⟩ : ∃ r, shadowedSource.scan "." s = .ok r := by
      rw [scan_of_readable _ _ _ (by decide), seen_of_directory _ _ _ [] (by decide +kernel)]
      exact ⟨_, rfl⟩
    obtain ⟨r', hr', hsame⟩ := (named_ignore_file shadowedSource "." s [] ["sub"] _ "x.py" r
      (by decide +kernel) hname (by decide) (by decide) (by decide +kernel) hn (by decide +kernel)
      hline (nothingAllowed_of_entries _ _ (by decide +kernel)) hr).2 (by decide +kernel) []
    exact ⟨r, r', hr, hr', hsame⟩

/-- The file that names the source lies beside it, and the source is returned: only the empty file
in the root is read. -/
theorem source_in_spite_of_file :
    let s : ScanSettings := { ignoreFile := "my.ignore" }
    IsName s.ignoreFile ∧ IsPlainName "x.py" ∧ (Language.ofPath? "x.py").isSome ∧
    NothingAllowed shadowedSource s.ignoreFile ∧
    (∃ bytes, shadowedSource.bytes? ["sub", "my.ignore"] = some bytes ∧
      "x.py".toList ∈ readableLines bytes) ∧
    (shadowedSource.scan "." s).toOption.any (fun r =>
      r.files.map (·.location) == [["sub", "x.py"]]) = true := by
  intro s
  have hn : IsPlainName "x.py" := ⟨by decide, List.all_eq_true.mp (by decide), by simp⟩
  have hallowed : NothingAllowed shadowedSource s.ignoreFile :=
    nothingAllowed_of_entries _ _ (by decide +kernel)
  exact ⟨by decide, hn, by decide +kernel, hallowed,
    ⟨Utf8.encode "x.py\n", by decide +kernel, by decide +kernel⟩, by decide +kernel⟩

end Synopsis
