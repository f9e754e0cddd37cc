import Mathlib.Data.List.Forall2
import Mathlib.Data.List.Induction
import Synopsis.Builtin
import Synopsis.Extract

/-! Import records. A match says a path and a name by the last captures of each, and the records
of a text are the first ones of each direction, path and name in the order of the matches. -/
open Synopsis.Tree

namespace Synopsis.Imports

/-! ### What a match says -/

/-- The last place captured under a role. -/
def placeUnder (caps : Captures) (role : String) : Option Place :=
  (caps.reverse.find? (·.1 == role)).map (·.2)

/-- The captures that bring a path or a name. -/
def isSource (capture : String × Place) : Bool :=
  capture.1 == "import_path" || capture.1 == "export_name"

/-- The last capture that brings a path or a name. -/
def lastSource (caps : Captures) : Option (String × Place) := caps.reverse.find? isSource

/-- The path of a match in the form in which the language records it, empty without one. -/
def pathOf (p : Profile) (s : Source) (caps : Captures) : String :=
  ((placeUnder caps "import_path").map fun q => p.normalizeImport (q.node.text s)).getD ""

/-- The exported name of a match, empty without one. -/
def nameOf (s : Source) (caps : Captures) : String :=
  ((placeUnder caps "export_name").map (·.node.text s)).getD ""

/-- The line on which the last path or name starts, counted from 1. -/
def lineOf (caps : Captures) : Nat := ((lastSource caps).map (·.2.node.row+1)).getD 0

/-- A marker says that what is imported is exported again. -/
def isMarked (caps : Captures) : Bool := caps.any (·.1 == "export_type")

/-- An export is said by a marker together with a path, or by a name with no path after it. -/
def directionOf (p : Profile) (s : Source) (caps : Captures) : Direction :=
  if (isMarked caps && pathOf p s caps != "") || (lastSource caps).any (·.1 == "export_name") then
    .export_
  else .import_

def keyOf (p : Profile) (s : Source) (m : Match) : Direction × String × String :=
  (directionOf p s m.captures, pathOf p s m.captures, nameOf s m.captures)

/-- The match brings a path or a name that is not empty. -/
def Brings (p : Profile) (s : Source) (m : Match) : Prop :=
  pathOf p s m.captures ≠ "" ∨ nameOf s m.captures ≠ ""

instance (p : Profile) (s : Source) : DecidablePred (Brings p s) :=
  fun _ => inferInstanceAs (Decidable (_ ∨ _))

/-- What records are told apart by. -/
def recordKey (d : Dependency) : Direction × String × String := (d.direction, d.path, d.name)

/-! ### From captures to a record -/

theorem placeUnder_concat (caps : Captures) (role role' : String) (place : Place) :
    placeUnder (caps ++ [(role', place)]) role =
      if role' = role then some place else placeUnder caps role := by
  by_cases heq : role' = role <;> simp [placeUnder, heq]

theorem lastSource_concat (caps : Captures) (x : String × Place) :
    lastSource (caps ++ [x]) = if isSource x then some x else lastSource caps := by
  by_cases hx : isSource x = true <;> simp [lastSource, hx]

/-- A draft holds what the captures so far say. -/
structure Drafts (p : Profile) (s : Source) (caps : Captures) (d : DependencyDraft) : Prop where
  path : d.path = pathOf p s caps
  name : d.name = nameOf s caps
  line : d.line = lineOf caps
  direction : d.direction =
    if (lastSource caps).any (·.1 == "export_name") then .export_ else .import_
  marked : d.marked = isMarked caps

theorem drafts_add (p : Profile) (s : Source) (caps : Captures) (d : DependencyDraft)
    (x : String × Place) (h : Drafts p s caps d) : Drafts p s (caps ++ [x]) (d.add p s x) := by
  obtain ⟨role, place⟩ := x
  obtain ⟨hpath, hname, hline, hdirection, hmarked⟩ := h
  unfold pathOf at hpath
  unfold nameOf at hname
  unfold lineOf at hline
  unfold isMarked at hmarked
  unfold DependencyDraft.add
  split
  -- the path and the name override the line and the direction, the marker neither
  next h =>
    obtain rfl : role = "import_path" := h
    constructor <;>
      simp [pathOf, nameOf, lineOf, isMarked, placeUnder_concat, lastSource_concat, isSource,
        hname, hmarked]
  next h =>
    obtain rfl : role = "export_name" := h
    constructor <;>
      simp [pathOf, nameOf, lineOf, isMarked, placeUnder_concat, lastSource_concat, isSource,
        hpath, hmarked]
  next h =>
    obtain rfl : role = "export_type" := h
    constructor <;>
      simp [pathOf, nameOf, lineOf, isMarked, placeUnder_concat, lastSource_concat, isSource,
        hpath, hname, hline, hdirection]
  next hp hn hm =>
    have hp : role ≠ "import_path" := hp
    have hn : role ≠ "export_name" := hn
    have hm : role ≠ "export_type" := hm
    constructor <;>
      simp [pathOf, nameOf, lineOf, isMarked, placeUnder_concat, lastSource_concat, isSource,
        hp, hn, hm, hpath, hname, hline, hdirection, hmarked]

theorem drafts_foldl (p : Profile) (s : Source) (caps : Captures) :
    Drafts p s caps (caps.foldl (DependencyDraft.add p s) {}) := by
  induction caps using List.reverseRecOn with
  | nil => constructor <;> rfl
  | append_singleton caps x ih =>
    rw [List.foldl_append]
    exact drafts_add p s caps _ x ih

/-- The record of one match. -/
def recordOf (p : Profile) (s : Source) (m : Match) : Option Dependency :=
  (m.captures.foldl (DependencyDraft.add p s) {}).finish

theorem recordOf_eq (p : Profile) (s : Source) (m : Match) :
    recordOf p s m =
      if Brings p s m then
        some ⟨directionOf p s m.captures, pathOf p s m.captures, nameOf s m.captures,
          lineOf m.captures⟩
      else none := by
  obtain ⟨hpath, hname, hline, hdirection, hmarked⟩ := drafts_foldl p s m.captures
  unfold recordOf DependencyDraft.finish Brings directionOf
  rw [hpath, hname, hline, hdirection, hmarked]
  by_cases hp : pathOf p s m.captures = ""
  · by_cases hn : nameOf s m.captures = "" <;> simp [hp, hn]
  · by_cases hm : isMarked m.captures = true <;> simp [hp, hm]

/-- The records of the matches that bring something, in order. -/
theorem keys_of_matches (p : Profile) (s : Source) (ms : List Match) :
    (ms.filterMap (recordOf p s)).map recordKey = (ms.filter (Brings p s ·)).map (keyOf p s) := by
  induction ms with
  | nil => rfl
  | cons m ms ih =>
    have hm := recordOf_eq p s m
    by_cases hb : Brings p s m
    · rw [if_pos hb] at hm
      rw [List.filterMap_cons_some hm, List.filter_cons_of_pos (by simpa using hb), List.map_cons,
        List.map_cons, ih]
      rfl
    · rw [if_neg hb] at hm
      rw [List.filterMap_cons_none hm, List.filter_cons_of_neg (by simpa using hb), ih]

/-! ### The first record of each key -/

theorem firstRecords_cons (seen : List (Direction × String × String)) (d : Dependency)
    (ds : List Dependency) :
    firstRecords seen (d :: ds) =
      if recordKey d ∈ seen then firstRecords seen ds
      else d :: firstRecords (recordKey d :: seen) ds := by
  rw [firstRecords]
  simp only [List.contains_eq_mem, decide_eq_true_eq]
  rfl

/-- The keys kept are those not seen, each at its first occurrence. -/
theorem keys_firstRecords (seen : List (Direction × String × String)) (ds : List Dependency) :
    (firstRecords seen ds).map recordKey =
      ((ds.map recordKey).filter (· ∉ seen)).eraseDups := by
  induction ds generalizing seen with
  | nil => rfl
  | cons d ds ih =>
    rw [firstRecords_cons]
    split_ifs with hseen
    · rw [ih, List.map_cons, List.filter_cons_of_neg (by simpa using hseen)]
    · rw [List.map_cons, ih, List.map_cons, List.filter_cons_of_pos (by simpa using hseen),
        List.eraseDups_cons, List.filter_filter]
      congr 3
      funext key
      by_cases hkey : key = recordKey d <;> simp [hkey]

/-- A record kept is new, and the first of its key. -/
theorem find?_of_mem_firstRecords (seen : List (Direction × String × String))
    (ds : List Dependency) (d : Dependency) (hd : d ∈ firstRecords seen ds) :
    recordKey d ∉ seen ∧ ds.find? (recordKey · == recordKey d) = some d := by
  induction ds generalizing seen with
  | nil => simp [firstRecords] at hd
  | cons a ds ih =>
    rw [firstRecords_cons] at hd
    split_ifs at hd with hseen
    · obtain ⟨hnew, hfind⟩ := ih seen hd
      have hne : recordKey a ≠ recordKey d := fun h => hnew (h ▸ hseen)
      exact ⟨hnew, by rw [List.find?_cons_of_neg (by simpa using hne), hfind]⟩
    · rcases List.mem_cons.mp hd with rfl | hd
      · exact ⟨hseen, List.find?_cons_of_pos (by simp)⟩
      · obtain ⟨hnew, hfind⟩ := ih _ hd
        obtain ⟨hne, hnew⟩ : recordKey d ≠ recordKey a ∧ recordKey d ∉ seen := by
          simpa using hnew
        exact ⟨hnew, by rw [List.find?_cons_of_neg (by simpa using hne.symm), hfind]⟩

theorem firstRecords_nodup (seen : List (Direction × String × String)) (ds : List Dependency) :
    ((firstRecords seen ds).map recordKey).Nodup := by
  induction ds generalizing seen with
  | nil => exact List.nodup_nil
  | cons d ds ih =>
    rw [firstRecords_cons]
    split_ifs with hseen
    · exact ih seen
    · rw [List.map_cons, List.nodup_cons]
      refine ⟨?_, ih _⟩
      intro hmem
      obtain ⟨e, he, hkey⟩ := List.mem_map.mp hmem
      have hnew := (find?_of_mem_firstRecords _ ds e he).1
      rw [hkey] at hnew
      exact hnew List.mem_cons_self

/-- The record kept for a key carries the line of the first match that has the key. -/
theorem line_of_first (p : Profile) (s : Source) (ms : List Match) (d : Dependency)
    (hd : d ∈ dependenciesOf p s ms) :
    ∃ m, ms.find? (fun m => Brings p s m ∧ keyOf p s m = recordKey d) = some m ∧
      d.line = lineOf m.captures := by
  have hfind := (find?_of_mem_firstRecords [] _ d hd).2
  change (ms.filterMap (recordOf p s)).find? _ = _ at hfind
  rw [List.find?_filterMap] at hfind
  obtain ⟨m, hm, hrecord⟩ := Option.bind_eq_some_iff.mp hfind
  refine ⟨m, ?_, ?_⟩
  · rw [← hm]
    congr 1
    funext m
    rw [recordOf_eq]
    by_cases hb : Brings p s m <;> simp [hb, recordKey, keyOf, beq_eq_decide]
  · rw [recordOf_eq] at hrecord
    split_ifs at hrecord
    cases hrecord
    rfl

/-! ### The order of the captures -/

/-- The same captures in another order, with one path or name among them at most. -/
structure Reordered (m m' : Match) : Prop where
  perm : m.captures.Perm m'.captures
  single : (m.captures.filter isSource).length ≤ 1

/-- A capture that brings neither path nor name can only mark. -/
theorem add_of_not_source (p : Profile) (s : Source) (d : DependencyDraft) (x : String × Place)
    (hx : isSource x = false) :
    d.add p s x = if x.1 = "export_type" then { d with marked := true } else d := by
  obtain ⟨role, place⟩ := x
  obtain ⟨hp, hn⟩ : role ≠ "import_path" ∧ role ≠ "export_name" := by simpa [isSource] using hx
  unfold DependencyDraft.add
  split
  next h => exact absurd h hp
  next h => exact absurd h hn
  next h => simp [show role = "export_type" from h]
  next h => simp [show role ≠ "export_type" from h]

/-- No capture looks at the marker. -/
theorem add_marked (p : Profile) (s : Source) (d : DependencyDraft) (x : String × Place) :
    DependencyDraft.add p s { d with marked := true } x = { d.add p s x with marked := true } := by
  unfold DependencyDraft.add
  split <;> rfl

theorem add_swap (p : Profile) (s : Source) (d : DependencyDraft) (x y : String × Place)
    (hx : isSource x = false) : (d.add p s x).add p s y = (d.add p s y).add p s x := by
  rw [add_of_not_source p s d x hx, add_of_not_source p s (d.add p s y) x hx]
  split_ifs
  · exact add_marked p s d y
  · rfl

theorem eq_of_single (caps : Captures) (h : (caps.filter isSource).length ≤ 1)
    (x y : String × Place) (hx : x ∈ caps) (hy : y ∈ caps) (hxs : isSource x = true)
    (hys : isSource y = true) : x = y := by
  have hx' : x ∈ caps.filter isSource := List.mem_filter.mpr ⟨hx, hxs⟩
  have hy' : y ∈ caps.filter isSource := List.mem_filter.mpr ⟨hy, hys⟩
  obtain ⟨z, hz⟩ : ∃ z, caps.filter isSource = [z] := by
    apply List.length_eq_one_iff.mp
    have hpos := List.length_pos_of_mem hx'
    omega
  rw [hz, List.mem_singleton] at hx' hy'
  rw [hx', hy']

/-- Captures with one path or name at most give the same record in any order. -/
theorem recordOf_reordered (p : Profile) (s : Source) (m m' : Match) (h : Reordered m m') :
    recordOf p s m = recordOf p s m' := by
  unfold recordOf
  congr 1
  apply h.perm.foldl_eq'
  intro x hx y hy d
  cases hxs : isSource x with
  | false => exact add_swap p s d x y hxs
  | true =>
    cases hys : isSource y with
    | false => exact (add_swap p s d y x hys).symm
    | true => rw [eq_of_single m.captures h.single x y hx hy hxs hys]

theorem dependenciesOf_reordered (p : Profile) (s : Source) (ms ms' : List Match)
    (h : List.Forall₂ (fun m m' => m = m' ∨ Reordered m m') ms ms') :
    dependenciesOf p s ms = dependenciesOf p s ms' := by
  have hrecords : ms.filterMap (recordOf p s) = ms'.filterMap (recordOf p s) := by
    induction h with
    | nil => rfl
    | cons hm _ ih =>
      have hsame : recordOf p s _ = recordOf p s _ :=
        hm.elim (congrArg (recordOf p s)) (recordOf_reordered p s _ _)
      rw [List.filterMap_cons, List.filterMap_cons, hsame, ih]
  exact congrArg (firstRecords []) hrecords

/-! ### All together -/

theorem keys_dependenciesOf (p : Profile) (s : Source) (ms : List Match) :
    (dependenciesOf p s ms).map recordKey =
      ((ms.filter (Brings p s ·)).map (keyOf p s)).eraseDups := by
  have h := keys_firstRecords [] (ms.filterMap (recordOf p s))
  rw [keys_of_matches, List.filter_eq_self.mpr (by simp)] at h
  exact h

/-- Whatever the matches: the records differ in direction, path or name; they are the first
occurrences, in match order, of what the matches that bring a path or a name say, each with the
line of its first occurrence. A marked match with a path is an export, and captures that bring one
path or name at most may stand in any order. -/
theorem import_records (p : Profile) (s : Source) (ms : List Match) :
    let out := dependenciesOf p s ms
    (out.map recordKey).Nodup ∧
    out.map recordKey = ((ms.filter (Brings p s ·)).map (keyOf p s)).eraseDups ∧
    (∀ d ∈ out, ∃ m, ms.find? (fun m => Brings p s m ∧ keyOf p s m = recordKey d) = some m ∧
      d.line = lineOf m.captures) ∧
    (∀ m ∈ ms, isMarked m.captures = true → pathOf p s m.captures ≠ "" →
      (recordOf p s m).map (·.direction) = some .export_ ∧
      (.export_, pathOf p s m.captures, nameOf s m.captures) ∈ out.map recordKey) ∧
    ∀ ms', List.Forall₂ (fun m m' => m = m' ∨ Reordered m m') ms ms' →
      dependenciesOf p s ms' = out := by
  intro out
  have hkeys : out.map recordKey = _ := keys_dependenciesOf p s ms
  refine ⟨firstRecords_nodup [] _, hkeys, line_of_first p s ms, ?_, ?_⟩
  · intro m hm hmarked hpath
    have hbrings : Brings p s m := .inl hpath
    have hdirection : directionOf p s m.captures = .export_ := by
      simp [directionOf, hmarked, hpath]
    refine ⟨by rw [recordOf_eq, if_pos hbrings, hdirection]; rfl, ?_⟩
    rw [hkeys, List.mem_eraseDups, List.mem_map]
    exact ⟨m, by simpa using ⟨hm, hbrings⟩, by rw [keyOf, hdirection]⟩
  · intro ms' h
    exact (dependenciesOf_reordered p s ms ms' h).symm

/-- A module imported in one spelling and exported again in two others, with the marker before the
path and after it: two records, whichever comes first in a match. -/
theorem import_records_reexport :
    let source := Source.ofString "import 'x'\nexport * from \"x\"\nexport * from 'x'"
    let place (kind : String) (row start stop : Nat) : Place :=
      .root ⟨kind, true, "", start, stop, row, row, []⟩
    let plain : Match := ⟨[("import_path", place "string" 0 7 10)]⟩
    let early : Match :=
      ⟨[("export_type", place "export_statement" 1 11 28), ("import_path", place "string" 1 25 28)]⟩
    let late : Match :=
      ⟨[("import_path", place "string" 2 43 46), ("export_type", place "export_statement" 2 29 46)]⟩
    let swapped : Match := { early with captures := early.captures.reverse }
    let p := Profile.script Parsers.bundled.typescript
    early ∈ [plain, early, late] ∧ isMarked early.captures = true ∧
      pathOf p source early.captures ≠ "" ∧ Reordered early swapped ∧
      (recordOf p source early).map (·.direction) = some .export_ ∧
      dependenciesOf p source [plain, early, late] =
        [⟨.import_, "x", "", 1⟩, ⟨.export_, "x", "", 2⟩] ∧
      dependenciesOf p source [plain, swapped, late] =
        dependenciesOf p source [plain, early, late] := by
  intro source place plain early late swapped p
  have hmem : early ∈ [plain, early, late] := by simp
  have hmarked : isMarked early.captures = true := by decide +kernel
  have hpath : pathOf p source early.captures ≠ "" := by decide +kernel
  have hswap : Reordered early swapped := ⟨(List.reverse_perm _).symm, by decide +kernel⟩
  obtain ⟨_, _, _, hexport, horder⟩ := import_records p source [plain, early, late]
  refine ⟨hmem, hmarked, hpath, hswap, (hexport early hmem hmarked hpath).1, by decide +kernel, ?_⟩
  exact horder _ (.cons (.inl rfl) (.cons (.inr hswap) (.cons (.inl rfl) .nil)))

end Synopsis.Imports
