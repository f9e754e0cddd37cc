import Mathlib.Tactic.MkIffOfInductiveProp
import Synopsis.Proofs.PathPrefixes
import Synopsis.Proofs.Text

/-! The drawing of a directory tree can be read back: each of its lines tells by its marks how deep
it stands, so the lines give the prefixes of the paths, one each. -/
namespace Synopsis.PathTree
open Text

/-! ### Reading a drawing -/

/-- The marks before a name: the two connectors, a bar and a space of the same width. -/
def marks : List (List Char) := ["├── ", "└── ", "│   ", "    "].map String.toList

/-- How many marks stand before a name, and the name. -/
def readLine : List Char → Nat × List Char
  | a :: b :: c :: d :: cs =>
    if marks.contains [a, b, c, d] then ((readLine cs).1 + 1, (readLine cs).2)
    else (0, a :: b :: c :: d :: cs)
  | cs => (0, cs)

/-- The prefixes that lines stand for, below the one that was read last. -/
def readLines (above : List String) : List (List Char) → List (List String)
  | [] => []
  | l :: ls =>
    let q := above.take (readLine l).1 ++ [String.ofList (readLine l).2]
    q :: readLines q ls

/-- The prefixes that a drawing shows. -/
def shownPrefixes (drawing : String) : List (List String) :=
  readLines [] ((splitWhere (· == '\n') drawing.toList).filter fun l => !l.isEmpty)

theorem length_readLines (above : List String) (ls : List (List Char)) :
    (readLines above ls).length = ls.length := by
  induction ls generalizing above with
  | nil => rfl
  | cons l ls ih => rw [readLines, List.length_cons, ih, List.length_cons]

/-- A name on one line that starts with no mark. -/
@[mk_iff]
structure PlainName (n : String) : Prop where
  one_line : '\n' ∉ n.toList
  unmarked : ∀ m ∈ marks, ¬ m <+: n.toList

instance : DecidablePred PlainName := fun n => decidable_of_iff _ (plainName_iff n).symm

/-- All names of the tree are plain and not empty. -/
def Plain (t : PathTree) : Prop := ∀ q, Has q t → ∀ n ∈ q, n.toList ≠ [] ∧ PlainName n

theorem Plain.parts {n : String} {t : PathTree} {rest : List (String × PathTree)}
    (h : Plain (node ((n, t) :: rest))) :
    (n.toList ≠ [] ∧ PlainName n) ∧ Plain t ∧ Plain (node rest) := by
  refine ⟨h [n] (by simp) n List.mem_cons_self, ?_, ?_⟩
  · intro q hq k hk
    exact h (n :: q) (by simp [hq]) k (List.mem_cons_of_mem n hk)
  · intro q hq k hk
    cases q with
    | nil => cases hk
    | cons m q => exact h (m :: q) (by simp [hq]) k hk

theorem readLine_plain (n : String) (h : PlainName n) : readLine n.toList = (0, n.toList) := by
  unfold readLine
  split
  next a b c d cs hn =>
    have hmark : [a, b, c, d] ∉ marks := by
      intro hmark
      apply h.unmarked [a, b, c, d] hmark
      rw [hn]
      exact ⟨cs, rfl⟩
    rw [if_neg (by simpa using hmark), hn]
  next => rfl

theorem readLine_mark (m cs : List Char) (hm : m ∈ marks) :
    readLine (m ++ cs) = ((readLine cs).1 + 1, (readLine cs).2) := by
  simp only [marks, List.map_cons, List.map_nil, List.mem_cons, List.not_mem_nil, or_false] at hm
  rcases hm with rfl | rfl | rfl | rfl <;> rfl

/-- The text counts as `k` marks, whatever follows it. -/
def Indents (k : Nat) (indent : String) : Prop :=
  ∀ cs, readLine (indent.toList ++ cs) = ((readLine cs).1 + k, (readLine cs).2)

theorem indents_empty : Indents 0 "" := fun _ => rfl

theorem Indents.mark {k : Nat} {indent : String} (h : Indents k indent) (m : String)
    (hm : m.toList ∈ marks) : Indents (k + 1) (indent ++ m) := by
  intro cs
  rw [String.toList_append, List.append_assoc, h, readLine_mark m.toList cs hm,
    Nat.add_right_comm, Nat.add_assoc]

theorem Indents.name {k : Nat} {indent : String} (h : Indents k indent) (n : String)
    (hn : PlainName n) : readLine (indent ++ n).toList = (k, n.toList) := by
  rw [String.toList_append, h, readLine_plain n hn, Nat.zero_add]

/-! ### The lines of a tree -/

/-- The line of the first name, the lines below it, and the lines of the names after it. -/
theorem linesBelow_cons (indent n : String) (t : PathTree) (rest : List (String × PathTree)) :
    ∃ connector bar : String, connector.toList ∈ marks ∧ bar.toList ∈ marks ∧
      linesBelow indent (node ((n, t) :: rest)) =
        (indent ++ connector ++ n) :: (linesBelow (indent ++ bar) t ++
          linesBelow indent (node rest)) := by
  cases rest with
  | nil =>
    refine ⟨"└── ", "    ", by simp [marks], by simp [marks], ?_⟩
    rw [linesBelow, childLines, linesBelow, childLines, List.append_nil]
  | cons next rest =>
    refine ⟨"├── ", "│   ", by simp [marks], by simp [marks], ?_⟩
    rw [linesBelow, childLines, linesBelow]
    rfl

theorem lines_cons (n : String) (t : PathTree) (rest : List (String × PathTree)) :
    lines (node ((n, t) :: rest)) = n :: (linesBelow "" t ++ lines (node rest)) := rfl

/-- Below a prefix the lines read as what lies below it, and the lines after them still find it. -/
theorem readLines_linesBelow (t : PathTree) (k : Nat) (indent : String) (front above : List String)
    (more : List (List Char)) (hindent : Indents k indent) (hlength : front.length = k + 1)
    (hplain : Plain t) (habove : front <+: above) :
    ∃ above', front <+: above' ∧
      readLines above ((linesBelow indent t).map String.toList ++ more) =
        prefixesBelow front t ++ readLines above' more := by
  induction t using induct generalizing k indent front above more with
  | leaf => exact ⟨above, habove, rfl⟩
  | cons n t rest iht ihrest =>
    obtain ⟨⟨_, hname⟩, ht, hrest⟩ := hplain.parts
    obtain ⟨connector, bar, hconnector, hbar, hlines⟩ := linesBelow_cons indent n t rest
    have hline : readLine (indent ++ connector ++ n).toList = (k + 1, n.toList) :=
      (hindent.mark connector hconnector).name n hname
    have htake : above.take (k + 1) = front := by
      rw [← hlength]
      exact (List.prefix_iff_eq_take.mp habove).symm
    -- what lies below the name is read behind it, and the siblings behind the same front
    obtain ⟨above₁, habove₁, hbelow⟩ := iht (k + 1) (indent ++ bar) (front ++ [n]) (front ++ [n])
      ((linesBelow indent (node rest)).map String.toList ++ more) (hindent.mark bar hbar)
      (by simp [hlength]) ht List.prefix_rfl
    obtain ⟨above₂, habove₂, hafter⟩ := ihrest k indent front above₁ more hindent hlength hrest
      ((List.prefix_append front [n]).trans habove₁)
    refine ⟨above₂, habove₂, ?_⟩
    rw [hlines, List.map_cons, List.map_append, List.cons_append, List.append_assoc, readLines,
      hline]
    simp only [htake, String.ofList_toList]
    rw [hbelow, hafter, prefixesBelow_cons, List.cons_append, List.append_assoc]

/-- The lines of a tree read as its prefixes. -/
theorem readLines_lines (t : PathTree) (above : List String) (hplain : Plain t) :
    readLines above (t.lines.map String.toList) = prefixesBelow [] t := by
  induction t using induct generalizing above with
  | leaf => rfl
  | cons n t rest _ ihrest =>
    obtain ⟨⟨_, hname⟩, ht, hrest⟩ := hplain.parts
    obtain ⟨above', _, hbelow⟩ := readLines_linesBelow t 0 "" [n] [n]
      ((lines (node rest)).map String.toList) indents_empty rfl ht List.prefix_rfl
    rw [lines_cons, List.map_cons, List.map_append, readLines, readLine_plain n hname]
    simp only [List.take_zero, List.nil_append, String.ofList_toList]
    rw [hbelow, ihrest above' hrest, prefixesBelow_cons, List.nil_append]

/-! ### The text of a drawing -/

/-- A line is not empty and holds no line feed. -/
def IsLine (l : String) : Prop := l.toList ≠ [] ∧ '\n' ∉ l.toList

theorem isLine_append (front n : String) (hfront : '\n' ∉ front.toList) (hn : n.toList ≠ [])
    (hname : PlainName n) : IsLine (front ++ n) := by
  unfold IsLine
  rw [String.toList_append]
  refine ⟨List.append_ne_nil_of_right_ne_nil _ hn, ?_⟩
  rw [List.mem_append]
  exact not_or.mpr ⟨hfront, hname.one_line⟩

theorem isLine_linesBelow (t : PathTree) (indent : String) (hindent : '\n' ∉ indent.toList)
    (hplain : Plain t) : ∀ l ∈ linesBelow indent t, IsLine l := by
  have hmarks : ∀ m ∈ marks, '\n' ∉ m := by decide
  induction t using induct generalizing indent with
  | leaf => simp [linesBelow, childLines]
  | cons n t rest iht ihrest =>
    obtain ⟨⟨hn, hname⟩, ht, hrest⟩ := hplain.parts
    obtain ⟨connector, bar, hconnector, hbar, hlines⟩ := linesBelow_cons indent n t rest
    have hmark (m : String) (hm : m.toList ∈ marks) : '\n' ∉ (indent ++ m).toList := by
      rw [String.toList_append, List.mem_append]
      exact not_or.mpr ⟨hindent, hmarks _ hm⟩
    rw [hlines]
    intro l hl
    rcases List.mem_cons.mp hl with rfl | hl
    · exact isLine_append _ n (hmark connector hconnector) hn hname
    · rcases List.mem_append.mp hl with hl | hl
      · exact iht _ (hmark bar hbar) ht l hl
      · exact ihrest indent hindent hrest l hl

theorem isLine_lines (t : PathTree) (hplain : Plain t) : ∀ l ∈ t.lines, IsLine l := by
  induction t using induct with
  | leaf => simp [lines]
  | cons n t rest _ ihrest =>
    obtain ⟨⟨hn, hname⟩, ht, hrest⟩ := hplain.parts
    rw [lines_cons]
    intro l hl
    rcases List.mem_cons.mp hl with rfl | hl
    · exact ⟨hn, hname.one_line⟩
    · rcases List.mem_append.mp hl with hl | hl
      · exact isLine_linesBelow t "" (by simp) ht l hl
      · exact ihrest hrest l hl

/-- Joined lines are cut apart again at the line feeds. -/
theorem splitWhere_lines (ls : List String) (hne : ls ≠ []) (h : ∀ l ∈ ls, IsLine l) :
    splitWhere (· == '\n') (join "\n" ls).toList = ls.map String.toList :=
  splitWhere_join "\n" '\n' rfl ls hne fun l hl => (h l hl).2

/-- The last line ends with no line feed, so nothing is taken from the end. -/
theorem render_eq_join (t : PathTree) (hplain : Plain t) : t.render = join "\n" t.lines := by
  have hkeep : dropEndWhile (· == '\n') (join "\n" t.lines).toList =
      (join "\n" t.lines).toList := by
    refine List.rdropWhile_eq_self_iff.mpr ?_
    intro hne hlast
    have hlines : t.lines ≠ [] := by
      intro hnil
      rw [hnil] at hne
      exact hne rfl
    have hsplit := splitWhere_lines t.lines hlines (isLine_lines t hplain)
    -- a line feed at the end would leave an empty piece behind it
    rw [← List.dropLast_append_getLast hne, beq_iff_eq.mp hlast,
      splitWhere_append_cons _ _ [] _ rfl] at hsplit
    obtain ⟨l, hl, hempty⟩ : ∃ l ∈ t.lines, l.toList = [] := by
      rw [← List.mem_map, ← hsplit]
      exact List.mem_append_right _ List.mem_cons_self
    exact (isLine_lines t hplain l hl).1 hempty
  rw [render, hkeep, String.ofList_toList]

/-- The pieces of a drawing between line feeds: its lines, or one empty piece. -/
theorem pieces_render (t : PathTree) (hplain : Plain t) :
    splitWhere (· == '\n') t.render.toList =
      if t.lines = [] then [[]] else t.lines.map String.toList := by
  rw [render_eq_join t hplain]
  split_ifs with hnil
  · rw [hnil]
    rfl
  · exact splitWhere_lines t.lines hnil (isLine_lines t hplain)

theorem shownPrefixes_render (t : PathTree) (hplain : Plain t) :
    shownPrefixes t.render = prefixesBelow [] t := by
  have hpieces : (splitWhere (· == '\n') t.render.toList).filter (fun l => !l.isEmpty) =
      t.lines.map String.toList := by
    rw [pieces_render t hplain]
    split_ifs with hnil
    · rw [hnil]
      rfl
    · rw [List.filter_eq_self]
      intro l hl
      obtain ⟨s, hs, rfl⟩ := List.mem_map.mp hl
      simpa using (isLine_lines t hplain s hs).1
  rw [shownPrefixes, hpieces, readLines_lines t [] hplain]

theorem length_linesAux (ls : List (List Char)) (h : [] ∉ ls) :
    (linesAux ls).length = ls.length := by
  induction ls with
  | nil => rfl
  | cons l ls ih =>
    obtain ⟨hl, hls⟩ : l ≠ [] ∧ [] ∉ ls := by simpa [eq_comm] using h
    cases ls with
    | nil => simp [linesAux, hl]
    | cons l' ls => rw [linesAux, List.length_cons, ih hls, List.length_cons, List.length_cons,
        List.length_cons]

/-- A drawing has one line for each prefix. -/
theorem length_lines_render (t : PathTree) (hplain : Plain t) :
    (Text.lines t.render.toList).length = (prefixesBelow [] t).length := by
  rw [← readLines_lines t [] hplain, length_readLines, Text.lines, pieces_render t hplain]
  split_ifs with hnil
  · rw [hnil]
    rfl
  · apply length_linesAux
    intro hmem
    obtain ⟨l, hl, hempty⟩ := List.mem_map.mp hmem
    exact (isLine_lines t hplain l hl).1 hempty

end Synopsis.PathTree

namespace Synopsis
open PathTree

theorem ne_nil_of_mem_names (p n : String) (hn : n ∈ names p) : n.toList ≠ [] := by
  obtain ⟨w, hw, rfl⟩ := List.mem_map.mp hn
  simpa using (List.mem_filter.mp hw).2

theorem plain_ofPaths (paths : List String) (h : ∀ p ∈ paths, ∀ n ∈ names p, PlainName n) :
    Plain (ofPaths paths) := by
  intro q hq n hn
  rcases (has_ofPaths q paths).mp hq with rfl | ⟨p, hp, hprefix⟩
  · cases hn
  · have hmem := hprefix.subset hn
    exact ⟨ne_nil_of_mem_names p n hmem, h p hp n hmem⟩

/-- Paths of plain names have the same drawing exactly when they have the same prefixes. The drawing
has one line for each prefix, and they can be read from it. -/
theorem drawPaths_prefixes (paths paths' : List String)
    (h : ∀ p ∈ paths, ∀ n ∈ names p, PlainName n)
    (h' : ∀ p ∈ paths', ∀ n ∈ names p, PlainName n) :
    (drawPaths paths = drawPaths paths' ↔ pathPrefixes paths = pathPrefixes paths') ∧
      (Text.lines (drawPaths paths).toList).length = (pathPrefixes paths).card ∧
      (shownPrefixes (drawPaths paths)).Nodup ∧
      (shownPrefixes (drawPaths paths)).toFinset = pathPrefixes paths := by
  have hshown (ps : List String) (hps : ∀ p ∈ ps, ∀ n ∈ names p, PlainName n) :
      shownPrefixes (drawPaths ps) = prefixesBelow [] (ofPaths ps) :=
    shownPrefixes_render _ (plain_ofPaths ps hps)
  obtain ⟨hnodup, hset⟩ := prefixesBelow_ofPaths paths
  obtain ⟨_, hset'⟩ := prefixesBelow_ofPaths paths'
  refine ⟨⟨?_, ?_⟩, ?_, ?_, ?_⟩
  · intro hdrawing
    rw [← hset, ← hset', ← hshown paths h, ← hshown paths' h', hdrawing]
  · intro hprefixes
    rw [drawPaths, drawPaths, ofPaths_eq_of_prefixes paths paths' hprefixes]
  · rw [drawPaths, length_lines_render _ (plain_ofPaths paths h), ← hset,
      List.toFinset_card_of_nodup hnodup]
  · rwa [hshown paths h]
  · rwa [hshown paths h]

/-- A doubled slash, a path given twice, one that is a prefix of another, and another order; a name
with a bar inside it. -/
theorem drawPaths_prefixes_nested :
    let paths := ["src//a│   b/x", "src/a│   b/y", "src/a│   b/x", "src/a│   b"]
    let paths' := ["/src/a│   b/y", "src/a│   b/x/"]
    (∀ p ∈ paths, ∀ n ∈ names p, PlainName n) ∧ (∀ p ∈ paths', ∀ n ∈ names p, PlainName n) ∧
      drawPaths paths = drawPaths paths' ∧
      drawPaths paths = "src\n└── a│   b\n    ├── x\n    └── y" ∧
      (Text.lines (drawPaths paths).toList).length = 4 ∧
      drawPaths ("lib" :: paths) ≠ drawPaths paths' := by
  intro paths paths'
  have hplain : ∀ p ∈ paths, ∀ n ∈ names p, PlainName n := by decide +kernel
  have hplain' : ∀ p ∈ paths', ∀ n ∈ names p, PlainName n := by decide +kernel
  have hmore : ∀ p ∈ "lib" :: paths, ∀ n ∈ names p, PlainName n := by decide +kernel
  obtain ⟨hiff, hlines, _⟩ := drawPaths_prefixes paths paths' hplain hplain'
  refine ⟨hplain, hplain', hiff.mpr (by decide +kernel), by decide +kernel, ?_, ?_⟩
  · rw [hlines]
    decide +kernel
  · intro hdrawing
    have hprefixes := (drawPaths_prefixes ("lib" :: paths) paths' hmore hplain').1.mp hdrawing
    revert hprefixes
    decide +kernel

end Synopsis
