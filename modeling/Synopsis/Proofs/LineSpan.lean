import Mathlib.Data.List.DropRight
import Synopsis.Proofs.Declared
import Synopsis.Proofs.Grammar.Compiling

/-! The lines of a signature. They are those of its node, and the text is trimmed; so the two agree
exactly if the node neither starts nor ends with a line feed among blanks. A node that takes in the
end of its line does, as a directive. -/
open Synopsis.Tree

namespace Synopsis

/-! ### What trimming takes -/

namespace Text

/-- The blanks that trimming takes from the two ends. -/
def lead (cs : List Char) : List Char := cs.takeWhile isBlank

def trail (cs : List Char) : List Char := (trimStart cs).rtakeWhile isBlank

theorem lead_trim_trail (cs : List Char) : lead cs ++ trim cs ++ trail cs = cs := by
  have hend : trim cs ++ trail cs = trimStart cs := List.rdropWhile_append_rtakeWhile
  rw [List.append_assoc, hend]
  exact List.takeWhile_append_dropWhile

theorem isBlank_of_mem_trail (cs : List Char) (c : Char) (hc : c ∈ trail cs) :
    isBlank c = true := List.mem_rtakeWhile_imp hc

end Text

/-! ### Nodes in their source -/

/-- A node that lies inside the source, with its rows. -/
structure Inside (source : String) (n : Node) : Prop where
  le : n.start ≤ n.stop
  bound : n.stop ≤ source.toList.length
  row : n.row = (source.toList.take n.start).count '\n'
  endRow : n.endRow = (source.toList.take n.stop).count '\n'

/-- A node that neither starts nor ends with a blank. -/
structure Edged (source : String) (n : Node) : Prop where
  first : (n.text (.ofString source)).toList.head?.any Text.isBlank = false
  last : (n.text (.ofString source)).toList.getLast?.any Text.isBlank = false

instance (source : String) (n : Node) : Decidable (Inside source n) :=
  decidable_of_iff (n.start ≤ n.stop ∧ n.stop ≤ source.toList.length ∧
    n.row = (source.toList.take n.start).count '\n' ∧
    n.endRow = (source.toList.take n.stop).count '\n')
    ⟨fun ⟨hle, hbound, hrow, hend⟩ => ⟨hle, hbound, hrow, hend⟩,
      fun h => ⟨h.le, h.bound, h.row, h.endRow⟩⟩

instance (source : String) (n : Node) : Decidable (Edged source n) :=
  decidable_of_iff ((n.text (.ofString source)).toList.head?.any Text.isBlank = false ∧
    (n.text (.ofString source)).toList.getLast?.any Text.isBlank = false)
    ⟨fun ⟨hfirst, hlast⟩ => ⟨hfirst, hlast⟩, fun h => ⟨h.first, h.last⟩⟩

theorem Inside.of_sited (source : String) (n : Node) (hsited : Sited (.ofString source) n)
    (hle : n.start ≤ n.stop) (hbound : n.stop ≤ source.toList.length) : Inside source n := by
  obtain ⟨_, hrow, hend, _, _⟩ := hsited
  rw [row_ofString source _ (hle.trans hbound)] at hrow
  rw [row_ofString source _ hbound] at hend
  exact ⟨hle, hbound, hrow, hend⟩

theorem take_append_text (source : String) (n : Node) (hin : Inside source n) :
    source.toList.take n.start ++ (n.text (.ofString source)).toList =
      source.toList.take n.stop := by
  have htext : (n.text (.ofString source)).toList = (source.toList.take n.stop).drop n.start := by
    simp [Node.text, Source.slice, Source.ofString, List.drop_take]
  calc source.toList.take n.start ++ (n.text (.ofString source)).toList
      = (source.toList.take n.stop).take n.start ++ (source.toList.take n.stop).drop n.start := by
        rw [htext, List.take_take, min_eq_left hin.le]
    _ = source.toList.take n.stop := List.take_append_drop _ _

/-! ### The lines of a signature -/

/-- The blanks that trimming takes from the text of a node. -/
def edgeBlanks (source : String) (n : Node) : List Char :=
  let cs := (n.text (.ofString source)).toList
  Text.lead cs ++ Text.trail cs

/-- The text of a signature stands in the source on the lines that the signature names, and on no
others. -/
def Occupies (source : String) (g : Signature) : Prop :=
  ∃ before after, source.toList = before ++ g.text.toList ++ after ∧
    g.line = before.count '\n' + 1 ∧ g.endLine = (before ++ g.text.toList).count '\n' + 1

section Lines
variable (source : String) (g : Signature) (n : Node) (hin : Inside source n)
  (hspans : Spans (.ofString source) g n)
include hin hspans

/-- The text up to the end of a node: what stands before it, and its own with its blanks. -/
theorem take_stop_eq :
    let cs := (n.text (.ofString source)).toList
    source.toList.take n.stop =
      source.toList.take n.start ++ (Text.lead cs ++ g.text.toList ++ Text.trail cs) := by
  intro cs
  rw [hspans.text, Text.lead_trim_trail, take_append_text source n hin]

/-- A signature ends as many lines below its start as its node has line feeds. -/
theorem endLine_eq :
    g.endLine = g.line + g.text.toList.count '\n' + (edgeBlanks source n).count '\n' := by
  rw [hspans.line, hspans.endLine, hin.row, hin.endRow, take_stop_eq source g n hin hspans]
  simp only [edgeBlanks, List.count_append]
  omega

theorem endLine_eq_iff :
    g.endLine = g.line + g.text.toList.count '\n' ↔ '\n' ∉ edgeBlanks source n := by
  rw [endLine_eq source g n hin hspans, ← List.count_eq_zero]
  omega

theorem occupies_of_not_mem (hfeed : '\n' ∉ edgeBlanks source n) : Occupies source g := by
  have htake := take_stop_eq source g n hin hspans
  dsimp only at htake
  obtain ⟨hlead, htrail⟩ : '\n' ∉ Text.lead (n.text (.ofString source)).toList ∧
      '\n' ∉ Text.trail (n.text (.ofString source)).toList := by
    simpa [edgeBlanks] using hfeed
  -- the text stands between the two rows of blanks, and these do not move its lines
  generalize Text.lead (n.text (.ofString source)).toList = lead at htake hlead
  generalize Text.trail (n.text (.ofString source)).toList = trail at htake htrail
  refine ⟨source.toList.take n.start ++ lead, trail ++ source.toList.drop n.stop, ?_, ?_, ?_⟩
  · calc source.toList
        = source.toList.take n.stop ++ source.toList.drop n.stop :=
          (List.take_append_drop _ _).symm
      _ = _ := by
          rw [htake]
          simp only [List.append_assoc]
  · rw [hspans.line, hin.row, List.count_append, List.count_eq_zero.mpr hlead, Nat.add_zero]
  · rw [hspans.endLine, hin.endRow, htake]
    simp only [List.count_append, List.count_eq_zero.mpr htrail, Nat.add_zero, Nat.add_assoc]

end Lines

theorem edgeBlanks_of_edged (source : String) (n : Node) (h : Edged source n) :
    edgeBlanks source n = [] := by
  obtain ⟨hfirst, hlast⟩ := h
  unfold edgeBlanks
  generalize (n.text (.ofString source)).toList = cs at hfirst hlast
  -- nothing is taken from the start, so that the end is looked for in the whole text
  obtain ⟨hlead, hstart⟩ : Text.lead cs = [] ∧ Text.trimStart cs = cs := by
    cases cs with
    | nil => exact ⟨rfl, rfl⟩
    | cons c cs =>
      have hc : Text.isBlank c = false := hfirst
      simp [Text.lead, Text.trimStart, hc]
  have hend : Text.trail cs = [] := by
    rw [Text.trail, hstart]
    refine List.rtakeWhile_eq_nil_iff.mpr fun hne => ?_
    rw [List.getLast?_eq_some_getLast hne] at hlast
    simpa using hlast
  simp [hlead, hend]

/-- Let the query of a language be lawful, and let a source have a tree whose nodes lie inside it
and, but for some kinds, neither start nor end with a blank. Then a signature with its body ends as
many lines below its start as its text has line feeds exactly if trimming takes no line feed from
its node; the text then stands on the lines of the signature and on no others. This goes for all
nodes of other kinds. -/
theorem line_span (c : Compiled) (hquery : c.query.Lawful) (tag source : String) (root : Node)
    (hroot : c.profile.parser.tree source = .ok root)
    (hinside : ∀ p : Place, p.In root → Inside source p.node) (ragged : List String)
    (hedges : ∀ p : Place, p.In root → p.node.kind ∉ ragged → Edged source p.node)
    (o : Options) (ho : o.includeBody = true) :
    ∃ e, c.extract tag source o = .ok e ∧ ∀ g ∈ e.signatures,
      (∃ d, DeclaredAt c tag (.ofString source) root o g d) ∧
      ∀ d, DeclaredAt c tag (.ofString source) root o g d →
        (g.endLine = g.line + g.text.toList.count '\n' ↔ '\n' ∉ edgeBlanks source d.node) ∧
        ('\n' ∉ edgeBlanks source d.node → Occupies source g) ∧
        (d.node.kind ∉ ragged →
          g.endLine = g.line + g.text.toList.count '\n' ∧ Occupies source g) := by
  refine ⟨_, extract_of_tree c tag root o source hroot, fun g hg => ?_⟩
  refine ⟨exists_declaredAt c tag _ root o g hg, fun d hd => ?_⟩
  have hin := hinside d (hd.inTree hquery)
  have hspans := hd.spans ho
  have hiff := endLine_eq_iff source g d.node hin hspans
  have hoccupies := occupies_of_not_mem source g d.node hin hspans
  refine ⟨hiff, hoccupies, fun hkind => ?_⟩
  have hfeed : '\n' ∉ edgeBlanks source d.node := by
    simp [edgeBlanks_of_edged source d.node (hedges d (hd.inTree hquery) hkind)]
  exact ⟨hiff.mpr hfeed, hoccupies hfeed⟩

/-! ### A function and a directive -/

/-- A signature whose text has some line feeds, and which ends some lines below its start. -/
def Compiled.spans (tag source : String) (root : Node) (feeds rows : Nat) (c : Compiled) : Bool :=
  (c.extractFrom tag (.ofString source) root { includeBody := true }).signatures.any fun g =>
    g.text.toList.count '\n' == feeds && g.endLine == g.line + rows

theorem exists_spans (c : Compiled) (tag source : String) (root : Node) (feeds rows : Nat)
    (h : c.spans tag source root feeds rows = true) :
    ∃ g ∈ (c.extractFrom tag (.ofString source) root { includeBody := true }).signatures,
      g.text.toList.count '\n' = feeds ∧ g.endLine = g.line + rows := by
  obtain ⟨g, hg, h⟩ := List.any_eq_true.mp h
  simp only [Bool.and_eq_true, beq_iff_eq] at h
  exact ⟨g, hg, h⟩

def functionSource : String := "func F() \x7b\n\x7d\n"

/-- The tree of `functionSource`. -/
def functionTree : Node :=
  ⟨"source_file", true, "", 0, 13, 0, 2, [
    ⟨"function_declaration", true, "", 0, 12, 0, 1, [
      .mark "func" 0 0,
      .flat "identifier" "name" 5 6 0 [],
      .flat "parameter_list" "parameters" 6 8 0 [.mark "(" 6 0, .mark ")" 7 0],
      ⟨"block", true, "body", 9, 12, 0, 1, [.mark "\x7b" 9 0, .mark "\x7d" 11 1]⟩]⟩]⟩

set_option maxRecDepth 30000 in
theorem line_span_function :
    ∃ c e g d, (Profile.go (Grammar.parserOf functionSource functionTree)).compile "go" = .ok c ∧
      c.extract "go" functionSource { includeBody := true } = .ok e ∧ g ∈ e.signatures ∧
      DeclaredAt c "go" (.ofString functionSource) functionTree { includeBody := true } g d ∧
      g.endLine = g.line + 1 ∧ '\n' ∉ edgeBlanks functionSource d.node ∧
      Occupies functionSource g := by
  obtain ⟨c, hc, hquery, hroot, hspans⟩ := Grammar.exists_compiled
    (Profile.go (Grammar.parserOf functionSource functionTree)) _ _ rfl "go" _ _ rfl rfl
    (Compiled.spans "go" functionSource functionTree 1 1) (by decide +kernel)
  obtain ⟨g, hg, hfeeds, hrows⟩ := exists_spans c _ _ _ _ _ hspans
  have hinside : ∀ p : Place, p.In functionTree → Inside functionSource p.node :=
    fun p hp => hp.all (Inside functionSource) (by decide +kernel)
  -- the file ends with its last line feed; all else in it has solid edges
  have hedges : ∀ p : Place, p.In functionTree → p.node.kind ∉ ["source_file"] →
      Edged functionSource p.node := by
    intro p hp
    exact hp.all (fun n => n.kind ∉ ["source_file"] → Edged functionSource n)
      (by decide +kernel)
  obtain ⟨e, he, hall⟩ := line_span c hquery "go" functionSource functionTree hroot hinside _ hedges
    { includeBody := true } rfl
  obtain rfl := Except.ok.inj (he.symm.trans (extract_of_tree c "go" _ _ functionSource hroot))
  obtain ⟨⟨d, hd⟩, hspan⟩ := hall g hg
  obtain ⟨hiff, hoccupies, _⟩ := hspan d hd
  have hfeed : '\n' ∉ edgeBlanks functionSource d.node := hiff.mp (by rw [hfeeds, hrows])
  exact ⟨c, _, g, d, hc, he, hg, hd, hrows, hfeed, hoccupies hfeed⟩

def macroSource : String := "#define N 4\n"

/-- The tree of `macroSource`. The directive takes in the end of its line. -/
def macroTree : Node :=
  ⟨"translation_unit", true, "", 0, 12, 0, 1, [
    ⟨"preproc_def", true, "", 0, 12, 0, 1, [
      .mark "#define" 0 0,
      .flat "identifier" "name" 8 9 0 [],
      .flat "preproc_arg" "value" 10 11 0 []]⟩]⟩

set_option maxRecDepth 30000 in
/-- A directive ends on the line below its text. -/
theorem macro_ends_below :
    (∀ p : Place, p.In macroTree → Inside macroSource p.node) ∧
    ∃ c e g, (Profile.c (Grammar.parserOf macroSource macroTree)).compile "c" = .ok c ∧
      c.extract "c" macroSource { includeBody := true } = .ok e ∧ g ∈ e.signatures ∧
      g.endLine = g.line + 1 ∧ g.endLine ≠ g.line + g.text.toList.count '\n' := by
  refine ⟨fun p hp => hp.all (Inside macroSource) (by decide +kernel), ?_⟩
  obtain ⟨c, hc, _, hroot, hspans⟩ := Grammar.exists_compiled
    (Profile.c (Grammar.parserOf macroSource macroTree)) _ _ rfl "c" _ _ rfl rfl
    (Compiled.spans "c" macroSource macroTree 0 1) (by decide +kernel)
  obtain ⟨g, hg, hfeeds, hrows⟩ := exists_spans c _ _ _ _ _ hspans
  have hextract := extract_of_tree c "c" _ { includeBody := true } macroSource hroot
  exact ⟨c, _, g, hc, hextract, hg, hrows, by omega⟩

end Synopsis
