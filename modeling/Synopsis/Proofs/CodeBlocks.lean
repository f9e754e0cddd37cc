import Synopsis.Document.Markdown
import Synopsis.Proofs.Declared
import Synopsis.Proofs.Grammar.Compiling
import Synopsis.Proofs.Text

/-! Code blocks of a Markdown document, as a reader finds them: the block of a file ends at the
first line that looks like a closing one. The texts stand in their block as they are, so such a line
may come from a text. -/
namespace Synopsis.Markdown
open Text

/-! ### Lines that close a block -/

/-- A line of at most three spaces, at least three backticks, and spaces behind them. -/
def ClosesBlock (line : List Char) : Prop :=
  ∃ indent ticks spaces, indent ≤ 3 ∧ 3 ≤ ticks ∧
    line = List.replicate indent ' ' ++
      (List.replicate ticks '\x60' ++ List.replicate spaces ' ')

/-- The same, by counting what is left behind the spaces and behind the backticks. -/
def closesBlock (line : List Char) : Bool :=
  let marks := line.dropWhile (· == ' ')
  let behind := marks.dropWhile (· == '\x60')
  decide (line.length ≤ marks.length + 3) && decide (behind.length + 3 ≤ marks.length) &&
    behind.all (· == ' ')

/-- A text starts with as many copies of a character as are dropped from it. -/
theorem eq_replicate_append_dropWhile (c : Char) (cs : List Char) :
    ∃ n, cs = List.replicate n c ++ cs.dropWhile (· == c) := by
  refine ⟨(cs.takeWhile (· == c)).length, ?_⟩
  have hcopies : cs.takeWhile (· == c) = List.replicate (cs.takeWhile (· == c)).length c := by
    refine List.eq_replicate_iff.mpr ⟨rfl, ?_⟩
    intro d hd
    simpa using List.mem_takeWhile_imp hd
  rw [← hcopies, List.takeWhile_append_dropWhile]

theorem dropWhile_replicate_append (c : Char) (n : Nat) (cs : List Char)
    (h : cs.head? ≠ some c) : (List.replicate n c ++ cs).dropWhile (· == c) = cs := by
  rw [List.dropWhile_append_of_pos (by simp)]
  cases cs with
  | nil => rfl
  | cons d cs =>
    have hd : (d == c) = false := by simpa using h
    rw [List.dropWhile_cons_of_neg (by simp [hd])]

theorem closesBlock_iff (line : List Char) : closesBlock line = true ↔ ClosesBlock line := by
  constructor
  · intro h
    simp only [closesBlock, Bool.and_eq_true, decide_eq_true_eq, List.all_eq_true,
      beq_iff_eq] at h
    obtain ⟨⟨hfew, hmany⟩, hspaces⟩ := h
    -- the line in three parts: the indent, the marks and what stands behind them
    obtain ⟨indent, hindent⟩ := eq_replicate_append_dropWhile ' ' line
    set marks := line.dropWhile (· == ' ')
    obtain ⟨ticks, hticks⟩ := eq_replicate_append_dropWhile '\x60' marks
    set behind := marks.dropWhile (· == '\x60')
    have hline := congrArg List.length hindent
    have hmarks := congrArg List.length hticks
    simp only [List.length_append, List.length_replicate] at hline hmarks
    refine ⟨indent, ticks, behind.length, by omega, by omega, ?_⟩
    rw [← List.eq_replicate_iff.mpr ⟨rfl, hspaces⟩, ← hticks, ← hindent]
  · rintro ⟨indent, ticks, spaces, hindent, hticks, rfl⟩
    have hspaces : (List.replicate spaces ' ').head? ≠ some '\x60' := by
      cases spaces <;> simp [List.replicate_succ]
    have hmarks : (List.replicate ticks '\x60' ++ List.replicate spaces ' ').head? ≠ some ' ' := by
      cases ticks with
      | zero => omega
      | succ ticks => simp [List.replicate_succ]
    simp only [closesBlock, dropWhile_replicate_append ' ' _ _ hmarks,
      dropWhile_replicate_append '\x60' _ _ hspaces]
    simp
    omega

instance : DecidablePred ClosesBlock := fun line => decidable_of_iff _ (closesBlock_iff line)

/-! ### The lines of a text -/

/-- The pieces of a text between line feeds and carriage returns. A pair of both leaves an empty
piece, which closes no block. -/
def pieces (s : String) : List (List Char) := splitWhere (fun c => c == '\n' || c == '\r') s.toList

theorem pieces_feed (s t : String) : pieces (s ++ "\n" ++ t) = pieces s ++ pieces t := by
  have htext : (s ++ "\n" ++ t).toList = s.toList ++ '\n' :: t.toList := by simp
  rw [pieces, htext, splitWhere_append_cons _ _ _ _ rfl]
  rfl

/-- Texts that each end in a line feed keep their lines. -/
theorem pieces_join {α : Type} (text : α → String) (xs : List α) (t : String) :
    pieces (String.join (xs.map fun x => text x ++ "\n") ++ t) =
      xs.flatMap (fun x => pieces (text x)) ++ pieces t := by
  induction xs with
  | nil => simp
  | cons x xs ih =>
    rw [List.map_cons, String.join_cons, String.append_assoc, pieces_feed, ih, List.flatMap_cons,
      List.append_assoc]

/-! ### The block of a file -/

/-- What a reader takes for the contents of the block that the first line opens, and the lines from
the one that closes it. -/
def readBlock (text : String) : List (List Char) × List (List Char) :=
  ((pieces text).drop 1).span fun l => !decide (ClosesBlock l)

/-- The lines that a file has in its block: the rest of the name of its language, should that have
more than one line, and its texts or what stands for them. -/
def innerLines (f : FileReport) : List (List Char) :=
  (pieces f.language).drop 1 ++
    (if f.signatures.isEmpty then [(placeholder f.language).toList] else []) ++
    f.signatures.flatMap fun s => pieces s.text

theorem pieces_placeholder (language : String) :
    pieces (placeholder language) = [(placeholder language).toList] := by
  unfold placeholder
  split_ifs <;> rfl

theorem placeholder_open (language : String) : ¬ ClosesBlock (placeholder language).toList := by
  unfold placeholder
  split_ifs <;> decide

/-- The block of a file is its opening line, the inner lines and the line that closes it. -/
theorem pieces_writeBlock (f : FileReport) (after : String) : ∃ first,
    pieces (writeBlock f ++ after) =
      first :: (innerLines f ++ fence.toList :: pieces ("\n" ++ after)) := by
  obtain ⟨first, more, hlanguage⟩ := List.exists_cons_of_ne_nil
    (splitWhere_ne_nil (fun c => c == '\n' || c == '\r') f.language.toList)
  have hmore : (pieces f.language).drop 1 = more := by
    rw [pieces, hlanguage]
    rfl
  -- the marks before the name of the language hold no line end
  have hopen : pieces (fence ++ f.language) = (fence.toList ++ first) :: more := by
    rw [pieces, String.toList_append]
    simp [fence, splitWhere, hlanguage]
  have hplaceholder (rest : String) :
      pieces ((if f.signatures.isEmpty then placeholder f.language ++ "\n" else "") ++ rest) =
        (if f.signatures.isEmpty then [(placeholder f.language).toList] else []) ++
          pieces rest := by
    split_ifs
    · rw [pieces_feed, pieces_placeholder]
    · simp
  have hfence : pieces (fence ++ "\n\n" ++ after) = fence.toList :: pieces ("\n" ++ after) := by
    have htext : fence ++ "\n\n" ++ after = fence ++ "\n" ++ ("\n" ++ after) :=
      String.toList_injective (by simp)
    rw [htext, pieces_feed]
    rfl
  refine ⟨fence.toList ++ first, ?_⟩
  have htext : writeBlock f ++ after = fence ++ f.language ++ "\n" ++
      ((if f.signatures.isEmpty then placeholder f.language ++ "\n" else "") ++
        (String.join (f.signatures.map fun s => s.text ++ "\n") ++
          (fence ++ "\n\n" ++ after))) := by
    simp only [writeBlock, String.append_assoc]
  rw [htext, pieces_feed, hopen, hplaceholder, pieces_join, hfence, innerLines, hmore]
  simp only [List.cons_append, List.append_assoc]

/-- The text of a document up to the block of a file. -/
def textBefore (d : Document) (earlier : List FileReport) (f : FileReport) : String :=
  "# Brief Output\n\n" ++ writeTree d.tree ++ writeSymbols d ++ "## Files\n\n" ++
    String.join (earlier.map (writeFile d.includeImports)) ++ "### " ++ f.path ++ "\n\n" ++
    if d.includeImports then writeImports f.imports else ""

/-- The text of a document behind the block of a file. -/
def textAfter (d : Document) (f : FileReport) (later : List FileReport) : String :=
  writeDocs f ++ rule ++ String.join (later.map (writeFile d.includeImports))

theorem render_eq (d : Document) (earlier later : List FileReport) (f : FileReport)
    (hfiles : d.files = earlier ++ f :: later) (hok : f.error = none) :
    render d = textBefore d earlier f ++ writeBlock f ++ textAfter d f later := by
  unfold render textBefore textAfter
  simp only [hfiles, List.map_append, List.map_cons, String.join_append, String.join_cons,
    writeFile, writeContents, hok, String.append_assoc]

theorem span_append_stop {α : Type} (p : α → Bool) (xs ys : List α) (y : α) (hy : p y = false) :
    (xs ++ y :: ys).span p = (xs.takeWhile p, xs.dropWhile p ++ y :: ys) := by
  rw [List.span_eq_takeWhile_dropWhile]
  induction xs with
  | nil => simp [hy]
  | cons x xs ih =>
    obtain ⟨htake, hdrop⟩ := Prod.mk.inj ih
    cases hx : p x <;> simp [hx, htake, hdrop]

/-- A reader takes the lines of a file up to the first that closes a block for the contents of its
block, and what is left of them for text behind it. -/
theorem readBlock_writeBlock (f : FileReport) (after : String) :
    readBlock (writeBlock f ++ after) =
      ((innerLines f).takeWhile fun l => !decide (ClosesBlock l),
        ((innerLines f).dropWhile fun l => !decide (ClosesBlock l)) ++
          fence.toList :: pieces ("\n" ++ after)) := by
  have hfence : ClosesBlock fence.toList := by decide
  obtain ⟨first, hpieces⟩ := pieces_writeBlock f after
  rw [readBlock, hpieces, List.drop_one, List.tail_cons, span_append_stop _ _ _ _ (by simpa)]

theorem forall_innerLines (f : FileReport) :
    (∀ l ∈ innerLines f, ¬ ClosesBlock l) ↔
      (∀ l ∈ (pieces f.language).drop 1, ¬ ClosesBlock l) ∧
        ∀ s ∈ f.signatures, ∀ l ∈ pieces s.text, ¬ ClosesBlock l := by
  have hplaceholder :
      ∀ l ∈ (if f.signatures.isEmpty then [(placeholder f.language).toList] else []),
        ¬ ClosesBlock l := by
    intro l hl
    split_ifs at hl
    · rw [List.mem_singleton.mp hl]
      exact placeholder_open f.language
    · cases hl
  simp only [innerLines, List.forall_mem_append, List.mem_flatMap]
  constructor
  · rintro ⟨⟨hlanguage, _⟩, htexts⟩
    exact ⟨hlanguage, fun s hs l hl => htexts l ⟨s, hs, hl⟩⟩
  · rintro ⟨hlanguage, htexts⟩
    exact ⟨⟨hlanguage, hplaceholder⟩, fun l ⟨s, hs, hl⟩ => htexts s hs l hl⟩

/-- The block of a file ends at the line that is written to close it exactly if no line of a text
closes it before, nor one of a language whose name has more than one line. -/
theorem block_closed_iff (d : Document) (earlier later : List FileReport) (f : FileReport)
    (hfiles : d.files = earlier ++ f :: later) (hok : f.error = none) :
    render d = textBefore d earlier f ++ writeBlock f ++ textAfter d f later ∧
      (readBlock (writeBlock f ++ textAfter d f later) =
          (innerLines f, fence.toList :: pieces ("\n" ++ textAfter d f later)) ↔
        (∀ l ∈ (pieces f.language).drop 1, ¬ ClosesBlock l) ∧
          ∀ s ∈ f.signatures, ∀ l ∈ pieces s.text, ¬ ClosesBlock l) := by
  refine ⟨render_eq d earlier later f hfiles hok, ?_⟩
  rw [readBlock_writeBlock, ← forall_innerLines]
  constructor
  · intro hread l hl
    have hkept := List.takeWhile_eq_self_iff.mp (Prod.mk.inj hread).1 l hl
    simpa using hkept
  · intro hopen
    have hkept : ∀ l ∈ innerLines f, (!decide (ClosesBlock l)) = true := by simpa using hopen
    rw [List.takeWhile_eq_self_iff.mpr hkept, List.dropWhile_eq_nil_iff.mpr hkept,
      List.nil_append]

/-- A constant with a line that starts like a closing one. -/
def rawText : FileReport where
  path := "raw.go"
  language := "go"
  signatures := [{ name := "Raw", kind := .variable_, text := "const Raw = `\n``` + 1`", doc := "",
                   line := 1, endLine := 2, language := "go", exported := true }]

/-- The second file of a document, with a line of backticks and more that closes nothing. -/
theorem block_closed_raw :
    let broken : FileReport := { path := "a.go", language := "go", error := some "denied" }
    let d : Document := { files := [broken, rawText] }
    d.files = [broken] ++ rawText :: [] ∧ rawText.error = none ∧
      render d = textBefore d [broken] rawText ++ writeBlock rawText ++ textAfter d rawText [] ∧
      readBlock (writeBlock rawText ++ textAfter d rawText []) =
        (innerLines rawText, fence.toList :: pieces ("\n" ++ textAfter d rawText [])) := by
  intro broken d
  obtain ⟨hrender, hclosed⟩ := block_closed_iff d [broken] [] rawText rfl rfl
  refine ⟨rfl, rfl, hrender, hclosed.mpr ⟨by decide +kernel, by decide +kernel⟩⟩

/-- A string with a line of backticks. -/
def fencedString : String := "X = \"\"\"\n```\n\"\"\""

/-- The tree of `fencedString`. -/
def fencedTree : Tree.Node :=
  ⟨"module", true, "", 0, 15, 0, 2, [
    ⟨"expression_statement", true, "", 0, 15, 0, 2, [
      ⟨"assignment", true, "", 0, 15, 0, 2, [
        .flat "identifier" "left" 0 1 0 [],
        .mark "=" 2 0,
        ⟨"string", true, "right", 4, 15, 0, 2, [
          .flat "string_start" "" 4 7 0 [],
          ⟨"string_content", true, "", 7, 12, 0, 2, []⟩,
          .flat "string_end" "" 12 15 2 []]⟩]⟩]⟩]⟩

set_option maxRecDepth 30000 in
/-- The text of a variable is shown whole, and closes the block of its file at its second line. -/
theorem string_closes_block :
    ∃ c e g, (Profile.python (Grammar.parserOf fencedString fencedTree)).compile "python" = .ok c ∧
      c.extract "python" fencedString {} = .ok e ∧ e.signatures = [g] ∧
      let f : FileReport := { path := "a.py", language := "python", signatures := [g] }
      let d : Document := { files := [f] }
      render d = textBefore d [] f ++ writeBlock f ++ textAfter d f [] ∧
        innerLines f = ["X = \"\"\"".toList, "```".toList, "\"\"\"".toList] ∧
        (readBlock (writeBlock f ++ textAfter d f [])).1 = ["X = \"\"\"".toList] := by
  obtain ⟨c, hc, _, hroot, htest⟩ := Grammar.exists_compiled
    (Profile.python (Grammar.parserOf fencedString fencedTree)) _ _ rfl "python" _ _ rfl rfl
    (fun c => (c.extractFrom "python" (.ofString fencedString) fencedTree {}).signatures.map
      (·.text) == [fencedString]) (by decide +kernel)
  obtain ⟨g, hsignatures, htext⟩ := List.map_eq_singleton_iff.mp (eq_of_beq htest)
  refine ⟨c, _, g, hc, extract_of_tree c "python" _ {} fencedString hroot, hsignatures, ?_⟩
  intro f d
  have hinner : innerLines f = ["X = \"\"\"".toList, "```".toList, "\"\"\"".toList] := by
    have htag : (pieces "python").drop 1 = [] := by decide
    have hpieces : pieces fencedString =
        ["X = \"\"\"".toList, "```".toList, "\"\"\"".toList] := by decide
    simp [innerLines, f, htag, htext, hpieces]
  refine ⟨render_eq d [] [] f rfl rfl, hinner, ?_⟩
  rw [readBlock_writeBlock, hinner]
  dsimp only
  decide

end Synopsis.Markdown
