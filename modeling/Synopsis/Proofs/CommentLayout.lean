import Synopsis.Comment
import Synopsis.Proofs.Text

/-! Comments in the usual layouts. A text is laid out as a block with a star before each line, or
as one line behind a marker; cleaning the comment gives back the text, even where the text itself
looks like a marker. -/
namespace Synopsis.Comment
open Text

/-! ### Trimmed texts -/

theorem trim_eq_self_iff (m : List Char) :
    trim m = m ↔ (∀ c ∈ m.head?, isBlank c = false) ∧ ∀ c ∈ m.getLast?, isBlank c = false := by
  have hstart : trimStart m = m ↔ ∀ c ∈ m.head?, isBlank c = false := by
    cases m <;> simp [trimStart]
  have hend : trimEnd m = m ↔ ∀ c ∈ m.getLast?, isBlank c = false := by
    rcases List.eq_nil_or_concat m with rfl | ⟨m, c, rfl⟩
    · simp [trimEnd, dropEndWhile]
    · simp [trimEnd, dropEndWhile]
  rw [← hstart, ← hend]
  constructor
  · intro h
    have hleft : trimStart m = m := by
      rw [← h]
      exact trimStart_trim m
    rw [trim, hleft] at h
    exact ⟨hleft, h⟩
  · rintro ⟨hleft, hright⟩
    rw [trim, hleft, hright]

/-- Blanks around a trimmed text are what trimming takes away. -/
theorem trim_blanks (as m bs : List Char) (has : ∀ c ∈ as, isBlank c = true)
    (hbs : ∀ c ∈ bs, isBlank c = true) (hm : trim m = m) : trim (as ++ m ++ bs) = m := by
  obtain ⟨hhead, hlast⟩ := (trim_eq_self_iff m).mp hm
  rw [trim, trimStart, List.append_assoc, List.dropWhile_append_of_pos has]
  cases m with
  | nil =>
    have hnone : bs.dropWhile isBlank = [] := List.dropWhile_eq_nil_iff.mpr hbs
    rw [List.nil_append, hnone]
    rfl
  | cons c m =>
    have hend : trimEnd (c :: m ++ bs) = trimEnd (c :: m) := by
      rw [trimEnd, dropEndWhile, List.reverse_append,
        List.dropWhile_append_of_pos fun d hd => hbs d (List.mem_reverse.mp hd)]
      rfl
    rw [trim, trimStart_cons c m (hhead c rfl)] at hm
    rw [List.cons_append, List.dropWhile_cons_of_neg (by simp [hhead c rfl]), ← List.cons_append,
      hend, hm]

/-! ### Lines of a block -/

/-- The last piece of a text counts as a line only if it is not empty. -/
theorem linesAux_concat (ps : List (List Char)) (last : List Char) :
    linesAux (ps ++ [last]) = ps.map dropReturn ++ if last.isEmpty then [] else [last] := by
  induction ps with
  | nil => rfl
  | cons p ps ih =>
    obtain ⟨q, qs, hrest⟩ := List.exists_cons_of_ne_nil (List.append_ne_nil_of_right_ne_nil ps
      (List.cons_ne_nil last []))
    rw [List.cons_append, hrest, linesAux, ← hrest, ih]
    rfl

theorem dropReturn_eq_self (l : List Char) (h : l.getLast? ≠ some '\r') : dropReturn l = l := by
  rcases List.eq_nil_or_concat l with rfl | ⟨l, c, rfl⟩
  · rfl
  · have hc : c ≠ '\r' := by simpa using h
    unfold dropReturn
    rw [List.concat_eq_append, List.reverse_concat]
    split
    next heq =>
      cases heq
      exact absurd rfl hc
    next => rfl

/-- A line of a block: a star at the indentation, a blank and the text. -/
def starredLine (indent l : List Char) : List Char := indent ++ ('*' :: ' ' :: l)

theorem bareLine_starredLine (indent l : List Char) (hindent : ∀ c ∈ indent, isBlank c = true)
    (hl : trim l = l) : bareLine (starredLine indent l) = l := by
  obtain ⟨hhead, hlast⟩ := (trim_eq_self_iff l).mp hl
  have htext : trimStart (' ' :: l) = l := by
    rw [trimStart, List.dropWhile_cons_of_pos rfl, ← hl]
    exact trimStart_trim l
  cases l with
  | nil =>
    -- without a text the blank behind the star is trimmed too
    have htrim := trim_blanks indent ['*'] [' '] hindent (by simp; rfl) (by decide)
    rw [bareLine, starredLine, show '*' :: ' ' :: [] = ['*'] ++ [' '] from rfl, ← List.append_assoc,
      htrim]
    rfl
  | cons c l =>
    have hstar : trim ('*' :: ' ' :: c :: l) = '*' :: ' ' :: c :: l := by
      rw [trim_eq_self_iff]
      refine ⟨?_, ?_⟩
      · intro d hd
        cases hd
        rfl
      · simpa using hlast
    have htrim := trim_blanks indent ('*' :: ' ' :: c :: l) [] hindent (by simp) hstar
    rw [List.append_nil] at htrim
    rw [bareLine, starredLine, htrim]
    exact htext

/-- The lines of a block without its markers. -/
theorem lines_starred (indent : List Char) (ls : List (List Char)) (hindent : '\n' ∉ indent)
    (hls : ∀ l ∈ ls, '\n' ∉ l ∧ trim l = l) :
    lines ('\n' :: (ls.flatMap (fun l => starredLine indent l ++ ['\n']) ++ indent)) =
      [] :: (ls.map (starredLine indent) ++ if indent.isEmpty then [] else [indent]) := by
  have hone (w : List Char) (hw : '\n' ∉ w) : splitWhere (· == '\n') w = [w] := by
    apply splitWhere_unbroken
    intro c hc
    rw [beq_eq_false_iff_ne]
    rintro rfl
    exact hw hc
  have hpieces : splitWhere (· == '\n')
      (ls.flatMap (fun l => starredLine indent l ++ ['\n']) ++ indent) =
        ls.map (starredLine indent) ++ [indent] := by
    induction ls with
    | nil => exact hone indent hindent
    | cons l ls ih =>
      have hl : '\n' ∉ starredLine indent l := by
        simpa [starredLine, hindent] using (hls l List.mem_cons_self).1
      rw [List.flatMap_cons, List.append_assoc, List.append_assoc, List.singleton_append,
        splitWhere_append_cons _ _ _ _ (by simp), hone _ hl,
        ih fun m hm => hls m (List.mem_cons_of_mem l hm)]
      rfl
  have hkept : (ls.map (starredLine indent)).map dropReturn = ls.map (starredLine indent) := by
    rw [List.map_map]
    refine List.map_congr_left fun l hl => dropReturn_eq_self _ ?_
    -- a line ends in its text, or in the blank behind the star
    have hlast := ((trim_eq_self_iff l).mp (hls l hl).2).2
    have hend : (starredLine indent l).getLast? = some (l.getLast?.getD ' ') := by
      simp [starredLine, List.getLast?_append, List.getLast?_cons]
    rw [hend]
    cases h : l.getLast? with
    | none => simp
    | some c =>
      rintro hc
      cases hc
      exact absurd (hlast _ h) (by decide)
  rw [lines, splitWhere, if_pos (by simp), hpieces, ← List.cons_append, linesAux_concat,
    List.map_cons, hkept]
  rfl

theorem joinLines_eq (ls : List (List Char)) : joinLines ls = ['\n'].intercalate ls := by
  induction ls with
  | nil => rfl
  | cons l ls ih =>
    cases ls with
    | nil => simp [joinLines]
    | cons m ls => simp [joinLines, ih]

theorem joinLines_cons (l : List Char) (ls : List (List Char)) (hne : ls ≠ []) :
    joinLines (l :: ls) = l ++ '\n' :: joinLines ls := by
  obtain ⟨m, ms, rfl⟩ := List.exists_cons_of_ne_nil hne
  rfl

/-- An empty line at the end adds a line feed. -/
theorem joinLines_concat_nil (ls : List (List Char)) (hne : ls ≠ []) :
    joinLines (ls ++ [[]]) = joinLines ls ++ ['\n'] := by
  induction ls with
  | nil => exact absurd rfl hne
  | cons l ls ih =>
    cases ls with
    | nil => rfl
    | cons m ls =>
      have hrest := ih (List.cons_ne_nil m ls)
      rw [List.cons_append, joinLines_cons l (m :: ls ++ [[]]) (by simp), hrest,
        joinLines_cons l (m :: ls) (by simp), List.append_assoc]
      rfl

theorem getLast?_joinLines (ls : List (List Char)) (l : List Char) (hl : l ≠ [])
    (hlast : ls.getLast? = some l) : (joinLines ls).getLast? = l.getLast? := by
  induction ls with
  | nil => cases hlast
  | cons m ls ih =>
    cases ls with
    | nil =>
      cases hlast
      rfl
    | cons m' ls =>
      have hrest := ih (by simpa using hlast)
      rw [joinLines_cons m (m' :: ls) (by simp), List.getLast?_append, List.getLast?_cons, hrest,
        List.getLast?_eq_some_getLast hl]
      simp

/-- Lines of which the first and the last say something are trimmed together if each is. -/
theorem trim_joinLines (ls : List (List Char)) (h : ∀ l ∈ ls, trim l = l)
    (hfirst : ls.head? ≠ some []) (hlast : ls.getLast? ≠ some []) :
    trim (joinLines ls) = joinLines ls := by
  cases ls with
  | nil => rfl
  | cons l ls =>
    have hl : l ≠ [] := by simpa using hfirst
    -- the text starts as its first line does, and ends as its last one
    have hhead : (joinLines (l :: ls)).head? = l.head? := by
      cases ls with
      | nil => rfl
      | cons m ls =>
        obtain ⟨c, l, rfl⟩ := List.exists_cons_of_ne_nil hl
        rfl
    have he := List.getLast?_eq_some_getLast (List.cons_ne_nil l ls)
    generalize (l :: ls).getLast (List.cons_ne_nil l ls) = e at he
    have hend : e ≠ [] := by
      rintro rfl
      exact hlast he
    have hinner := (trim_eq_self_iff l).mp (h l List.mem_cons_self)
    have hinner' := (trim_eq_self_iff e).mp (h e (List.mem_of_getLast? he))
    rw [trim_eq_self_iff, hhead, getLast?_joinLines _ e hend he]
    exact ⟨hinner.1, hinner'.2⟩

/-! ### Layouts -/

/-- A text as a block comment: its lines one below the other, each behind a star. -/
def starredBlock (indent : String) (ls : List String) : String :=
  "/**\n" ++ String.join (ls.map fun l => indent ++ "* " ++ l ++ "\n") ++ indent ++ "*/"

/-- Lines of a text: each is one line without blanks around it, and the first and the last are not
empty. -/
structure Paragraph (ls : List String) : Prop where
  ne_nil : ls ≠ []
  one_line : ∀ l ∈ ls, '\n' ∉ l.toList
  trimmed : ∀ l ∈ ls, Text.trimmed l = l
  first : ls.head? ≠ some ""
  last : ls.getLast? ≠ some ""

theorem toList_starredBlock (indent : String) (ls : List String) :
    (starredBlock indent ls).toList = "/*".toList ++ ('*' :: '\n' ::
      ((ls.map String.toList).flatMap (fun l => starredLine indent.toList l ++ ['\n']) ++
        indent.toList)) ++ "*/".toList := by
  have hlines : (String.join (ls.map fun l => indent ++ "* " ++ l ++ "\n")).toList =
      (ls.map String.toList).flatMap fun l => starredLine indent.toList l ++ ['\n'] := by
    induction ls with
    | nil => simp
    | cons l ls ih =>
      rw [List.map_cons, String.join_cons, String.toList_append, ih]
      simp [starredLine]
  simp [starredBlock, hlines]

theorem clean_block (body : List Char) :
    clean ("/*".toList ++ body ++ "*/".toList) =
      trim (joinLines ((lines (body.dropWhile fun c => c == '*' || c == '!')).map bareLine)) := by
  have htrim : trim ("/*".toList ++ body ++ "*/".toList) = '/' :: '*' :: (body ++ "*/".toList) := by
    have hmarks := (trim_eq_self_iff ("/*".toList ++ body ++ "*/".toList)).mpr
      ⟨by simp; rfl, by simp [List.getLast?_cons]; rfl⟩
    rw [hmarks]
    simp
  have hmark : ['/', '*'].isPrefixOf (body ++ "*/".toList).reverse = true := by simp
  have hbody : (body ++ "*/".toList).take ((body ++ "*/".toList).length - 2) = body := by simp
  simp only [clean, htrim, blockBody, hmark, hbody, ↓reduceIte]

/-- A comment of one line behind a marker that is no blank. -/
theorem trim_marked (mark : Char) (marks : List Char) (l : List Char) (hmark : isBlank mark = false)
    (hne : l ≠ []) (hl : trim l = l) :
    trim (mark :: (marks ++ ' ' :: l)) = mark :: (marks ++ ' ' :: l) := by
  obtain ⟨_, hlast⟩ := (trim_eq_self_iff l).mp hl
  rw [trim_eq_self_iff]
  refine ⟨by simpa using hmark, ?_⟩
  have hend : (mark :: (marks ++ ' ' :: l)).getLast? = l.getLast? := by
    simp [List.getLast?_cons, List.getLast?_append, List.getLast?_eq_some_getLast hne]
  rw [hend]
  exact hlast

theorem clean_starred (indent : List Char) (ls : List (List Char)) (hne : ls ≠ [])
    (hindent : ∀ c ∈ indent, isBlank c = true ∧ c ≠ '\n')
    (hls : ∀ l ∈ ls, '\n' ∉ l ∧ trim l = l) (hfirst : ls.head? ≠ some [])
    (hlast : ls.getLast? ≠ some []) :
    clean ("/*".toList ++ ('*' :: '\n' ::
      (ls.flatMap (fun l => starredLine indent l ++ ['\n']) ++ indent)) ++ "*/".toList) =
        ['\n'].intercalate ls := by
  have hblank : ∀ c ∈ indent, isBlank c = true := fun c hc => (hindent c hc).1
  have hfeed : '\n' ∉ indent := fun hc => (hindent _ hc).2 rfl
  have hbare : (ls.map (starredLine indent)).map bareLine = ls := by
    rw [List.map_map]
    conv_rhs => rw [← List.map_id ls]
    exact List.map_congr_left fun l hl => bareLine_starredLine indent l hblank (hls l hl).2
  have hrest : bareLine indent = [] := by
    have htrim := trim_blanks indent [] [] hblank (by simp) rfl
    rw [List.append_nil, List.append_nil] at htrim
    rw [bareLine, htrim]
  have htext := trim_joinLines ls (fun l hl => (hls l hl).2) hfirst hlast
  rw [clean_block, List.dropWhile_cons_of_pos rfl, List.dropWhile_cons_of_neg (by decide),
    lines_starred indent ls hfeed hls, List.map_cons, List.map_append, hbare, ← joinLines_eq]
  have hblankFeed : ∀ c ∈ ['\n'], isBlank c = true := List.forall_mem_singleton.mpr rfl
  -- the line of the closing marker is there only if that is indented
  split_ifs with hempty
  · have htrim := trim_blanks ['\n'] (joinLines ls) [] hblankFeed (by simp) htext
    rw [List.map_nil, List.append_nil, joinLines_cons _ _ hne]
    simpa [bareLine, trim, trimStart, trimEnd, dropEndWhile] using htrim
  · have htrim := trim_blanks ['\n'] (joinLines ls) ['\n'] hblankFeed hblankFeed htext
    rw [List.map_singleton, hrest, joinLines_cons _ _ (by simp), joinLines_concat_nil ls hne]
    simpa [bareLine, trim, trimStart, trimEnd, dropEndWhile] using htrim

/-- Cleaning a paragraph laid out as a block, or a text of one line behind a marker, gives back the
text. -/
theorem cleaned_layouts (indent : String) (ls : List String) (l : String)
    (hindent : ∀ c ∈ indent.toList, isBlank c = true ∧ c ≠ '\n') (hls : Paragraph ls)
    (hne : l ≠ "") (hl : trimmed l = l) :
    cleaned (starredBlock indent ls) = "\n".intercalate ls ∧
      cleaned ("// " ++ l) = l ∧ cleaned ("/// " ++ l) = l ∧ cleaned ("# " ++ l) = l := by
  have htrimmed (m : String) (hm : trimmed m = m) : trim m.toList = m.toList := by
    have h := congrArg String.toList hm
    rwa [trimmed, String.toList_ofList] at h
  have hne' : l.toList ≠ [] := by simpa using hne
  have hl' := htrimmed l hl
  have htext : trim (' ' :: l.toList) = l.toList := by
    have htrim := trim_blanks [' '] l.toList [] (List.forall_mem_singleton.mpr rfl) (by simp) hl'
    simpa using htrim
  refine ⟨?_, ?_, ?_, ?_⟩
  · apply String.toList_injective
    have hlines : ∀ m ∈ ls.map String.toList, '\n' ∉ m ∧ trim m = m := by
      intro m hm
      obtain ⟨n, hn, rfl⟩ := List.mem_map.mp hm
      exact ⟨hls.one_line n hn, htrimmed n (hls.trimmed n hn)⟩
    rw [cleaned, String.toList_ofList, toList_starredBlock, String.toList_intercalate]
    apply clean_starred indent.toList _ _ hindent hlines
    · simpa using hls.first
    · simpa using hls.last
    · simpa using hls.ne_nil
  · have hmarked : trim ('/' :: '/' :: ' ' :: l.toList) = '/' :: '/' :: ' ' :: l.toList :=
      trim_marked '/' ['/'] l.toList rfl hne' hl'
    apply String.toList_injective
    simpa [cleaned, clean, hmarked] using htext
  · have hmarked : trim ('/' :: '/' :: '/' :: ' ' :: l.toList) =
        '/' :: '/' :: '/' :: ' ' :: l.toList :=
      trim_marked '/' ['/', '/'] l.toList rfl hne' hl'
    apply String.toList_injective
    simpa [cleaned, clean, hmarked] using htext
  · have hmarked : trim ('#' :: ' ' :: l.toList) = '#' :: ' ' :: l.toList :=
      trim_marked '#' [] l.toList rfl hne' hl'
    apply String.toList_injective
    simpa [cleaned, clean, hmarked] using htext

/-- Lines that start with a star, with slashes and with the end of a block, an empty one between
them, and a line that starts with all the markers. -/
theorem cleaned_layouts_markers :
    let ls := ["* a", "", "/// b", "*"]
    Paragraph ls ∧ cleaned (starredBlock "\t " ls) = "* a\n\n/// b\n*" ∧
      cleaned "// //!*# x" = "//!*# x" ∧ cleaned "/// //!*# x" = "//!*# x" ∧
      cleaned "# //!*# x" = "//!*# x" := by
  intro ls
  have hls : Paragraph ls := ⟨by decide, by decide, by decide, by decide, by decide⟩
  have hindent : ∀ c ∈ "\t ".toList, isBlank c = true ∧ c ≠ '\n' := by simp [isBlank]
  exact ⟨hls, cleaned_layouts "\t " ls "//!*# x" hindent hls (by decide) (by decide)⟩

end Synopsis.Comment
