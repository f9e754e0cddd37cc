import Synopsis.Grammar.CFamily
import Synopsis.Grammar.Go
import Synopsis.Grammar.Java
import Synopsis.Proofs.Grammar.OutlinedRuns

/-! The declarations of Go, Java, C and C++ have solid edges. Only what ends with the end of a line
need not: in C and C++ these are the directives. -/
open Synopsis.Tree

namespace Synopsis.Grammar
open Lexeme

variable {control : Bool}

/-! ### Shared rules -/

namespace Rule

variable {σ : Type} {o : Outline σ} {trivia : Source → Nat → Option (Nat × String)}

@[simp] theorem edgedPart_lit (text : String) (h : isPlain text.toList = true) :
    EdgedPart o trivia (lit text) :=
  .inl (edged_scanLiteral _ _ h)

@[simp] theorem edgedPart_litUnless (text stop : String) (h : isPlain text.toList = true) :
    EdgedPart o trivia (litUnless text stop) := by
  refine .inl fun s i j hj => ?_
  dsimp only at hj
  split at hj
  next k hk =>
    split_ifs at hj
    cases hj
    exact edges_literalEnd s _ h i _ hk
  · cases hj

@[simp] theorem edgedPart_oneOf (texts : List String)
    (h : texts.all (fun t => isPlain t.toList) = true) : EdgedPart o trivia (oneOf texts) := by
  refine .inl fun s i j hj => ?_
  obtain ⟨t, ht, hscan⟩ := List.exists_of_findSome?_eq_some hj
  obtain ⟨text, hmem, rfl⟩ := List.mem_map.mp ht
  exact edged_scanLiteral _ _ (List.all_eq_true.mp h text hmem) s i j hscan

@[simp] theorem edgedPart_token (kind : String) (named : Bool) (scan : Scan) :
    EdgedPart o trivia (token kind named scan) ↔
      Edged o.control scan ∨ kind ∈ o.ragged ∧ Bounded scan := Iff.rfl

@[simp] theorem edgedPart_leaf (kind : String) (scan : Scan) :
    EdgedPart o trivia (leaf kind scan) ↔
      Edged o.control scan ∨ kind ∈ o.ragged ∧ Bounded scan := Iff.rfl

@[simp] theorem edgedPart_gap (scan : Nat → Scan) :
    EdgedPart o trivia (gap scan) ↔ (o.gaps = true → ∀ ctx, Lands trivia (scan ctx)) := Iff.rfl

/-- Words and signs, any of which may stand. -/
@[simp] theorem each_any_map_lit (texts : List String)
    (h : texts.all (fun t => isPlain t.toList) = true) :
    (any (texts.map lit) : Rule σ).Each (EdgedPart o trivia) := by
  rw [each_any_map]
  exact fun t ht => edgedPart_lit t (List.all_eq_true.mp h t ht)

@[simp] theorem edgedPart_near (kind : String) (named : Bool) (scan : Scan) (h : kind ≠ "") :
    EdgedPart o trivia (near kind named scan) ↔
      Edged o.control scan ∨ kind ∈ o.ragged ∧ Bounded scan := by
  simp [EdgedPart, h]

/-- A token that reads nothing. -/
@[simp] theorem edgedPart_nothing (named : Bool) (h : "" ∉ o.ragged) :
    EdgedPart o trivia (near "" named fun _ i => some i) := by
  simp only [EdgedPart, h, not_false_eq_true, and_self, if_true]
  rintro s i j ⟨⟩
  rfl

end Rule

/-- Blanks, and comments as in C. -/
theorem trivia_slash (o : Outline σ) (line block : String) (hline : line ∈ Rule.extraKinds)
    (hblock : block ∈ Rule.extraKinds) : o.Trivia (slashTrivia line block) := by
  intro s i j kind h
  unfold slashTrivia at h
  split at h
  · cases h
  next c hchar =>
    split_ifs at h
    · cases h
      exact .blank (Nat.lt_succ_self i) (lt_size_of_char? hchar)
    · split at h
      next k hk =>
        cases h
        exact .of_edges (edged_lineComment _ (by decide) s i _ hk) hline
      · obtain ⟨k, hk, heq⟩ := Option.map_eq_some_iff.mp h
        cases heq
        exact .of_edges (edged_blockComment s i _ hk) hblock

/-! ### Go -/

namespace Go

def outline : Outline Symbol where
  control := false
  kinds := ["function_declaration", "method_declaration", "type_declaration", "var_declaration",
    "const_declaration"]
  ragged := []
  gaps := false
  shape
    | .item | .statements | .header | .caseClause => .rough
    | _ => .solid

@[simp] theorem outline_control : outline.control = false := rfl

@[simp] theorem outline_ragged : outline.ragged = [] := rfl

@[simp] theorem outline_gaps : outline.gaps = false := rfl

theorem outlined : Outlined outline grammar where
  edged x := by
    cases x <;> simp (disch := decide) [grammar, rule, name, stringLit, terminator, here,
      specs, binary, assignOps]
  framed x := by cases x <;> decide
  leftFirst x := by cases x <;> rfl
  shape x := by cases x <;> decide
  index := Function.LeftInverse.injective (g := Symbol.ofNat) fun x => by cases x <;> rfl
  root := by decide
  plain := by decide
  trivia := trivia_slash outline _ _ (by decide) (by decide)

end Go

/-! ### Java -/

namespace Java

@[simp] theorem edged_name (reserved : List String) :
    Edged control (word isFirst isRest reserved) := edged_dollarWord reserved

theorem edges_close (s : Source) (fuel i k e : Nat) (hstart : Solid control s i) (hi : i ≤ k)
    (h : stringScan.close s fuel k = some e) : Edges control s i e := by
  induction fuel generalizing k with
  | zero => cases h
  | succ fuel ih =>
    unfold stringScan.close at h
    split at h
    · cases h
    · split_ifs at h
      · exact ih (k+2) (by omega) h
      · split at h
        next hend =>
          cases h
          exact (edges_literalEnd s _ (by decide) k e hend).after hi hstart
        · exact ih (k+1) (by omega) h

@[simp] theorem edged_stringScan : Edged control stringScan := by
  intro s i j h
  unfold stringScan at h
  split at h
  next k hk =>
    have hopen : Edges control s i k := edges_literalEnd s _ (by decide) i k hk
    exact edges_close s s.size i k j hopen.start hopen.lt.le h
  · exact edged_quoted _ (by decide) _ _ s i j h

def outline : Outline Symbol where
  control := false
  kinds := ["class_declaration", "interface_declaration", "method_declaration",
    "constructor_declaration", "enum_declaration", "annotation_type_declaration",
    "record_declaration", "field_declaration"]
  ragged := []
  gaps := false
  shape _ := .solid

@[simp] theorem outline_control : outline.control = false := rfl

@[simp] theorem outline_ragged : outline.ragged = [] := rfl

@[simp] theorem outline_gaps : outline.gaps = false := rfl

theorem outlined : Outlined outline grammar where
  edged x := by
    cases x <;> simp (disch := decide) [grammar, rule, name, literal, mods, typeList,
      assign, primitive, binary]
  framed x := by cases x <;> decide
  leftFirst x := by cases x <;> rfl
  shape x := by cases x <;> decide
  index := Function.LeftInverse.injective (g := Symbol.ofNat) fun x => by cases x <;> rfl
  root := by decide
  plain := by decide
  trivia := trivia_slash outline _ _ (by decide) (by decide)

end Java

/-! ### C and C++ -/

namespace CFamily

@[simp] theorem edged_name (reserved : List String) :
    Edged control (word isFirst isRest reserved) := edged_dollarWord reserved

/-- The names of primitive types are not empty. -/
theorem edged_primitive : Edged control fun s i =>
    let j := skipWhile isRest s i
    if primitives.contains (String.ofList (between s i j)) then some j else none := by
  intro s i j h
  dsimp only at h
  split_ifs at h with hmem
  cases h
  have hlt : i < skipWhile isRest s i := by
    by_contra hle
    have hempty : String.ofList (between s i (skipWhile isRest s i)) = "" := by
      simp [between, Nat.le_of_not_lt hle]
    rw [hempty] at hmem
    revert hmem
    decide
  have hstart := any_of_lt_runEnd isRest s s.size i i le_rfl hlt
  refine .flat (solid_of_any (fun c hc => ?_) hstart) hlt
    (unbroken_skipWhile isRest (by decide) s i (lt_size_of_any hstart).le)
  exact isSolid_of_not_isBlank c (isBlank_of_dollarRest c hc)

/-- A word after a hash and blanks. -/
theorem edged_hash (cs : List Char) (hcs : isPlain cs = true) : Edged control fun s i =>
    if s.char? i == some '#' then
      let j := skipWhile (fun c => c == ' ' || c == '\t') s (i+1)
      Rule.scanLiteral true cs s j
    else none := by
  intro s i j h
  dsimp only at h
  split_ifs at h with hchar
  have hstart : Solid control s i := solid_of_char? (c := '#') (by decide) (by simpa using hchar)
  have hblanks := skipWhile_ge (fun c => c == ' ' || c == '\t') s (i+1)
  exact (edged_scanLiteral true cs hcs s _ j h).after (by omega) hstart

theorem edged_anyDirective : Edged control fun s i =>
    if s.char? i == some '#' then
      let j := skipWhile (fun c => c == ' ' || c == '\t') s (i+1)
      if (s.char? j).any Char.isAlphanum then some (skipWhile isWordRest s j) else none
    else none := by
  intro s i j h
  dsimp only at h
  split_ifs at h with hchar
  cases h
  have hstart : Solid control s i := solid_of_char? (c := '#') (by decide) (by simpa using hchar)
  have hblanks := unbroken_skipWhile (fun c => c == ' ' || c == '\t') (by decide) s (i+1)
    hstart.lt_size
  have hword := unbroken_skipWhile isWordRest (by decide) s _ hblanks.bound
  exact .flat hstart (hblanks.le.trans hword.le) (hstart.unbroken.trans (hblanks.trans hword))

theorem isBlank_of_mem_marks (c : Char) (h : ("uUL8".toList.contains c) = true) :
    Text.isBlank c = false :=
  isBlank_of_isPlain "uUL8".toList (by decide) c (by simpa using h)

@[simp] theorem edged_rawString : Edged control rawString := by
  intro s i j h
  have hmarks := skipWhile_ge (fun c => "uUL8".toList.contains c) s i
  unfold rawString at h
  extract_lets k at h
  split at h
  · cases h
  next open_ hopen =>
    extract_lets e at h
    split_ifs at h
    have hopening : Edges control s k open_ := edges_literalEnd s _ (by decide) k open_ hopen
    have hstart : Solid control s i :=
      solid_of_skipWhile _ isBlank_of_mem_marks s i hopening.start
    obtain ⟨l, hl, hclose⟩ := exists_literal_of_findEnd _ s s.size (e+1) j h
    have hquote := closedBy_literalEnd s (')' :: between s open_ e) '"' l j hclose
    have hname : open_ ≤ e := skipWhile_ge _ s open_
    have hlt := hopening.lt
    exact (hquote.mono (by omega)).edges (by decide) hstart

@[simp] theorem edged_marked (quote : Char) (hquote : Text.isBlank quote = false) :
    Edged control (marked quote) := by
  intro s i j h
  have hquoted : Edges control s _ j := edged_quoted quote hquote true false s _ j h
  exact hquoted.after (skipWhile_ge _ s i)
    (solid_of_skipWhile _ isBlank_of_mem_marks s i hquoted.start)

@[simp] theorem edged_systemPath : Edged control fun s i =>
    if s.char? i = some '<' then quotedEnd '>' false false s s.size (i+1) else none := by
  intro s i j h
  dsimp only at h
  split_ifs at h with hchar
  have hstart : Solid control s i := solid_of_char? (by decide) hchar
  exact ((closedBy_quotedEnd _ _ _ s _ _ j h).mono (Nat.le_succ i)).edges (by decide) hstart

theorem unbroken_numberTail (s : Source) (fuel i : Nat) (hi : i ≤ s.size) :
    Unbroken s i (numberTail s fuel i) := by
  induction fuel generalizing i with
  | zero => exact .refl hi
  | succ fuel ih =>
    unfold numberTail
    split
    · exact .refl hi
    next c hchar =>
      have hone (hc : c ≠ '\n') : Unbroken s i (i+1) := .single hchar hc
      dsimp only
      split_ifs with hc hsign hquote
      · have hone := hone (by rintro rfl; revert hc; decide)
        -- the sign after an exponent mark
        have htwo : Unbroken s (i+1) (i+2) := by
          simp only [Bool.and_eq_true, Bool.or_eq_true, beq_iff_eq] at hsign
          rcases hsign.1.2 with hsign | hsign <;> exact .single hsign (by decide)
        exact hone.trans (htwo.trans (ih (i+2) htwo.bound))
      · have hone := hone (by rintro rfl; revert hc; decide)
        exact hone.trans (ih (i+1) hone.bound)
      · have hone := hone (by rintro rfl; simp at hquote)
        exact hone.trans (ih (i+1) hone.bound)
      · exact .refl hi

theorem numberTail_ge (s : Source) (fuel i : Nat) : i ≤ numberTail s fuel i := by
  induction fuel generalizing i with
  | zero => exact le_rfl
  | succ fuel ih =>
    have hone := ih (i+1)
    have htwo := ih (i+2)
    unfold numberTail
    split
    · exact le_rfl
    · dsimp only
      split_ifs <;> omega

theorem lt_numberTail (s : Source) (fuel i : Nat) (c : Char) (hchar : s.char? i = some c)
    (hc : (c.isAlphanum || c == '_' || c == '.') = true) : i < numberTail s (fuel+1) i := by
  have hone := numberTail_ge s fuel (i+1)
  have htwo := numberTail_ge s fuel (i+2)
  unfold numberTail
  simp only [hchar, hc, if_true]
  split_ifs <;> omega

@[simp] theorem edged_numberScan : Edged control numberScan := by
  intro s i j h
  unfold numberScan at h
  split at h
  next k hk =>
    cases h
    have hnumber : Edges control s i k := edged_number s i k hk
    have hstart := hnumber.start
    have hlt := hstart.lt_size
    obtain ⟨_, c, hchar, hc⟩ := exists_char_of_number s i k hk
    obtain ⟨fuel, hfuel⟩ : ∃ fuel, s.size = fuel+1 := ⟨s.size-1, by omega⟩
    have hend : i < numberTail s s.size i := hfuel ▸ lt_numberTail s fuel i c hchar hc
    exact .flat hstart hend (unbroken_numberTail s s.size i hlt.le)
  · cases h

theorem lineCommentEnd_ge (s : Source) (fuel i : Nat) : i ≤ lineCommentEnd s fuel i := by
  induction fuel generalizing i with
  | zero => exact le_rfl
  | succ fuel ih =>
    have hone := ih (i+1)
    have htwo := ih (i+2)
    have hthree := ih (i+3)
    unfold lineCommentEnd
    split
    · exact le_rfl
    · split_ifs <;> omega

theorem lt_lineCommentEnd (s : Source) (i : Nat) (hchar : s.char? i = some '/') :
    i < lineCommentEnd s s.size i := by
  obtain ⟨fuel, hfuel⟩ : ∃ fuel, s.size = fuel+1 :=
    ⟨s.size-1, by have := lt_size_of_char? hchar; omega⟩
  have hone := lineCommentEnd_ge s fuel (i+1)
  rw [hfuel, lineCommentEnd, hchar]
  simp
  omega

theorem lineCommentEnd_le (s : Source) (fuel i : Nat) (hi : i ≤ s.size) :
    lineCommentEnd s fuel i ≤ s.size := by
  induction fuel generalizing i with
  | zero => exact hi
  | succ fuel ih =>
    unfold lineCommentEnd
    split
    · exact hi
    next c hchar =>
      split_ifs with hreturn hescape
      · simp only [Bool.and_eq_true, beq_iff_eq] at hreturn
        exact ih (i+3) (lt_size_of_char? hreturn.2)
      · simp only [Bool.and_eq_true, decide_eq_true_eq] at hescape
        exact ih (i+2) hescape.2
      · exact hi
      · exact ih (i+1) (lt_size_of_char? hchar)

theorem lineEscape_bounds (s : Source) (i j : Nat) (h : lineEscape s i = some j) :
    i < j ∧ j ≤ s.size := by
  unfold lineEscape at h
  split_ifs at h with _ hfeed hreturn
  · cases h
    have hlt := lt_size_of_char? (c := '\n') (by simpa using hfeed)
    omega
  · cases h
    simp only [Bool.and_eq_true, beq_iff_eq] at hreturn
    have hlt := lt_size_of_char? hreturn.2
    omega

theorem argEnd_ge (s : Source) (fuel i : Nat) : i ≤ argEnd s fuel i := by
  induction fuel generalizing i with
  | zero => exact le_rfl
  | succ fuel ih =>
    have hone := ih (i+1)
    have htwo := ih (i+2)
    unfold argEnd
    split
    · exact le_rfl
    · split
      next j hj => exact (lineEscape_bounds s i j hj).1.le.trans (ih j)
      · split_ifs
        · exact le_rfl
        · split <;> omega
        · omega

theorem argEnd_le (s : Source) (fuel i : Nat) (hi : i ≤ s.size) : argEnd s fuel i ≤ s.size := by
  induction fuel generalizing i with
  | zero => exact hi
  | succ fuel ih =>
    unfold argEnd
    split
    · exact hi
    next c hchar =>
      have hlt := lt_size_of_char? hchar
      split
      next j hj => exact ih j (lineEscape_bounds s i j hj).2
      · split_ifs
        · exact hi
        · split
          · exact hi
          next d _ hnext => exact ih (i+2) (lt_size_of_char? hnext)
          · exact hi
        · exact ih (i+1) hlt

theorem bounded_argument : Bounded fun s i =>
    match s.char? i with
    | none => none
    | some _ => some (argEnd s s.size (i+1)) := by
  intro s i j h
  dsimp only at h
  split at h
  · cases h
  next c hchar =>
    cases h
    exact ⟨(Nat.le_succ i).trans (argEnd_ge s s.size (i+1)),
      fun _ => argEnd_le s s.size (i+1) (lt_size_of_char? hchar)⟩

theorem bounded_lineEnd : Bounded fun s i =>
    match s.char? i with
    | none => some i
    | some '\n' => some (i+1)
    | some _ => none := by
  intro s i j h
  dsimp only at h
  split at h
  · cases h
    exact ⟨le_rfl, id⟩
  next hchar =>
    cases h
    exact ⟨Nat.le_succ i, fun _ => lt_size_of_char? hchar⟩
  · cases h

@[simp] theorem bounded_literalMark :
    Bounded fun s i => Rule.literalEnd s ['"', '"'] (skipWhile isSpace s i) := by
  intro s i j h
  have hblanks := skipWhile_ge isSpace s i
  have hmark : Edges false s _ j := edges_literalEnd s _ (by decide) _ j h
  exact ⟨hblanks.trans hmark.lt.le, fun _ => hmark.stop.le⟩

def outline : Outline Symbol where
  control := false
  kinds := ["function_definition", "declaration", "struct_specifier", "enum_specifier",
    "type_definition", "class_specifier", "field_declaration", "namespace_definition",
    "template_declaration"]
  ragged := ["preproc_arg", "", "\"\""]
  gaps := false
  shape
    | .item | .plainItem | .stray | .blockItem | .templateParam | .initDeclarator | .enumerator
    | .member | .declarator | .direct | .param | .includeLine | .define | .directive | .statement
    | .flatRun => .rough
    | _ => .solid

@[simp] theorem outline_control : outline.control = false := rfl

@[simp] theorem outline_ragged : outline.ragged = ["preproc_arg", "", "\"\""] := rfl

@[simp] theorem outline_gaps : outline.gaps = false := rfl

/-- A line comment may end with a blank line that a backslash carries on. -/
theorem trivia_outline : outline.Trivia trivia := by
  intro s i j kind h
  unfold trivia at h
  split at h
  · cases h
  next c hchar =>
    have hlt := lt_size_of_char? hchar
    -- a blank, the two kinds of comments, and a backslash before the end of a line
    split_ifs at h with _ hslash
    · cases h
      exact .blank (Nat.lt_succ_self i) hlt
    · cases h
      obtain rfl : c = '/' := by simpa using hslash
      exact ⟨lt_lineCommentEnd s i hchar, lineCommentEnd_le s s.size i hlt.le,
        fun _ => ⟨by decide, by simp⟩⟩
    · obtain ⟨k, hk, heq⟩ := Option.map_eq_some_iff.mp h
      cases heq
      exact .of_edges (edged_blockComment s i _ hk) (by decide)
    · obtain ⟨k, hk, heq⟩ := Option.map_eq_some_iff.mp h
      cases heq
      obtain ⟨hlt, hle⟩ := lineEscape_bounds s i _ hk
      exact .blank hlt hle

@[simp] theorem each_primitive : primitive.Each (Rule.EdgedPart outline trivia) :=
  .inl edged_primitive

@[simp] theorem each_hash (word : String) (h : isPlain word.toList = true) :
    (hash word).Each (Rule.EdgedPart outline trivia) := .inl (edged_hash _ h)

@[simp] theorem each_anyDirective : anyDirective.Each (Rule.EdgedPart outline trivia) :=
  .inl edged_anyDirective

@[simp] theorem each_argument : argument.Each (Rule.EdgedPart outline trivia) :=
  ⟨trivial, .inr ⟨by decide, bounded_argument⟩⟩

@[simp] theorem each_lineFeed : lineFeed.Each (Rule.EdgedPart outline trivia) := by
  refine ⟨fun hgaps => absurd hgaps (by decide), ?_⟩
  change Rule.EdgedPart outline trivia (.near "" false _)
  simp only [Rule.EdgedPart, outline_ragged]
  exact .inr ⟨by simp, bounded_lineEnd⟩

@[simp] theorem each_exprWord (d : Dialect) :
    (exprWord d).Each (Rule.EdgedPart outline trivia) := by
  cases d <;> exact .inl (edged_name _)

@[simp] theorem each_cppOnly (d : Dialect) (r : R) (P : R → Prop) :
    (cppOnly d r).Each P ↔ (d = .cpp → r.Each P) := by
  cases d <;> simp [cppOnly]

/-- The operators of an expression, also without those that start with a closing angle. -/
theorem plain_binaryOps (p : String → Bool) :
    (binaryOps.filter p).all (fun t => isPlain t.toList) = true := by
  have hplain : binaryOps.all (fun t => isPlain t.toList) = true := by decide
  refine List.all_eq_true.mpr fun t ht => ?_
  exact List.all_eq_true.mp hplain t (List.mem_filter.mp ht).1

theorem each_rule (d : Dialect) (x : Symbol) :
    ((grammar d).rule x).Each (Rule.EdgedPart outline (grammar d).trivia) := by
  cases x
  case modifier | sized =>
    cases d <;> simp (disch := decide) [grammar, rule, sizeWords, storageWords, qualifierWords,
      cQualifierWords, name]
  case expr =>
    simp (disch := first | exact plain_binaryOps _ | decide) [grammar, rule, ifContext, inContext]
  all_goals simp (disch := decide) [grammar, rule, name, scopedName, onLine, stringLit, literal,
    callWord, arraySize, inContext, ifContext, Rule.each_ite]

theorem outlined (d : Dialect) : Outlined outline (grammar d) where
  edged := each_rule d
  framed x := by cases d <;> cases x <;> decide
  leftFirst x := by cases d <;> cases x <;> rfl
  shape x := by cases d <;> cases x <;> decide
  index := Function.LeftInverse.injective (g := Symbol.ofNat) fun x => by cases x <;> rfl
  root := by cases d <;> decide
  plain := by decide
  trivia := trivia_outline

end CFamily

end Synopsis.Grammar
