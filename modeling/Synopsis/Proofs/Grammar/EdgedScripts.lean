import Synopsis.Grammar.Python
import Synopsis.Grammar.TypeScript
import Synopsis.Proofs.Grammar.EdgedGrammars

/-! The declarations of Python, TypeScript and JavaScript have solid edges. Where a line end closes
a statement, the statement ends behind the comments on its line, and these are solid too. -/
open Synopsis.Tree

namespace Synopsis.Grammar
open Lexeme

variable {control : Bool}

/-! ### Python -/

namespace Python

theorem isBlank_of_isStringMark (c : Char) (h : isStringMark c = true) :
    Text.isBlank c = false :=
  isBlank_of_isPlain "rRbBfFuUtT".toList (by decide) c (by simpa [isStringMark] using h)

theorem closedBy_stringTail (quote : Char) (long raw interpolated : Bool) (s : Source)
    (fuel depth i j : Nat) (h : stringTail quote long raw interpolated s fuel depth i = some j) :
    ClosedBy s quote i j := by
  induction fuel generalizing depth i with
  | zero => cases h
  | succ fuel ih =>
    have hone (depth : Nat)
        (h : stringTail quote long raw interpolated s fuel depth (i+1) = some j) :
        ClosedBy s quote i j := (ih depth (i+1) h).mono (Nat.le_succ i)
    have htwo (depth : Nat)
        (h : stringTail quote long raw interpolated s fuel depth (i+2) = some j) :
        ClosedBy s quote i j := (ih depth (i+2) h).mono (Nat.le_add_right i 2)
    unfold stringTail at h
    split at h
    · cases h
    next c hchar =>
      split_ifs at h with _ _ _ _ _ _ hshort hlong
      · exact hone _ h
      · exact hone _ h
      · split at h
        next k hk =>
          -- a literal inside braces
          have hinner := closedBy_quotedEnd _ _ _ s _ _ _ hk
          have hlt := hinner.lt
          exact (ih _ k h).mono (by omega)
        · cases h
      · exact hone _ h
      · exact hone _ h
      · cases h
        obtain ⟨rfl, _⟩ : c = quote ∧ long = false := by simpa using hshort
        exact .here hchar
      · -- the last of three quotes
        cases h
        simp only [Bool.and_eq_true, beq_iff_eq] at hlong
        exact ⟨i+2, Nat.le_add_right i 2, rfl, hlong.2⟩
      · exact htwo _ h
      · exact htwo _ h
      · exact hone _ h
      · exact hone _ h

@[simp] theorem edged_stringScan : Edged control stringScan := by
  intro s i j h
  unfold stringScan at h
  extract_lets k at h
  split at h
  · cases h
  split at h
  next q hq =>
    split at h
    next hquote =>
      have hblank : Text.isBlank q = false := by
        simp only [Bool.or_eq_true, beq_iff_eq] at hquote
        rcases hquote with rfl | rfl <;> rfl
      have hstart : Solid control s i :=
        solid_of_skipWhile isStringMark isBlank_of_isStringMark s i (solid_of_char? hblank hq)
      extract_lets long start at h
      have hopen : i ≤ start := by
        have hmarks := skipWhile_ge isStringMark s i
        unfold start
        split <;> omega
      have hclosed (e : Nat) (he : ClosedBy s q start e) : Edges control s i e :=
        (he.mono hopen).edges hblank hstart
      split at h
      next e he =>
        cases h
        exact hclosed _ (closedBy_stringTail _ _ _ _ s _ _ _ _ he)
      · -- without interpolation, where a brace is not closed
        split at h
        next e he =>
          cases h
          exact hclosed _ (closedBy_stringTail _ _ _ _ s _ _ _ _ he)
        · split at h
          · exact hclosed _ (closedBy_quotedEnd _ _ _ s _ _ _ h)
          · cases h
    · cases h
  · cases h

def outline : Outline Symbol where
  control := false
  kinds := ["function_definition", "class_definition", "expression_statement"]
  ragged := []
  gaps := true
  shape
    | .suite | .newline => ⟨false, true, false⟩
    | .params | .lambdaParams => .hollow
    | _ => .solid

@[simp] theorem outline_control : outline.control = false := rfl

@[simp] theorem outline_ragged : outline.ragged = [] := rfl

@[simp] theorem outline_gaps : outline.gaps = true := rfl

/-- A backslash carries a line on as in C. -/
theorem continuation_bounds (s : Source) (i j : Nat) (h : continuation s i = some j) :
    i < j ∧ j ≤ s.size := CFamily.lineEscape_bounds s i j h

/-- A comment goes from its hash to the end of the line. -/
theorem edges_comment (s : Source) (i : Nat) (hchar : s.char? i = some '#') :
    Edges false s i (skipWhile (· != '\n') s i) := by
  have hstart : Solid false s i := solid_of_char? (by decide) hchar
  exact .flat hstart (lt_skipWhile _ s i (by simp [hchar]))
    (unbroken_skipWhile _ (by decide) s i hstart.lt_size.le)

theorem trivia_outline : outline.Trivia trivia := by
  intro s i j kind h
  unfold trivia at h
  split at h
  · cases h
  next c hchar =>
    split_ifs at h with _ hhash
    · cases h
      exact .blank (Nat.lt_succ_self i) (lt_size_of_char? hchar)
    · cases h
      exact .of_edges (edges_comment s i (by simpa [hchar] using hhash)) (by decide)
    · obtain ⟨k, hk, heq⟩ := Option.map_eq_some_iff.mp h
      cases heq
      obtain ⟨hlt, hle⟩ := continuation_bounds s i _ hk
      exact .blank hlt hle

theorem commented_of_comment (s : Source) (i : Nat) (hchar : s.char? i = some '#') :
    Commented trivia s i (skipWhile (· != '\n') s i) := by
  refine .last i _ "comment" ?_ (by decide) (edges_comment s i hchar).lt
  simp [trivia, hchar, show isPythonSpace '#' = false by decide]

theorem commented_of_runEnd (p : Char → Bool) (hp : ∀ c, p c = true → isPythonSpace c = true)
    (s : Source) (fuel i : Nat) (hhash : s.char? (runEnd p s fuel i) = some '#') :
    Commented trivia s i (skipWhile (· != '\n') s (runEnd p s fuel i)) := by
  induction fuel generalizing i with
  | zero => exact commented_of_comment s i hhash
  | succ fuel ih =>
    unfold runEnd at hhash ⊢
    split at hhash
    next hany =>
      obtain ⟨c, hchar, hc⟩ := (Option.any_eq_true _ _).mp hany
      rw [if_pos hany]
      refine .step i (i+1) _ "" ?_ (Nat.lt_succ_self i) (ih (i+1) hhash)
      simp [trivia, hchar, hp c hc]
    next hany =>
      rw [if_neg hany]
      exact commented_of_comment s i hhash

/-- Blanks lead to the comment behind them. -/
theorem commented_of_skipWhile (p : Char → Bool) (hp : ∀ c, p c = true → isPythonSpace c = true)
    (s : Source) (i : Nat) (hhash : s.char? (skipWhile p s i) = some '#') :
    Commented trivia s i (skipWhile (· != '\n') s (skipWhile p s i)) :=
  commented_of_runEnd p hp s s.size i hhash

theorem lands_sameLineComment : Lands trivia sameLineComment := by
  intro s i j h
  unfold sameLineComment at h
  dsimp only at h
  split_ifs at h with hhash
  · cases h
    refine .inr (commented_of_skipWhile _ (fun c hc => ?_) s i (by simpa using hhash))
    exact (Bool.and_eq_true_iff.mp hc).2
  · cases h
    exact .inl le_rfl

theorem absorbFrom_lands (s : Source) (ctx fuel i last : Nat) :
    absorbFrom s ctx fuel i last = last ∨ Commented trivia s i (absorbFrom s ctx fuel i last) := by
  induction fuel generalizing i last with
  | zero => exact .inl rfl
  | succ fuel ih =>
    unfold absorbFrom
    dsimp only
    split
    next hhash =>
      have hline := commented_of_skipWhile isPythonSpace (fun c hc => hc) s i (by simpa using hhash)
      split
      · rcases ih _ _ with heq | hmore
        · exact .inr (heq.symm ▸ hline)
        · exact .inr (hline.trans hmore)
      · exact .inl rfl
    · exact .inl rfl

theorem lands_absorb (ctx : Nat) : Lands trivia fun s i => some (absorbFrom s ctx s.size i i) := by
  rintro s i j ⟨⟩
  exact (absorbFrom_lands s ctx s.size i i).imp_left Eq.le

theorem outlined : Outlined outline grammar where
  edged x := by
    cases x <;> simp (disch := decide) [grammar, rule, name, aligned, here, assign,
      outdented, indented, tail, zeroWidth, free, colon, augmented, commas, operator,
      lands_sameLineComment, lands_absorb]
  framed x := by cases x <;> decide
  leftFirst x := by cases x <;> rfl
  shape x := by cases x <;> decide
  index := Function.LeftInverse.injective (g := Symbol.ofNat) fun x => by cases x <;> rfl
  root := by decide
  plain := by decide
  trivia := trivia_outline

end Python

/-! ### TypeScript -/

namespace TypeScript

/-- Of the blanks, only U+0085 is part of a name. -/
theorem isSolid_of_isNameChar (c : Char) (h : isNameChar c = true) : isSolid true c = true := by
  by_cases hword : (c.isAlphanum || c == '_' || c == '$') = true
  · apply isSolid_of_not_isBlank
    simp only [Bool.or_eq_true, beq_iff_eq] at hword
    rcases hword with (hword | rfl) | rfl
    · exact isBlank_of_isAlphanum c hword
    · rfl
    · rfl
  · by_contra hsolid
    simp [isNameChar, hword, isSolid, Text.isBlank] at h hsolid
    omega

theorem isNameChar_of_isNameStart (c : Char) (h : isNameStart c = true) :
    isNameChar c = true := (Bool.and_eq_true_iff.mp h).1

/-- An escape starts with a backslash and stands on one line. -/
theorem edges_escapeEnd (s : Source) (i j : Nat) (h : escapeEnd s i = some j) :
    Solid true s i ∧ i < j ∧ Unbroken s i j := by
  have hopening (cs : List Char) (hplain : isPlain cs = true) (hfeed : '\n' ∉ cs) (k : Nat)
      (hk : Rule.literalEnd s cs i = some k) : Solid true s i ∧ Unbroken s i k := by
    have hsolid : Solid true s i := (edges_literalEnd s cs hplain i k hk).start
    exact ⟨hsolid, unbroken_literalEnd s cs hfeed i k hsolid.lt_size.le hk⟩
  have hdigits (k : Nat) (hk : k ≤ s.size) : Unbroken s k (skipWhile isHexDigit s k) :=
    unbroken_skipWhile isHexDigit (by decide) s k hk
  unfold escapeEnd at h
  split at h
  next k hk =>
    obtain ⟨hsolid, hfront⟩ := hopening _ (by decide) (by decide) k hk
    dsimp only at h
    split_ifs at h with hlt
    have hrun := hdigits k hfront.bound
    have hclosing := unbroken_literalEnd s ['\x7d'] (by decide) _ j hrun.bound h
    exact ⟨hsolid, (hfront.le.trans_lt hlt).trans_le hclosing.le,
      (hfront.trans hrun).trans hclosing⟩
  next =>
    obtain ⟨k, hk, h⟩ := Option.bind_eq_some_iff.mp h
    obtain ⟨hsolid, hfront⟩ := hopening _ (by decide) (by decide) k hk
    split_ifs at h with hfour
    cases h
    have hrun := hdigits k hfront.bound
    have hdigits : Unbroken s k (k+4) :=
      ⟨by omega, hfour.trans hrun.bound, fun l hl hlt => hrun.flat l hl (hlt.trans_le hfour)⟩
    exact ⟨hsolid, hfront.le.trans_lt (by omega), hfront.trans hdigits⟩

theorem unbroken_nameEnd (s : Source) (fuel i : Nat) (hi : i ≤ s.size) :
    Unbroken s i (nameEnd s fuel i) := by
  induction fuel generalizing i with
  | zero => exact .refl hi
  | succ fuel ih =>
    unfold nameEnd
    split
    next hany =>
      have hsolid : Solid true s i := solid_of_any isSolid_of_isNameChar hany
      exact hsolid.unbroken.trans (ih (i+1) hsolid.lt_size)
    · split
      next j hj =>
        obtain ⟨_, _, hescape⟩ := edges_escapeEnd s i j hj
        exact hescape.trans (ih j hescape.bound)
      · exact .refl hi

theorem edges_firstEnd (s : Source) (i j : Nat) (h : firstEnd s i = some j) :
    Solid true s i ∧ i < j ∧ Unbroken s i j := by
  unfold firstEnd at h
  split_ifs at h with hany
  · cases h
    have hsolid : Solid true s i := solid_of_any
      (fun c hc => isSolid_of_isNameChar c (isNameChar_of_isNameStart c hc)) hany
    exact ⟨hsolid, Nat.lt_succ_self i, hsolid.unbroken⟩
  · exact edges_escapeEnd s i j h

@[simp] theorem edged_name (reserved : List String) : Edged true (scriptName reserved) := by
  intro s i k h
  obtain ⟨j, hj, h⟩ := Option.bind_eq_some_iff.mp h
  obtain ⟨hsolid, hlt, hfirst⟩ := edges_firstEnd s i j hj
  dsimp only at h
  split_ifs at h
  cases h
  have hrest := unbroken_nameEnd s s.size j hfirst.bound
  exact .flat hsolid (hlt.trans_le hrest.le) (hfirst.trans hrest)

@[simp] theorem edged_jsxName :
    Edged true (word isNameStart (fun c => isNameChar c || c == '-') []) :=
  edged_word _ _ _ (fun c hc => isSolid_of_isNameChar c (isNameChar_of_isNameStart c hc))
    (by decide)

@[simp] theorem edged_privateName : Edged true privateName := by
  intro s i j h
  unfold privateName at h
  split_ifs at h with hchar
  have hstart : Solid true s i := solid_of_char? (c := '#') (by decide) (by simpa using hchar)
  exact (edged_name [] s (i+1) j h).after (Nat.le_succ i) hstart

/-- A regular expression ends with a slash, and flags after it. -/
theorem closedBy_regexEnd (s : Source) (fuel : Nat) (inClass : Bool) (i j : Nat)
    (h : regexEnd s fuel inClass i = some j) :
    ∃ k, ClosedBy s '/' i k ∧ j = skipWhile isNameChar s k := by
  induction fuel generalizing inClass i with
  | zero => cases h
  | succ fuel ih =>
    have hone (inClass : Bool) (h : regexEnd s fuel inClass (i+1) = some j) :
        ∃ k, ClosedBy s '/' i k ∧ j = skipWhile isNameChar s k := by
      obtain ⟨k, hk, hj⟩ := ih inClass (i+1) h
      exact ⟨k, hk.mono (Nat.le_succ i), hj⟩
    unfold regexEnd at h
    split at h
    · cases h
    next c hchar =>
      -- a backslash passes over the next character; a slash outside a class ends it
      split_ifs at h with _ _ _ _ hslash
      · obtain ⟨k, hk, hj⟩ := ih _ (i+2) h
        exact ⟨k, hk.mono (Nat.le_add_right i 2), hj⟩
      · exact hone _ h
      · exact hone _ h
      · cases h
        obtain ⟨rfl, _⟩ : c = '/' ∧ inClass = false := by simpa using hslash
        exact ⟨i+1, .here hchar, rfl⟩
      · exact hone _ h

theorem edged_regex : Edged true fun s i =>
    if s.char? i == some '/' then regexEnd s s.size false (i+1) else none := by
  intro s i j h
  dsimp only at h
  split_ifs at h with hchar
  have hstart : Solid true s i := solid_of_char? (c := '/') (by decide) (by simpa using hchar)
  obtain ⟨k, hk, rfl⟩ := closedBy_regexEnd s s.size false (i+1) j h
  have hclosing : Edges true s i k := (hk.mono (Nat.le_succ i)).edges (by decide) hstart
  -- the flags go on with the last line
  have hflags := unbroken_skipWhile isNameChar (by decide) s k hclosing.stop.le
  exact hclosing.append hflags

@[simp] theorem edged_eitherQuote (escapes lines : Bool) : Edged true fun s i =>
    (quoted '"' escapes lines s i).or (quoted '\'' escapes lines s i) :=
  (edged_quoted _ (by decide) _ _).or (edged_quoted _ (by decide) _ _)

@[simp] theorem edged_hashBang :
    Edged control fun s i => if i = 0 then lineComment ['#', '!'] s i else none := by
  intro s i j h
  dsimp only at h
  split_ifs at h
  exact edged_lineComment _ (by decide) s i j h

@[simp] theorem bounded_jsxTextEnd : Bounded jsxTextEnd := by
  intro s i j h
  unfold jsxTextEnd at h
  dsimp only at h
  split_ifs at h
  cases h
  exact ⟨skipWhile_ge _ s i, skipWhile_le _ s i⟩

theorem templateChars_ge (s : Source) (fuel i : Nat) : i ≤ templateChars s fuel i := by
  induction fuel generalizing i with
  | zero => exact le_rfl
  | succ fuel ih =>
    have hone := ih (i+1)
    have htwo := ih (i+2)
    unfold templateChars
    split
    · exact le_rfl
    · split_ifs <;> omega

theorem templateChars_le (s : Source) (fuel i : Nat) (hi : i ≤ s.size) :
    templateChars s fuel i ≤ s.size := by
  induction fuel generalizing i with
  | zero => exact hi
  | succ fuel ih =>
    unfold templateChars
    split
    · exact hi
    next c hchar =>
      have hlt := lt_size_of_char? hchar
      split_ifs with _ _ hescape
      · exact hi
      · exact hi
      · simp only [Bool.and_eq_true, decide_eq_true_eq] at hescape
        exact ih (i+2) hescape.2
      · exact ih (i+1) hlt

@[simp] theorem bounded_templateChars : Bounded fun s i =>
    if i < templateChars s s.size i then some (templateChars s s.size i) else none := by
  intro s i j h
  dsimp only at h
  split_ifs at h
  cases h
  exact ⟨templateChars_ge s s.size i, templateChars_le s s.size i⟩

def outline : Outline Symbol where
  control := true
  kinds := ["function_declaration", "export_statement", "lexical_declaration", "method_definition",
    "class_declaration", "abstract_class_declaration", "interface_declaration",
    "type_alias_declaration", "enum_declaration"]
  ragged := ["string_fragment", "jsx_text"]
  gaps := true
  shape _ := .solid

@[simp] theorem outline_control : outline.control = true := rfl

@[simp] theorem outline_ragged : outline.ragged = ["string_fragment", "jsx_text"] := rfl

@[simp] theorem outline_gaps : outline.gaps = true := rfl

theorem trivia_outline : outline.Trivia trivia := by
  intro s i j kind h
  have hcomment (scan : Scan) (hscan : Edged true scan) (word : String)
      (hword : word ∈ Rule.extraKinds) (h : (scan s i).map (·, word) = some (j, kind)) :
      outline.Piece s i j kind := by
    obtain ⟨k, hk, heq⟩ := Option.map_eq_some_iff.mp h
    cases heq
    exact .of_edges (hscan s i _ hk) hword
  unfold trivia at h
  split at h
  · cases h
  next c hchar =>
    split_ifs at h
    · cases h
      exact .blank (Nat.lt_succ_self i) (lt_size_of_char? hchar)
    · split at h
      next k hk =>
        exact hcomment (lineComment ['/', '/']) (edged_lineComment _ (by decide)) "comment"
          (by decide) (by rw [hk]; exact h)
      · exact hcomment _ edged_blockComment "comment" (by decide) h
    · exact hcomment _ (edged_lineComment _ (by decide)) "html_comment" (by decide) h
    · exact hcomment _ (edged_lineComment _ (by decide)) "html_comment" (by decide) h

theorem kind_of_slash (s : Source) (i j : Nat) (kind : String) (hchar : s.char? i = some '/')
    (h : trivia s i = some (j, kind)) : kind = "comment" := by
  simp only [trivia, hchar, show isScriptSpace '/' = false by decide, Bool.false_eq_true, if_false,
    beq_self_eq_true, if_true] at h
  split at h
  · cases h
    rfl
  · obtain ⟨k, _, heq⟩ := Option.map_eq_some_iff.mp h
    cases heq
    rfl

theorem sameLineComments_lands (s : Source) (fuel i last : Nat) :
    sameLineComments s fuel i last = last ∨
      Commented trivia s i (sameLineComments s fuel i last) := by
  induction fuel generalizing i last with
  | zero => exact .inl rfl
  | succ fuel ih =>
    unfold sameLineComments
    split
    · exact .inl rfl
    next c hchar =>
      split_ifs with _ hspace hslash
      · exact .inl rfl
      · refine (ih (i+1) last).imp_right (.step i (i+1) _ "" ?_ (Nat.lt_succ_self i))
        simp [trivia, hchar, hspace]
      · split
        next j kind hj =>
          -- a comment: what follows it may hold more
          have hone : Commented trivia s i j := by
            obtain rfl : c = '/' := by simpa using hslash
            refine .last i j kind hj ?_ (trivia_outline s i j kind hj).lt
            rw [kind_of_slash s i j kind hchar hj]
            decide
          rcases ih j j with heq | hmore
          · exact .inr (heq.symm ▸ hone)
          · exact .inr (hone.trans hmore)
        · exact .inl rfl
      · exact .inl rfl

theorem lands_sameLineComments :
    Lands trivia fun s i => some (sameLineComments s s.size i i) := by
  rintro s i j ⟨⟩
  exact (sameLineComments_lands s s.size i i).imp_left Eq.le

@[simp] theorem each_regex : regex.Each (Rule.EdgedPart outline trivia) := .inl edged_regex

theorem outlined (tsx : Bool) : Outlined outline (grammar tsx) where
  edged x := by
    cases x <;> simp (disch := decide) [grammar, rule, automatic, semicolon,
      typeSemicolon, here, ident, anyIdent, string, typeGoesOn, goesOn, from_, free, lines,
      colonless, assign, asyncWord, zeroWidth, modifierWord, binaryOps, Rule.each_ite,
      lands_sameLineComments]
  framed x := by cases tsx <;> cases x <;> decide
  leftFirst x := by cases tsx <;> cases x <;> rfl
  shape x := by cases tsx <;> cases x <;> decide
  index := Function.LeftInverse.injective (g := Symbol.ofNat) fun x => by cases x <;> rfl
  root := by cases tsx <;> decide
  plain := by decide
  trivia := trivia_outline

end TypeScript

end Synopsis.Grammar
