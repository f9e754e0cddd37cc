import Synopsis.Proofs.RawString

/-! What a comment holds. The scan passes over comments, so that texts with comments of one length
in the same place have the same events. There is one exception: the look back for the word
`operator` goes over the line end of a comment and finds the word in it. -/
namespace Synopsis.Delimiter
open Text

/-! ### Passing over a comment -/

/-- A comment up to the end of its line. -/
def lineComment (c : List Char) : List Char := "//".toList ++ c ++ ['\n']

def blockComment (c : List Char) : List Char := "/*".toList ++ c ++ "*/".toList

theorem bytes_lineComment (c : List Char) :
    bytes (lineComment c) = ['/', '/'] ++ (bytes c ++ ['\n']) := by
  rw [lineComment, bytes_append, bytes_append, List.append_assoc]
  rfl

theorem bytes_blockComment (c : List Char) :
    bytes (blockComment c) = ['/', '*'] ++ (bytes c ++ ['*', '/']) := by
  rw [blockComment, bytes_append, bytes_append, List.append_assoc]
  rfl

theorem passedOver_lineComment (s : Settings) (hs : s.slashComments = true) (c : List Char)
    (hc : '\n' ∉ c) : PassedOver s .code (bytes (lineComment c)) := by
  have hopen : Leads s .code ['/', '/'] .lineComment := by
    intro after before pos d
    simp [stateFrom, eventsFrom, step, Mode.action, codeAction, isQuote, Action.run, emitted, hs]
  have hread : PassedOver s .lineComment (bytes c) := by
    apply passedOver_bytes
    intro u hu
    apply passedOver_byte
    intro before rest
    -- a line feed is no byte of a longer character
    have hne : u ≠ '\n' := by
      rintro rfl
      rcases mem_bytes_cases c '\n' hu with hmem | hhigh
      · exact hc hmem
      · exact absurd hhigh (by decide)
    simp [Mode.action, hne]
  have hclose : Leads s .lineComment ['\n'] .code := by
    intro after before pos d
    simp [stateFrom, eventsFrom, step, Mode.action, Action.run, emitted]
  rw [bytes_lineComment]
  exact hopen.append (Leads.append hread hclose)

/-- The end of a block comment is found in the bytes only where it is in the text. -/
theorem infix_of_bytes (c : List Char) (h : ['*', '/'] <:+: bytes c) : ['*', '/'] <:+: c := by
  obtain ⟨front, back, hbytes⟩ := h
  rw [List.append_assoc] at hbytes
  obtain ⟨head, tail, rfl, _, htail⟩ := split_before_ascii c front ('/' :: back) '*' (by decide)
    hbytes.symm
  obtain ⟨head', tail', rfl, hhead', _⟩ := split_before_ascii tail [] back '/' (by decide) htail
  rw [eq_nil_of_bytes head' hhead']
  exact ⟨head, tail', by simp⟩

/-- The scan stays in a block comment until its end. -/
theorem stays_in_blockComment (s : Settings) (us after before : List Char) (pos : Nat) (d : Depth)
    (hus : ¬ ['*', '/'] <:+: us) (hafter : after.head? ≠ some '/') :
    stateFrom s after before ⟨.blockComment, d⟩ us = ⟨.blockComment, d⟩ ∧
      eventsFrom s after before pos ⟨.blockComment, d⟩ us = [] := by
  induction us generalizing before pos with
  | nil => exact ⟨rfl, rfl⟩
  | cons u us ih =>
    have hopen : (u == '*' && (us ++ after).head? == some '/') = false := by
      rw [Bool.and_eq_false_iff, beq_eq_false_iff_ne, beq_eq_false_iff_ne]
      by_contra hclosed
      obtain ⟨rfl, hnext⟩ : u = '*' ∧ (us ++ after).head? = some '/' := by tauto
      -- a star before a slash would end the comment in the text, or at its edge
      cases us with
      | nil => exact hafter hnext
      | cons v us =>
        obtain rfl : v = '/' := by simpa using hnext
        exact hus ⟨[], us, rfl⟩
    have hstep : step s before u (us ++ after) ⟨.blockComment, d⟩ = (⟨.blockComment, d⟩, none) := by
      simp only [step, Mode.action, hopen, Bool.false_eq_true, ↓reduceIte, Action.run]
    rw [stateFrom, eventsFrom, hstep]
    exact ih _ _ fun hinner => hus (hinner.trans (List.suffix_cons u us).isInfix)

theorem passedOver_blockComment (s : Settings) (hs : s.slashComments = true) (c : List Char)
    (hc : ¬ ['*', '/'] <:+: c) : PassedOver s .code (bytes (blockComment c)) := by
  have hopen : Leads s .code ['/', '*'] .blockComment := by
    intro after before pos d
    simp [stateFrom, eventsFrom, step, Mode.action, codeAction, isQuote, Action.run, emitted, hs]
  have hclose : Leads s .blockComment (bytes c ++ ['*', '/']) .code := by
    intro after before pos d
    obtain ⟨hstate, hevents⟩ := stays_in_blockComment s (bytes c) (['*', '/'] ++ after) before pos d
      (fun hinner => hc (infix_of_bytes c hinner)) (by simp)
    rw [stateFrom_append, eventsFrom_append, hstate, hevents]
    simp [stateFrom, eventsFrom, step, Mode.action, Action.run, emitted]
  rw [bytes_blockComment]
  exact hopen.append hclose

/-- From before, comments of one kind look the same, since they start with a slash. -/
theorem alike_slash (a b : List Char) (c : Char) : Alike ('/' :: c :: a) ('/' :: c :: b) := by
  constructor
  · rfl
  · intro q hq
    have hne : (q == '/') = false := by
      rw [beq_eq_false_iff_ne]
      rintro rfl
      cases hq
    simp [List.isPrefixOf, hne]

/-! ### Looking back over a line end -/

/-- Past a byte that is no blank the look back does not reach an earlier line. -/
theorem afterOperator_past_feed (b x : List Char) (hb : b.dropWhile isAsciiBlank ≠ []) :
    afterOperator (b ++ '\n' :: x) = afterOperator b := by
  unfold afterOperator
  rw [List.dropWhile_append, if_neg (by simpa using hb)]
  exact isPrefixOf_append_of_not_mem _ _ x _ (by decide)

/-- Of what stands before a byte of code only one thing counts, and only before a lone `<`. -/
theorem codeAction_before (s : Settings) (b b' : List Char) (c : Char) (rest : List Char)
    (h : c = '<' → s.angles = true → rest.head? ≠ some '<' → rest.head? ≠ some '=' →
      afterOperator b = afterOperator b') : codeAction s b c rest = codeAction s b' c rest := by
  by_cases hc : c = '<'
  · subst hc
    by_cases hangles : s.angles = true
    · by_cases hdouble : rest.head? = some '<'
      · simp [codeAction, isQuote, hangles, hdouble]
      · by_cases hcompare : rest.head? = some '='
        · simp [codeAction, isQuote, hangles, hcompare]
        · simp only [codeAction, h rfl hangles hdouble hcompare]
    · simp [codeAction, isQuote, hangles]
  · simp [codeAction, hc]

theorem scanFrom_past_feed (s : Settings) (b x y : List Char) (pos : Nat) (st : State)
    (us : List Char) (hb : b.dropWhile isAsciiBlank ≠ []) :
    scanFrom s (b ++ '\n' :: x) pos st us = scanFrom s (b ++ '\n' :: y) pos st us := by
  induction us generalizing b pos st with
  | nil => rfl
  | cons c us ih =>
    -- only code looks back, and it stops at the word behind the line feed
    have haction : st.mode.action s (b ++ '\n' :: x) c us =
        st.mode.action s (b ++ '\n' :: y) c us := by
      cases st.mode with
      | code =>
        apply codeAction_before
        intro _ _ _ _
        rw [afterOperator_past_feed b x hb, afterOperator_past_feed b y hb]
      | skip n m => rcases n with _ | _ | n <;> rfl
      | _ => rfl
    have hmore : (c :: b).dropWhile isAsciiBlank ≠ [] := by
      rw [List.dropWhile_cons]
      split_ifs
      · exact hb
      · exact List.cons_ne_nil c b
    rw [scanFrom_cons, scanFrom_cons, step, step, haction]
    exact congrArg _ (ih (c :: b) _ _ hmore)

theorem passedOver_blanks (s : Settings) (us : List Char) (h : ∀ u ∈ us, isAsciiBlank u = true) :
    PassedOver s .code us := by
  apply passedOver_bytes
  intro u hu
  apply passedOver_byte
  intro before rest
  have hblank := h u hu
  simp only [isAsciiBlank, Bool.or_eq_true, beq_iff_eq] at hblank
  rcases hblank with (((rfl | rfl) | rfl) | rfl) | rfl <;>
    simp [Mode.action, codeAction, singleAction, openClass?, closeClass?, isQuote]

/-- Behind two line ends, code is scanned alike exactly if its first byte that is no blank is not a
lone `<`, or the same stands before both line ends as far as the look back is concerned. -/
theorem scanFrom_feed_iff (s : Settings) (x y blanks : List Char) (u : Char) (us : List Char)
    (pos : Nat) (d : Depth) (hblanks : ∀ b ∈ blanks, isAsciiBlank b = true)
    (hu : isAsciiBlank u = false) :
    scanFrom s (blanks ++ '\n' :: x) pos ⟨.code, d⟩ (u :: us) =
        scanFrom s (blanks ++ '\n' :: y) pos ⟨.code, d⟩ (u :: us) ↔
      (u = '<' → s.angles = true → us.head? ≠ some '<' → us.head? ≠ some '=' →
        afterOperator x = afterOperator y) := by
  have hback (z : List Char) : afterOperator (blanks ++ '\n' :: z) = afterOperator z := by
    rw [afterOperator, List.dropWhile_append_of_pos hblanks, List.dropWhile_cons_of_pos rfl]
    rfl
  constructor
  · rintro hsame rfl hangles hdouble hcompare
    -- where the word is found the bracket gives no event, and elsewhere it gives one at its place
    have hhidden (z : List Char) (hz : afterOperator z = true) :
        step s (blanks ++ '\n' :: z) '<' us ⟨.code, d⟩ = (⟨.code, d⟩, none) := by
      simp [step, Mode.action, codeAction, isQuote, hangles, hdouble, hcompare, hback, hz,
        Action.run]
    have hopens (z : List Char) (hz : afterOperator z = false) :
        (step s (blanks ++ '\n' :: z) '<' us ⟨.code, d⟩).2 =
          some (.opening .angle, d.isZero) := by
      simp [step, Mode.action, codeAction, singleAction, openClass?, isQuote, hangles, hdouble,
        hcompare, hback, hz, Action.run]
    have hdiffer (z z' : List Char) (hz : afterOperator z = true) (hz' : afterOperator z' = false) :
        scanFrom s (blanks ++ '\n' :: z) pos ⟨.code, d⟩ ('<' :: us) ≠
          scanFrom s (blanks ++ '\n' :: z') pos ⟨.code, d⟩ ('<' :: us) := by
      intro heq
      have hmem : (⟨pos, .opening .angle, d.isZero⟩ : Event) ∈
          scanFrom s (blanks ++ '\n' :: z') pos ⟨.code, d⟩ ('<' :: us) := by
        rw [scanFrom_cons, hopens z' hz']
        exact List.mem_append_left _ (by simp [emitted])
      rw [← heq, scanFrom_cons, hhidden z hz] at hmem
      obtain ⟨vs, ws, _, hpos⟩ := event_at_token s _ (pos+1) _ us _ hmem
      dsimp only at hpos
      omega
    cases hx : afterOperator x <;> cases hy : afterOperator y
    · rfl
    · exact absurd hsame.symm (hdiffer y x hy hx)
    · exact absurd hsame (hdiffer x y hx hy)
    · rfl
  · intro h
    have haction : codeAction s (blanks ++ '\n' :: x) u us =
        codeAction s (blanks ++ '\n' :: y) u us := by
      apply codeAction_before
      rw [hback, hback]
      exact h
    have hword : (u :: blanks).dropWhile isAsciiBlank ≠ [] := by
      rw [List.dropWhile_cons_of_neg (by simp [hu])]
      exact List.cons_ne_nil u blanks
    rw [scanFrom_cons, scanFrom_cons, step, step, Mode.action, Mode.action, haction]
    exact congrArg _ (scanFrom_past_feed s (u :: blanks) x y _ _ us hword)

/-- The first thing in a text, blanks apart, is a `<` that is neither doubled nor the start of
`<=`. -/
def startsAngle (cs : List Char) : Bool :=
  match cs.dropWhile isAsciiBlank with
  | '<' :: rest => rest.head? != some '<' && rest.head? != some '='
  | _ => false

/-- A comment ends in the word `operator`, blanks apart. -/
def endsInOperator (c : List Char) : Bool := afterOperator (bytes c).reverse

/-- An ASCII byte comes first only where its character does. -/
theorem head?_bytes (cs : List Char) (a : Char) (ha : a.toNat < 128) :
    (bytes cs).head? = some a ↔ cs.head? = some a := by
  cases cs with
  | nil => rfl
  | cons c cs =>
    obtain ⟨u, us, hbytes, _⟩ := Quotation.bytes_tail_high c
    rw [bytes_cons, hbytes]
    by_cases hc : c.toNat < 128
    · rw [bytes_ascii c hc] at hbytes
      cases hbytes
      rfl
    · have hu := high_of_mem_bytes c u (by omega) (by simp [hbytes])
      have hleft : u ≠ a := by
        rintro rfl
        omega
      have hright : c ≠ a := by
        rintro rfl
        omega
      simp [hleft, hright]

theorem isAsciiBlank_ascii (c : Char) (h : isAsciiBlank c = true) : c.toNat < 128 := by
  simp only [isAsciiBlank, Bool.or_eq_true, beq_iff_eq] at h
  rcases h with (((rfl | rfl) | rfl) | rfl) | rfl <;> decide

/-- The same of a text behind the two line ends. -/
theorem scanFrom_line_iff (s : Settings) (x y rest : List Char) (pos : Nat) (d : Depth) :
    scanFrom s ('\n' :: x) pos ⟨.code, d⟩ (bytes rest) =
        scanFrom s ('\n' :: y) pos ⟨.code, d⟩ (bytes rest) ↔
      (s.angles = true → startsAngle rest = true → afterOperator x = afterOperator y) := by
  have hblank : ∀ b ∈ rest.takeWhile isAsciiBlank, isAsciiBlank b = true :=
    fun b hb => List.mem_takeWhile_imp hb
  have hbytes :
      bytes rest = rest.takeWhile isAsciiBlank ++ bytes (rest.dropWhile isAsciiBlank) := by
    rw [← bytes_of_ascii _ fun b hb => isAsciiBlank_ascii b (hblank b hb), ← bytes_append,
      List.takeWhile_append_dropWhile]
  -- the blanks behind the line end give no event, so the first other byte decides
  have hpassed (z : List Char) : scanFrom s ('\n' :: z) pos ⟨.code, d⟩ (bytes rest) =
      scanFrom s ((rest.takeWhile isAsciiBlank).reverse ++ '\n' :: z)
        (pos + (rest.takeWhile isAsciiBlank).length) ⟨.code, d⟩
        (bytes (rest.dropWhile isAsciiBlank)) := by
    obtain ⟨hstate, hevents⟩ := passedOver_blanks s _ hblank (bytes (rest.dropWhile isAsciiBlank))
      ('\n' :: z) pos d
    rw [hbytes, scanFrom_append, hstate, hevents, List.nil_append]
  have hreverse : ∀ b ∈ (rest.takeWhile isAsciiBlank).reverse, isAsciiBlank b = true :=
    fun b hb => hblank b (List.mem_reverse.mp hb)
  rw [hpassed, hpassed, startsAngle]
  cases hword : rest.dropWhile isAsciiBlank with
  | nil => simp [bytes, scanFrom]
  | cons c cs =>
    have hc : isAsciiBlank c = false := by
      have hne : rest.dropWhile isAsciiBlank ≠ [] := by simp [hword]
      have hhead := List.head_dropWhile_not isAsciiBlank hne
      simpa [hword] using hhead
    obtain ⟨u, us, hfirst, _⟩ := Quotation.bytes_tail_high c
    -- a first byte is a blank or an angle bracket only if its character is
    have hu : isAsciiBlank u = false ∧ (u = '<' ↔ c = '<') := by
      by_cases hlow : c.toNat < 128
      · rw [bytes_ascii c hlow] at hfirst
        cases hfirst
        exact ⟨hc, Iff.rfl⟩
      · have hhigh := high_of_mem_bytes c u (by omega) (by simp [hfirst])
        refine ⟨?_, ?_⟩
        · by_contra hblank
          have := isAsciiBlank_ascii u (by simpa using hblank)
          omega
        · constructor
          · rintro rfl
            exact absurd hhigh (by decide)
          · rintro rfl
            exact absurd hlow (by decide)
    rw [bytes_cons, hfirst, List.cons_append, scanFrom_feed_iff s x y _ u _ _ d hreverse hu.1, hu.2]
    by_cases hangle : c = '<'
    · subst hangle
      obtain ⟨_, rfl⟩ : u = '<' ∧ us = [] := by
        rw [bytes_ascii '<' (by decide)] at hfirst
        simpa using hfirst.symm
      simp only [List.nil_append, ne_eq, head?_bytes cs '<' (by decide),
        head?_bytes cs '=' (by decide), Bool.and_eq_true, bne_iff_ne, true_imp_iff, and_imp]
    · simp [hangle]

/-! ### Two comments -/

/-- The scan of a text with a comment of either kind, of which only the length and what stands
before the rest of the text count. -/
theorem scan_comments (s : Settings) (p k k' suffix : List Char)
    (hp : StandsInCode s p (k ++ suffix))
    (halike : Alike (bytes (k ++ suffix)) (bytes (k' ++ suffix)))
    (hk : PassedOver s .code (bytes k)) (hk' : PassedOver s .code (bytes k'))
    (hlength : byteLength k = byteLength k') :
    ∃ es d, scan s (p ++ k ++ suffix) = es ++ scanFrom s ((bytes k).reverse ++ (bytes p).reverse)
        (byteLength p + byteLength k) ⟨.code, d⟩ (bytes suffix) ∧
      scan s (p ++ k' ++ suffix) = es ++ scanFrom s ((bytes k').reverse ++ (bytes p).reverse)
        (byteLength p + byteLength k) ⟨.code, d⟩ (bytes suffix) := by
  have hstate := stateFrom_alike s _ _ [] {} (bytes p) halike trivial
  have hevents := eventsFrom_alike s _ _ [] 0 {} (bytes p) halike trivial
  -- from before, the comments look alike, so the scan meets them in the same state
  have hp' : StandsInCode s p (k' ++ suffix) := by
    unfold StandsInCode at hp ⊢
    rw [← hstate]
    exact hp
  rw [scan_past s p k suffix hp hk, scan_past s p k' suffix hp' hk', ← hstate, ← hevents, ← hlength,
    List.append_nil]
  unfold StandsInCode at hp
  generalize stateFrom s (bytes (k ++ suffix)) [] {} (bytes p) = st at hp ⊢
  obtain ⟨m, d⟩ := st
  obtain rfl : m = .code := hp
  exact ⟨_, d, rfl, rfl⟩

/-- Looking back from the end of its line, only the last word of a comment counts. -/
theorem afterOperator_lineComment (c x : List Char) :
    afterOperator ((bytes c).reverse ++ ['/', '/'] ++ x) = endsInOperator c := by
  rw [List.append_assoc]
  exact afterOperator_past_wall _ _ '/' rfl

/-- What a comment holds does not matter: another content of the same length gives the same events,
where the comment ends in a line end exactly if no lone `<` comes first behind it, blanks apart, or
both contents end in `operator` or neither does. -/
theorem comment_contents (s : Settings) (p c c' suffix : List Char) (hs : s.slashComments = true)
    (hlength : byteLength c = byteLength c') :
    ('\n' ∉ c → '\n' ∉ c' → StandsInCode s p (lineComment c ++ suffix) →
        (scan s (p ++ lineComment c ++ suffix) = scan s (p ++ lineComment c' ++ suffix) ↔
          (s.angles = true → startsAngle suffix = true → endsInOperator c = endsInOperator c'))) ∧
      (¬ ['*', '/'] <:+: c → ¬ ['*', '/'] <:+: c' → StandsInCode s p (blockComment c ++ suffix) →
        scan s (p ++ blockComment c ++ suffix) = scan s (p ++ blockComment c' ++ suffix)) := by
  constructor
  · intro hc hc' hp
    have halike : Alike (bytes (lineComment c ++ suffix)) (bytes (lineComment c' ++ suffix)) := by
      rw [bytes_append, bytes_append, bytes_lineComment, bytes_lineComment]
      exact alike_slash _ _ '/'
    have hsize : byteLength (lineComment c) = byteLength (lineComment c') := by
      simp only [lineComment, byteLength_append, hlength]
    obtain ⟨es, d, hscan, hscan'⟩ := scan_comments s p _ _ suffix hp halike
      (passedOver_lineComment s hs c hc) (passedOver_lineComment s hs c' hc') hsize
    have hbefore (c : List Char) : (bytes (lineComment c)).reverse ++ (bytes p).reverse =
        '\n' :: ((bytes c).reverse ++ ['/', '/'] ++ (bytes p).reverse) := by
      rw [bytes_lineComment]
      simp
    rw [hscan, hscan', List.append_cancel_left_eq, hbefore, hbefore, scanFrom_line_iff,
      afterOperator_lineComment, afterOperator_lineComment]
  · intro hc hc' hp
    have halike : Alike (bytes (blockComment c ++ suffix)) (bytes (blockComment c' ++ suffix)) := by
      rw [bytes_append, bytes_append, bytes_blockComment, bytes_blockComment]
      exact alike_slash _ _ '*'
    have hsize : byteLength (blockComment c) = byteLength (blockComment c') := by
      simp only [blockComment, byteLength_append, hlength]
    obtain ⟨es, d, hscan, hscan'⟩ := scan_comments s p _ _ suffix hp halike
      (passedOver_blockComment s hs c hc) (passedOver_blockComment s hs c' hc') hsize
    -- the slash that ends the comment is a wall
    have hbefore (c : List Char) : (bytes (blockComment c)).reverse ++ (bytes p).reverse =
        [] ++ '/' :: ('*' :: ((bytes c).reverse ++ ['*', '/'] ++ (bytes p).reverse)) := by
      rw [bytes_blockComment]
      simp
    rw [hscan, hscan', hbefore, hbefore, scanFrom_past_wall s [] _ _ '/' _ _ _ rfl]

/-- Two comments that end in `operator`, as one of a line before a template bracket and as blocks
before a comparison. -/
theorem comment_contents_operator :
    let s : Settings := { angles := true }
    let p := "template ".toList
    let c := " )\" operator ".toList
    let c' := " é operator\t".toList
    let suffix := "\n <T> f()".toList
    '\n' ∉ c ∧ '\n' ∉ c' ∧ StandsInCode s p (lineComment c ++ suffix) ∧
      startsAngle suffix = true ∧
      scan s (p ++ lineComment c ++ suffix) = scan s (p ++ lineComment c' ++ suffix) ∧
      ¬ ['*', '/'] <:+: c ∧ ¬ ['*', '/'] <:+: c' ∧ StandsInCode s p (blockComment c ++ suffix) ∧
      scan s (p ++ blockComment c ++ suffix) = scan s (p ++ blockComment c' ++ suffix) := by
  intro s p c c' suffix
  have hlines : '\n' ∉ c ∧ '\n' ∉ c' := by decide +kernel
  have hblocks : ¬ ['*', '/'] <:+: c ∧ ¬ ['*', '/'] <:+: c' := by decide +kernel
  have hline : StandsInCode s p (lineComment c ++ suffix) := by
    unfold StandsInCode
    decide +kernel
  have hblock : StandsInCode s p (blockComment c ++ suffix) := by
    unfold StandsInCode
    decide +kernel
  obtain ⟨hiff, heq⟩ := comment_contents s p c c' suffix rfl (by decide +kernel)
  exact ⟨hlines.1, hlines.2, hline, by decide +kernel, (hiff hlines.1 hlines.2 hline).mpr
    (fun _ _ => by decide +kernel), hblocks.1, hblocks.2, hblock, heq hblocks.1 hblocks.2 hblock⟩

/-- Behind a comment that ends in `operator` the bracket of a template is taken for a part of that
operator's name; behind a comment of the same length it is counted. -/
theorem operator_in_comment :
    let s : Settings := { angles := true }
    let p := "template ".toList
    let c := " cf. operator".toList
    let c' := " cf. elements".toList
    let suffix := "<typename T> T f()".toList
    byteLength c = byteLength c' ∧ '\n' ∉ c ∧ '\n' ∉ c' ∧
      StandsInCode s p (lineComment c ++ suffix) ∧
      scan s (p ++ lineComment c ++ suffix) =
        [⟨41, .opening .paren, true⟩, ⟨42, .closing .paren, true⟩] ∧
      scan s (p ++ lineComment c' ++ suffix) =
        [⟨25, .opening .angle, true⟩, ⟨36, .closing .angle, true⟩,
          ⟨41, .opening .paren, true⟩, ⟨42, .closing .paren, true⟩] := by
  unfold StandsInCode
  decide +kernel

end Synopsis.Delimiter
