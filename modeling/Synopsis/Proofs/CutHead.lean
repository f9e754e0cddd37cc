import Synopsis.Proofs.AngleCut
import Synopsis.Proofs.Cut

/-! What stands before a cut. Scanned alone it gives the events of the whole text up to the cut,
closes all it opens, and ends outside literals and comments. -/
namespace Synopsis.Delimiter
open Text

/-! ### Tokens that nothing before them looks at -/

/-- Where angle brackets are no delimiters nothing looks for an equals sign. -/
theorem unseen_equals (s : Settings) (hs : s.angles = false) (tail : List Char) :
    Unseen s ('=' :: tail) := by
  have hhead (rest : List Char) (x : Char) (hx : '=' ≠ x) :
      ((rest ++ '=' :: tail).head? == some x) = (rest.head? == some x) := by
    cases rest with
    | cons d rest => rfl
    | nil => simpa using hx
  have hquotes (rest : List Char) (q : Char) (hq : isQuote q = true) :
      [q, q].isPrefixOf (rest ++ '=' :: tail) = [q, q].isPrefixOf rest := by
    apply isPrefixOf_append_of_not_mem
    intro hmem
    obtain rfl : '=' = q := by simpa using hmem
    cases hq
  -- no mode looks for an equals sign behind a byte
  intro before c rest m hm
  cases m with
  | code =>
    simp only [Mode.action, codeAction, hs, hhead rest '/' (by decide),
      hhead rest '*' (by decide), hhead rest '>' (by decide), Bool.and_false, Bool.false_and]
    by_cases hq : isQuote c = true
    · rw [hquotes rest c hq]
    · simp [hq]
  | blockComment => simp only [Mode.action, hhead rest '/' (by decide)]
  | longLiteral q => simp only [Mode.action, hquotes rest q hm]
  | skip n m => rcases n with _ | _ | n <;> rfl
  | _ => rfl

theorem unseen_token (s : Settings) (t : Token) (tail : List Char)
    (ht : isContinuation t.char = false ∨ (t = .arrow ∧ s.angles = false)) :
    Unseen s (t.char :: tail) := by
  rcases ht with ht | ⟨rfl, hs⟩
  · exact unseen_of_inert s _ (inert_cons _ tail ht)
  · exact unseen_equals s hs tail

/-! ### The part of a text before a token -/

theorem depth_eq_of_isZero (d : Depth) (h : d.isZero = true) : d = {} := by
  obtain ⟨p, k, b, a⟩ := d
  simp only [Depth.isZero, Bool.and_eq_true, beq_iff_eq] at h
  obtain ⟨⟨⟨rfl, rfl⟩, rfl⟩, rfl⟩ := h
  rfl

/-- A step gives a top-level token that closes nothing only from code with nothing open. -/
theorem state_of_top_token (s : Settings) (before : List Char) (c : Char) (rest : List Char)
    (st : State) (t : Token) (ht : ∀ k, t ≠ .closing k)
    (h : (step s before c rest st).2 = some (t, true)) : st = {} := by
  obtain ⟨hmode, _⟩ := action_token s before c rest st.mode t (run_token _ _ _ _ h)
  obtain ⟨_, _, htop⟩ := run_counts _ _ t true h
  have haround : st.depth.around t = st.depth := by
    cases t with
    | closing k => exact absurd rfl (ht k)
    | opening k => rfl
    | arrow => rfl
    | colon => rfl
  rw [haround] at htop
  obtain ⟨m, d⟩ := st
  rw [depth_eq_of_isZero d htop.symm, show m = .code from hmode]

/-- A top-level token that closes nothing and that nothing looks at from before divides the scan:
the part before it is scanned as on its own, to a state in which nothing is open. -/
theorem scan_before_token (s : Settings) (t : List Char) (token : Token) (i : Nat)
    (hclose : ∀ k, token ≠ .closing k)
    (hsight : isContinuation token.char = false ∨ (token = .arrow ∧ s.angles = false))
    (he : ⟨i, token, true⟩ ∈ scan s t) :
    ∃ head tail rest, t = head ++ tail ∧ i = byteLength head ∧ stateAfter s head = {} ∧
      scan s t = scan s head ++ ⟨i, token, true⟩ :: rest ∧ ∀ e ∈ rest, i < e.pos := by
  obtain ⟨vs, c, ws, hbytes, hpos, hstep⟩ := step_at_event s [] 0 {} (bytes t) _ he
  obtain ⟨_, rfl⟩ := action_token s _ c ws _ token (run_token _ _ _ _ hstep)
  obtain ⟨head, tail, rfl, rfl, rfl⟩ :=
    split_before_ascii t vs ws token.char (token_char_ascii token) hbytes
  have hunseen := unseen_token s token (bytes tail) hsight
  have hstate := state_of_top_token s _ _ _ _ token hclose hstep
  -- the token is out of sight, so the head alone is scanned to the same state
  have halone : stateAfter s head = {} := by
    rw [stateFrom_unseen s _ [] {} _ hunseen trivial] at hstate
    exact hstate
  have hi : i = byteLength head := by
    rw [← length_bytes]
    simpa using hpos
  have hscan : scan s (head ++ token.char :: tail) = scan s head ++
      scanFrom s ((bytes head).reverse ++ []) (0 + (bytes head).length) {}
        (token.char :: bytes tail) := by
    rw [scan, hbytes, scanFrom_append_unseen s [] 0 {} _ _ hunseen trivial]
    change _ ++ scanFrom s _ _ (stateAfter s head) _ = _
    rw [halone]
    rfl
  rw [hstate] at hstep
  rw [scanFrom_cons, hstep, length_bytes, Nat.zero_add, ← hi] at hscan
  refine ⟨head, _, _, rfl, hi, halone, hscan, ?_⟩
  intro e hmem
  obtain ⟨us, _, _, hlater⟩ := event_at_token s _ _ _ _ e hmem
  omega

/-! ### Blanks at the end -/

/-- Inside a literal or a comment. -/
def Mode.inside : Mode → Bool
  | .code => false
  | .skip _ m => m.inside
  | _ => true

theorem continuation_char (u : Char) (h : isContinuation u = true) :
    u.toNat < 128 ∧ Text.isBlank u = false := by
  simp only [isContinuation, isQuote, Bool.or_eq_true, beq_iff_eq] at h
  rcases h with ((((((rfl | rfl) | rfl) | rfl) | rfl) | rfl) | rfl) | rfl <;> decide

/-- The bytes of blanks continue nothing and escape nothing. -/
theorem blank_bytes (cs : List Char) (hcs : ∀ c ∈ cs, isBlank c = true) (u : Char)
    (hu : u ∈ bytes cs) : isContinuation u = false ∧ u ≠ '\\' ∧ (u = '\n' → '\n' ∈ cs) := by
  -- the byte is a blank of one byte, or a high one
  rcases mem_bytes_cases cs u hu with hmem | hhigh
  · have hblank := hcs u hmem
    refine ⟨?_, ?_, ?_⟩
    · by_contra hu
      have hnot := (continuation_char u (by simpa using hu)).2
      rw [hblank] at hnot
      cases hnot
    · rintro rfl
      cases hblank
    · rintro rfl
      exact hmem
  · refine ⟨?_, ?_, ?_⟩
    · by_contra hu
      have hlow := (continuation_char u (by simpa using hu)).1
      omega
    · rintro rfl
      exact absurd hhigh (by decide)
    · rintro rfl
      exact absurd hhigh (by decide)

theorem inert_blanks (cs : List Char) (hcs : ∀ c ∈ cs, isBlank c = true) : Inert (bytes cs) := by
  intro u hu
  exact (blank_bytes cs hcs u (List.mem_of_mem_head? hu)).1

/-- Blanks at the end of a text give no event. -/
theorem scan_trimEnd (s : Settings) (cs : List Char) : scan s (trimEnd cs) = scan s cs := by
  obtain ⟨blanks, hcs, hblanks⟩ := exists_blanks cs
  have hscan : scan s cs = scan s (trimEnd cs) ++ scanFrom s ((bytes (trimEnd cs)).reverse ++ [])
      (0 + (bytes (trimEnd cs)).length) (stateFrom s [] [] {} (bytes (trimEnd cs)))
      (bytes blanks) := by
    conv_lhs => rw [hcs]
    rw [scan, bytes_append]
    exact scanFrom_append_inert s [] 0 {} _ _ (inert_blanks blanks hblanks) trivial
  -- an event among the blanks would lie before them
  have hnone : scanFrom s ((bytes (trimEnd cs)).reverse ++ []) (0 + (bytes (trimEnd cs)).length)
      (stateFrom s [] [] {} (bytes (trimEnd cs))) (bytes blanks) = [] := by
    apply List.eq_nil_iff_forall_not_mem.mpr
    intro e he
    have hlt : e.pos < byteLength (trimEnd cs) := by
      apply event_before_blanks s cs e
      rw [hscan]
      exact List.mem_append_right _ he
    obtain ⟨us, _, _, hpos⟩ := event_at_token s _ _ _ _ e he
    rw [length_bytes] at hpos
    omega
  rw [hscan, hnone, List.append_nil]

/-- Inside a literal or a comment a byte leads out only as a line feed or a delimiter. -/
theorem step_inside (s : Settings) (before : List Char) (c : Char) (rest : List Char)
    (st : State) (hquoted : st.mode.Quoted) (hst : st.mode.inside = true)
    (hc : isContinuation c = false) (hescape : c ≠ '\\') (hline : c ≠ '\n') :
    (step s before c rest st).1.mode.inside = true := by
  have hquote (q : Char) (hq : isQuote q = true) : c ≠ q := by
    rintro rfl
    simp [isContinuation, hq] at hc
  have hstar : c ≠ '*' := by
    rintro rfl
    cases hc
  obtain ⟨m, d⟩ := st
  cases m with
  | code => cases hst
  | lineComment => simp [step, Mode.action, Action.run, hline, Mode.inside]
  | blockComment => simp [step, Mode.action, Action.run, hstar, Mode.inside]
  | literal q => simp [step, Mode.action, Action.run, hescape, hline, hquote q hquoted, Mode.inside]
  | longLiteral q =>
    simp [step, Mode.action, Action.run, hescape, hquote q hquoted, Mode.inside]
  | skip n m => rcases n with _ | _ | n <;> exact hst

theorem stateFrom_inside (s : Settings) (before : List Char) (st : State) (us : List Char)
    (hquoted : st.mode.Quoted) (hst : st.mode.inside = true)
    (hus : ∀ u ∈ us, isContinuation u = false ∧ u ≠ '\\' ∧ u ≠ '\n') :
    (stateFrom s [] before st us).mode.inside = true := by
  induction us generalizing before st with
  | nil => exact hst
  | cons c us ih =>
    obtain ⟨hc, hescape, hline⟩ := hus c List.mem_cons_self
    rw [stateFrom]
    apply ih
    · exact step_quoted s before c _ st hquoted
    · exact step_inside s before c _ st hquoted hst hc hescape hline
    · intro u hu
      exact hus u (List.mem_cons_of_mem c hu)

theorem stateFrom_quoted (s : Settings) (after before : List Char) (st : State) (us : List Char)
    (hst : st.mode.Quoted) : (stateFrom s after before st us).mode.Quoted := by
  induction us generalizing before st with
  | nil => exact hst
  | cons c us ih => exact ih _ _ (step_quoted s before c _ st hst)

/-- Where blanks lead out of a literal or a comment, one of them ends its line. -/
theorem newline_of_inside (s : Settings) (cs blanks : List Char)
    (hblanks : ∀ c ∈ blanks, isBlank c = true) (hcode : stateAfter s (cs ++ blanks) = {})
    (hinside : (stateAfter s cs).mode.inside = true) : '\n' ∈ blanks := by
  by_contra hline
  have hbytes : ∀ u ∈ bytes blanks, isContinuation u = false ∧ u ≠ '\\' ∧ u ≠ '\n' := by
    intro u hu
    obtain ⟨hc, hescape, hnewline⟩ := blank_bytes blanks hblanks u hu
    exact ⟨hc, hescape, fun h => hline (hnewline h)⟩
  have hunseen := unseen_of_inert s _ (inert_blanks blanks hblanks)
  have hquoted : (stateAfter s cs).mode.Quoted := stateFrom_quoted s [] [] {} _ trivial
  have hstill := stateFrom_inside s ((bytes cs).reverse ++ []) (stateAfter s cs) (bytes blanks)
    hquoted hinside hbytes
  have hend : stateAfter s (cs ++ blanks) =
      stateFrom s [] ((bytes cs).reverse ++ []) (stateAfter s cs) (bytes blanks) := by
    rw [stateAfter, bytes_append, stateFrom_append, List.append_nil (bytes blanks),
      stateFrom_unseen s _ [] {} _ hunseen trivial]
    rfl
  rw [← hend, hcode] at hstill
  cases hstill

end Synopsis.Delimiter

namespace Synopsis.Body
open Delimiter Text

/-- What stands before offset `i` of a text, and what a cut there leaves of it. -/
structure CleanHead (s : Settings) (t : List Char) (i : Nat) (head : List Char) : Prop where
  isPrefix : head <+: t
  offset : i = byteLength head
  /-- Scanned alone it gives the events of the whole text before the offset. -/
  stable : scan s head = (scan s t).filter (·.pos < i)
  settled : Settled (scan s head)
  /-- It ends outside literals and comments, with nothing open. -/
  outside : stateAfter s head = {}
  /-- A cut of the trimmed text leaves it without the blanks at its end. -/
  left : trim t = t → head ≠ [] → cutAt? t (some i) = some (trimEnd head)
  left_settled : scan s (trimEnd head) = scan s head
  /-- Only the end of a line that was trimmed can have ended a literal or a comment. -/
  left_outside : (stateAfter s (trimEnd head)).mode.inside = true →
    ∃ blanks, head = trimEnd head ++ blanks ∧ '\n' ∈ blanks

theorem trimEnd_ne_nil (head tail : List Char) (ht : trim (head ++ tail) = head ++ tail)
    (hhead : head ≠ []) : trimEnd head ≠ [] := by
  intro hnil
  have hstart : trimStart head = head := by
    refine trimStart_of_isPrefix head (head ++ tail) (List.prefix_append head tail) ?_
    have h := trimStart_trim (head ++ tail)
    rwa [ht] at h
  have hall := List.rdropWhile_eq_nil_iff.mp hnil
  have hdrop : trimStart head = [] := List.dropWhile_eq_nil_iff.mpr hall
  rw [hstart] at hdrop
  exact hhead hdrop

/-- A top-level token that closes nothing and that nothing looks at from before has a clean
head. -/
theorem cleanHead_of_token (s : Settings) (t : List Char) (token : Token) (i : Nat)
    (hclose : ∀ k, token ≠ .closing k)
    (hsight : isContinuation token.char = false ∨ (token = .arrow ∧ s.angles = false))
    (he : ⟨i, token, true⟩ ∈ scan s t) : ∃ head, CleanHead s t i head := by
  obtain ⟨head, tail, rest, rfl, hi, hstate, hscan, hrest⟩ :=
    scan_before_token s t token i hclose hsight he
  have hbefore : ∀ e ∈ scan s head, e.pos < i := by
    intro e hmem
    rw [hi]
    exact (event_spelled s head e hmem).1
  have hstable : scan s head = (scan s (head ++ tail)).filter (·.pos < i) := by
    have hlater : rest.filter (·.pos < i) = [] := by
      rw [List.filter_eq_nil_iff]
      intro e hmem
      have hlt := hrest e hmem
      simp only [decide_eq_true_eq]
      omega
    have hkeep : (scan s head).filter (·.pos < i) = scan s head := by
      rw [List.filter_eq_self]
      intro e hmem
      simpa using hbefore e hmem
    simp [hscan, hkeep, hlater]
  -- the token is at top level, so by the laws of events nothing is open before it
  have hsettled : Settled (scan s head) := by
    have hlawful : Lawful {} (scan s (head ++ tail)) := scanFrom_lawful s [] 0 {} _
    rw [hscan] at hlawful
    have hout : outside (scan s head) ⟨i, token, true⟩ = scan s head := by
      cases token with
      | closing k => exact absurd rfl (hclose k)
      | opening k => rfl
      | arrow => rfl
      | colon => rfl
    have htop := (topLevel_iff_settled (scan s head) rest ⟨i, token, true⟩ hlawful).mp rfl
    rwa [hout] at htop
  refine ⟨head, List.prefix_append head tail, hi, hstable, hsettled, hstate, ?_,
    scan_trimEnd s head, ?_⟩
  · intro ht hhead
    rw [hi]
    exact cutAt?_head head tail ht (trimEnd_ne_nil head tail ht hhead)
  · intro hinside
    obtain ⟨blanks, hsplit, hblanks⟩ := exists_blanks head
    refine ⟨blanks, hsplit, newline_of_inside s (trimEnd head) blanks hblanks ?_ hinside⟩
    rw [← hsplit]
    exact hstate

/-- The brace of a body is top level without angle brackets, whatever the flags. -/
theorem top_brace_of_brace? (angles afterParams : Bool) (t : List Char) (i : Nat)
    (h : brace? angles afterParams t = some i) : ⟨i, .opening .brace, true⟩ ∈ scan {} t := by
  cases angles with
  | true => exact (candidate_of_brace? afterParams t i h).opens
  | false =>
    rw [brace?_plain] at h
    exact (candidate_of_braceOf false afterParams t i h).1.opens

theorem top_arrow_of_arrow? (t : List Char) (i : Nat) (h : arrow? t = some i) :
    ⟨i, .arrow, true⟩ ∈ scan {} t := by
  rcases Option.or_eq_some_iff.mp h with h | ⟨_, h⟩
  · exact mem_scan_of_angles t _ (mem_of_firstTop? .arrow _ i h) rfl rfl
  · exact mem_of_firstTop? .arrow _ i h

/-- Whatever a cut is made at, a body's brace, an arrow or a colon, has a clean head: scanned alone,
without angle brackets, it gives the events of the whole text before the cut, closes all it opens
and ends outside literals and comments, and so does what a cut leaves of it, but for the end of a
line trimmed from it. -/
theorem cut_heads_clean (t : List Char) :
    (∀ angles afterParams i, brace? angles afterParams t = some i → ∃ head, CleanHead {} t i head) ∧
      (∀ i, arrow? t = some i → ∃ head, CleanHead {} t i head) ∧
      ∀ i, colon? t = some i →
        ∃ head, CleanHead { slashComments := false, hashComments := true } t i head := by
  refine ⟨?_, ?_, ?_⟩
  · intro angles afterParams i h
    exact cleanHead_of_token {} t (.opening .brace) i (by simp) (.inl rfl)
      (top_brace_of_brace? angles afterParams t i h)
  · intro i h
    exact cleanHead_of_token {} t .arrow i (by simp) (.inr ⟨rfl, rfl⟩) (top_arrow_of_arrow? t i h)
  · intro i h
    exact cleanHead_of_token _ t .colon i (by simp) (.inl rfl) (mem_of_firstTop? .colon _ i h)

/-- A comparison that keeps an angle bracket open, with the brace found only without them, and a
parenthesis in a literal. -/
theorem cut_heads_clean_comparison :
    let t := "f(a < b, \")\") \x7b x \x7d".toList
    braceOf true true t = none ∧ brace? true true t = some 14 ∧ ∃ head, CleanHead {} t 14 head := by
  intro t
  have hbrace : brace? true true t = some 14 := by decide +kernel
  exact ⟨by decide +kernel, hbrace, (cut_heads_clean t).1 true true 14 hbrace⟩

end Synopsis.Body
