import Synopsis.Proofs.Delimiter

/-! What surrounds a byte. The scan looks two bytes ahead and, past blanks, a word back; texts that
are alike there are scanned alike. Some texts are passed over whatever surrounds them. -/
namespace Synopsis.Delimiter

/-! ### What follows -/

/-- Two continuations that look the same from before: the same first byte, and the same quotes
twice. -/
structure Alike (a b : List Char) : Prop where
  head : a.head? = b.head?
  quotes : ∀ q, isQuote q = true → [q, q].isPrefixOf a = [q, q].isPrefixOf b

theorem Alike.append {a b : List Char} (h : Alike a b) (rest : List Char) :
    Alike (rest ++ a) (rest ++ b) := by
  constructor
  · rw [List.head?_append, List.head?_append, h.head]
  · intro q hq
    rcases rest with _ | ⟨d, _ | ⟨e, rest⟩⟩
    · exact h.quotes q hq
    · -- the second of two quotes is the first byte of what follows
      have hone (l : List Char) : [q].isPrefixOf l = (l.head? == some q) := by
        cases l with
        | nil => rfl
        | cons x l => simp [List.isPrefixOf, Bool.beq_comm]
      simp only [List.cons_append, List.nil_append, List.isPrefixOf_cons_cons, hone, h.head]
    · simp [List.isPrefixOf]

theorem action_alike (s : Settings) (before : List Char) (c : Char) (a b : List Char)
    (h : Alike a b) (m : Mode) (hm : m.Quoted) : m.action s before c a = m.action s before c b := by
  cases m with
  | code =>
    by_cases hq : isQuote c = true
    · simp only [Mode.action, codeAction, h.head, h.quotes c hq]
    · simp only [Mode.action, codeAction, h.head, hq, Bool.false_eq_true, ↓reduceIte]
  | blockComment => simp only [Mode.action, h.head]
  | longLiteral q => simp only [Mode.action, h.quotes q hm]
  | skip n m => rcases n with _ | _ | n <;> rfl
  | _ => rfl

theorem step_alike (s : Settings) (before : List Char) (c : Char) (a b : List Char)
    (h : Alike a b) (st : State) (hst : st.mode.Quoted) :
    step s before c a st = step s before c b st := by
  rw [step, action_alike s before c a b h st.mode hst, step]

theorem stateFrom_alike (s : Settings) (a b before : List Char) (st : State) (us : List Char)
    (h : Alike a b) (hst : st.mode.Quoted) :
    stateFrom s a before st us = stateFrom s b before st us := by
  induction us generalizing before st with
  | nil => rfl
  | cons c us ih =>
    rw [stateFrom, stateFrom, step_alike s before c _ _ (h.append us) st hst]
    exact ih _ _ (step_quoted s before c _ st hst)

theorem eventsFrom_alike (s : Settings) (a b before : List Char) (pos : Nat) (st : State)
    (us : List Char) (h : Alike a b) (hst : st.mode.Quoted) :
    eventsFrom s a before pos st us = eventsFrom s b before pos st us := by
  induction us generalizing before pos st with
  | nil => rfl
  | cons c us ih =>
    rw [eventsFrom, eventsFrom, step_alike s before c _ _ (h.append us) st hst]
    exact congrArg _ (ih _ _ _ (step_quoted s before c _ st hst))

/-! ### What went before -/

/-- Behind a wall it makes no difference what stands before the wall. -/
theorem scanFrom_past_wall (s : Settings) (b x y : List Char) (w : Char) (pos : Nat) (st : State)
    (us : List Char) (hw : isWall w = true) :
    scanFrom s (b ++ w :: x) pos st us = scanFrom s (b ++ w :: y) pos st us := by
  induction us generalizing b pos st with
  | nil => rfl
  | cons c us ih =>
    have hstep : step s (b ++ w :: x) c us st = step s (b ++ w :: y) c us st := by
      rw [step, step, action_past_wall s b x w c us _ hw, action_past_wall s b y w c us _ hw]
    rw [scanFrom_cons, scanFrom_cons, hstep]
    exact congrArg _ (ih (c :: b) _ _)

/-- A blank at the very beginning is out of sight. -/
theorem afterOperator_first_blank (b : List Char) :
    afterOperator (b ++ [' ']) = afterOperator b := by
  unfold afterOperator
  rw [List.dropWhile_append]
  split_ifs with he
  · have hb : b.dropWhile isAsciiBlank = [] := by simpa using he
    rw [hb]
    rfl
  · exact isPrefixOf_append_of_not_mem _ _ [] ' ' (by decide)

theorem step_first_blank (s : Settings) (b : List Char) (c : Char) (rest : List Char)
    (st : State) : step s (b ++ [' ']) c rest st = step s b c rest st := by
  have haction : st.mode.action s (b ++ [' ']) c rest = st.mode.action s b c rest := by
    cases st.mode with
    | code => simp only [Mode.action, codeAction, afterOperator_first_blank]
    | skip n m => rcases n with _ | _ | n <;> rfl
    | _ => rfl
  rw [step, haction, step]

theorem stateFrom_first_blank (s : Settings) (after b : List Char) (st : State)
    (us : List Char) : stateFrom s after (b ++ [' ']) st us = stateFrom s after b st us := by
  induction us generalizing b st with
  | nil => rfl
  | cons c us ih =>
    rw [stateFrom, stateFrom, step_first_blank]
    exact ih (c :: b) _

/-- A blank before some bytes and one after them bring no stray closing delimiter. -/
theorem matchedFrom_blanks (s : Settings) (b : List Char) (st : State) (us : List Char)
    (hst : st.mode.Quoted) :
    matchedFrom s (b ++ [' ']) st (us ++ [' ']) = matchedFrom s b st us := by
  induction us generalizing b st with
  | nil => simp [matchedFrom, isStray, closeClass?]
  | cons c us ih =>
    have hblank : Unseen s [' '] := unseen_of_inert s _ (inert_cons _ _ rfl)
    rw [List.cons_append, matchedFrom, matchedFrom, step_first_blank,
      step_append_unseen s b c us [' '] st hblank hst]
    exact congrArg _ (ih (c :: b) _ (step_quoted s b c us st hst))

/-- A balanced text stays balanced with a blank on either side. -/
theorem Balanced.spaced {s : Settings} {cs : List Char} (h : Balanced s cs) :
    Balanced s (" ".toList ++ cs ++ " ".toList) := by
  have hbytes : Text.bytes (" ".toList ++ cs ++ " ".toList) = ' ' :: (Text.bytes cs ++ [' ']) := by
    rw [Text.bytes_append, Text.bytes_append]
    rfl
  have hfirst (rest : List Char) : step s [] ' ' rest {} = ({}, none) := rfl
  have hlast (b : List Char) : step s b ' ' [] {} = ({}, none) := rfl
  have hblank : Unseen s [' '] := unseen_of_inert s _ (inert_cons _ _ rfl)
  constructor
  · have hclosed : stateFrom s [' '] [' '] {} (Text.bytes cs) = {} := by
      rw [stateFrom_unseen s [' '] [' '] {} _ hblank trivial]
      exact (stateFrom_first_blank s [] [] {} _).trans h.closed
    rw [stateAfter, hbytes, stateFrom, hfirst, stateFrom_append, List.append_nil, hclosed,
      stateFrom, List.append_nil, hlast]
    rfl
  · have hmatched : matchedFrom s [' '] {} (Text.bytes cs ++ [' ']) = true :=
      (matchedFrom_blanks s [] {} _ trivial).trans h.matched
    rw [hbytes, matchedFrom, hfirst, hmatched]
    rfl

/-! ### Texts that are passed over -/

/-- The bytes keep a mode and the depths and give no event, whatever stands around them. -/
def PassedOver (s : Settings) (m : Mode) (us : List Char) : Prop :=
  ∀ after before pos d, stateFrom s after before ⟨m, d⟩ us = ⟨m, d⟩ ∧
    eventsFrom s after before pos ⟨m, d⟩ us = []

theorem eventsFrom_append (s : Settings) (after before : List Char) (pos : Nat) (st : State)
    (us vs : List Char) :
    eventsFrom s after before pos st (us ++ vs) =
      eventsFrom s (vs ++ after) before pos st us ++
        eventsFrom s after (us.reverse ++ before) (pos + us.length)
          (stateFrom s (vs ++ after) before st us) vs := by
  induction us generalizing before pos st with
  | nil => rfl
  | cons c us ih =>
    rw [List.cons_append, eventsFrom, ih, eventsFrom, stateFrom, List.append_assoc,
      List.append_assoc, List.reverse_cons, List.append_assoc, List.singleton_append,
      List.length_cons, show pos + 1 + us.length = pos + (us.length + 1) by omega]

theorem passedOver_nil (s : Settings) (m : Mode) : PassedOver s m [] := by
  intro after before pos d
  exact ⟨rfl, rfl⟩

theorem PassedOver.append {s : Settings} {m : Mode} {us vs : List Char}
    (hus : PassedOver s m us) (hvs : PassedOver s m vs) : PassedOver s m (us ++ vs) := by
  intro after before pos d
  obtain ⟨hstate, hevents⟩ := hus (vs ++ after) before pos d
  obtain ⟨hstate', hevents'⟩ := hvs after (us.reverse ++ before) (pos + us.length) d
  rw [stateFrom_append, eventsFrom_append, hstate, hevents, hstate', hevents']
  exact ⟨rfl, rfl⟩

/-- A byte that never leaves the mode is passed over. -/
theorem passedOver_byte (s : Settings) (m : Mode) (c : Char)
    (h : ∀ before rest, m.action s before c rest = .move m) : PassedOver s m [c] := by
  intro after before pos d
  have hstep : step s before c ([] ++ after) ⟨m, d⟩ = (⟨m, d⟩, none) := by
    rw [step, h]
    rfl
  rw [stateFrom, stateFrom, eventsFrom, eventsFrom, hstep]
  exact ⟨rfl, rfl⟩

/-- Bytes of which each is passed over are passed over together. -/
theorem passedOver_bytes (s : Settings) (m : Mode) (us : List Char)
    (h : ∀ u ∈ us, PassedOver s m [u]) : PassedOver s m us := by
  induction us with
  | nil => exact passedOver_nil s m
  | cons c us ih =>
    have hc := h c List.mem_cons_self
    exact hc.append (ih fun u hu => h u (List.mem_cons_of_mem c hu))

end Synopsis.Delimiter
