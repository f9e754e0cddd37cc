import Synopsis.Proofs.Events

/-! The scan with angle brackets as delimiters beside the scan without them. The two run in
step but for the bytes after a `<`: `<<` and `<=` are read as one there, so that the arrow in
`<=>` is seen by the second scan only. -/
namespace Synopsis.Delimiter

/-- The same settings with angle brackets as delimiters, or not. -/
def Settings.withAngles (s : Settings) (angles : Bool) : Settings := { s with angles }

def Token.isAngle : Token → Bool
  | .opening .angle | .closing .angle => true
  | _ => false

/-- Neither an angle bracket nor an arrow. -/
def Token.isPlain (t : Token) : Bool := !t.isAngle && t != .arrow

/-- The modes of the two scans before the bytes `us`. -/
inductive InStep : Mode → Mode → List Char → Prop
  | same (m : Mode) (us : List Char) : InStep m m us
  -- the second byte of `<<` or `<=`, passed over where angle brackets count
  | pair (c : Char) (us : List Char) (hc : c = '<' ∨ c = '=') :
      InStep (.skip 1 .code) .code (c :: us)
  -- the `>` of `<=>`, part of an arrow where they do not
  | arrow (us : List Char) : InStep .code (.skip 1 .code) ('>' :: us)

/-- What one byte does in the two scans, when `rest` follows. -/
inductive Together : Action → Action → List Char → Prop
  | same (a : Action) (rest : List Char) (h : ∀ t, a = .token t → t.isAngle = false) :
      Together a a rest
  | angle (t : Token) (rest : List Char) (h : t.isAngle = true) :
      Together (.token t) (.move .code) rest
  | pair (c : Char) (rest : List Char) (hc : c = '<' ∨ c = '=') :
      Together (.move (.skip 1 .code)) (.move .code) (c :: rest)
  | arrow (rest : List Char) : Together (.move .code) (.token .arrow) ('>' :: rest)

/-- Only `<` and `>` are read differently. -/
theorem codeAction_withAngles (s : Settings) (before : List Char) (c : Char)
    (rest : List Char) (hlt : c ≠ '<') (hgt : c ≠ '>') :
    codeAction (s.withAngles true) before c rest =
      codeAction (s.withAngles false) before c rest := by
  have hopen : openClass? true c = openClass? false c := by
    unfold openClass?
    split <;> first | rfl | exact absurd rfl hlt
  have hclose : closeClass? true c = closeClass? false c := by
    unfold closeClass?
    split <;> first | rfl | exact absurd rfl hgt
  have hsingle : singleAction true c = singleAction false c := by
    simp only [singleAction, hopen, hclose]
  have hne : (c == '<') = false := by simpa using hlt
  simp [codeAction, Settings.withAngles, hne, hsingle]

theorem codeAction_not_angle (s : Settings) (before : List Char) (c : Char) (rest : List Char)
    (t : Token) (hlt : c ≠ '<') (hgt : c ≠ '>')
    (h : codeAction s before c rest = .token t) : t.isAngle = false := by
  obtain ⟨hc, _⟩ := codeAction_token s before c rest t h
  rcases t with k | k | _ | _
  · cases k
    case angle => exact absurd hc hlt
    all_goals rfl
  · cases k
    case angle => exact absurd hc hgt
    all_goals rfl
  · rfl
  · rfl

theorem codeAction_lt (s : Settings) (before rest : List Char) :
    codeAction (s.withAngles false) before '<' rest = .move .code := by
  simp [codeAction, Settings.withAngles, singleAction, openClass?, closeClass?, isQuote]

theorem codeAction_gt (s : Settings) (angles : Bool) (before rest : List Char) :
    codeAction (s.withAngles angles) before '>' rest =
      if angles then .token (.closing .angle) else .move .code := by
  cases angles <;>
    simp [codeAction, Settings.withAngles, singleAction, openClass?, closeClass?, isQuote]

/-- An equals sign starts an arrow or does nothing. -/
theorem codeAction_equals (s : Settings) (before rest : List Char) :
    codeAction (s.withAngles false) before '=' rest =
      if rest.head? = some '>' then .token .arrow else .move .code := by
  simp [codeAction, Settings.withAngles, singleAction, openClass?, closeClass?, isQuote]

theorem codeAction_together (s : Settings) (before : List Char) (c : Char) (rest : List Char) :
    Together (codeAction (s.withAngles true) before c rest)
      (codeAction (s.withAngles false) before c rest) rest := by
  by_cases hlt : c = '<'
  · subst hlt
    rw [codeAction_lt]
    simp only [codeAction, Settings.withAngles, isQuote]
    simp only [Char.reduceBEq, Bool.false_and, Bool.or_self, Bool.false_eq_true, ↓reduceIte,
      Bool.true_and]
    split_ifs with hnext hword
    · obtain ⟨d, hd, hmem⟩ : ∃ d, (d = '<' ∨ d = '=') ∧ rest.head? = some d := by
        simpa using hnext
      obtain ⟨tail, rfl⟩ := List.head?_eq_some_iff.mp hmem
      exact .pair d tail hd
    · exact .same _ _ (by simp)
    · exact .angle (.opening .angle) rest rfl
  · by_cases hgt : c = '>'
    · subst hgt
      rw [codeAction_gt, codeAction_gt]
      exact .angle (.closing .angle) rest rfl
    · rw [codeAction_withAngles s before c rest hlt hgt]
      exact .same _ _ fun t h => codeAction_not_angle _ before c rest t hlt hgt h

/-- Outside code the modes do not look at angle brackets. -/
theorem action_withAngles (s : Settings) (before : List Char) (c : Char) (rest : List Char)
    (m : Mode) (hm : m ≠ .code) :
    ∃ n, m.action (s.withAngles true) before c rest = .move n ∧
      m.action (s.withAngles false) before c rest = .move n := by
  cases m with
  | code => exact absurd rfl hm
  | skip n m => rcases n with _ | _ | n <;> exact ⟨_, rfl, rfl⟩
  | _ => exact ⟨_, rfl, rfl⟩

theorem action_together (s : Settings) (before : List Char) (c : Char) (rest : List Char)
    (m m' : Mode) (h : InStep m m' (c :: rest)) :
    Together (m.action (s.withAngles true) before c rest)
      (m'.action (s.withAngles false) before c rest) rest := by
  cases h with
  | same =>
    by_cases hm : m = .code
    · subst hm
      exact codeAction_together s before c rest
    · obtain ⟨n, hon, hoff⟩ := action_withAngles s before c rest m hm
      rw [hon, hoff]
      exact .same _ _ (by simp)
  | pair _ _ hc =>
    -- the second byte of `<<` or `<=`: the scan without angles reads it as code
    change Together (.move .code) (codeAction _ before c rest) rest
    rcases hc with rfl | rfl
    · rw [codeAction_lt]
      exact .same _ _ (by simp)
    · rw [codeAction_equals]
      split_ifs with hnext
      · obtain ⟨tail, rfl⟩ := List.head?_eq_some_iff.mp hnext
        exact .arrow tail
      · exact .same _ _ (by simp)
  | arrow =>
    change Together (codeAction (s.withAngles true) before '>' rest) (.move .code) rest
    rw [codeAction_gt]
    exact .angle (.closing .angle) rest rfl

/-! ### The event lists -/

/-- The first list has the events of the second, less some arrows and with some no longer top
level, and events of angle brackets between them. -/
inductive Hides : List Event → List Event → Prop
  | nil : Hides [] []
  | angle {es fs : List Event} (e : Event) (he : e.token.isAngle = true) (h : Hides es fs) :
      Hides (e :: es) fs
  | arrow {es fs : List Event} (f : Event) (hf : f.token = .arrow) (h : Hides es fs) :
      Hides es (f :: fs)
  | keep {es fs : List Event} (pos : Nat) (t : Token) (top top' : Bool)
      (ht : t.isAngle = false) (htop : top = true → top' = true) (h : Hides es fs) :
      Hides (⟨pos, t, top⟩ :: es) (⟨pos, t, top'⟩ :: fs)

theorem Hides.append {es fs es' fs' : List Event} (h : Hides es fs) (h' : Hides es' fs') :
    Hides (es ++ es') (fs ++ fs') := by
  induction h with
  | nil => exact h'
  | angle e he _ ih => exact .angle e he ih
  | arrow f hf _ ih => exact .arrow f hf ih
  | keep pos t top top' ht htop _ ih => exact .keep pos t top top' ht htop ih

/-- An event of the first list that is no angle bracket has its place in the second, and is top
level there if it is in the first. -/
theorem Hides.exists_mem {es fs : List Event} (h : Hides es fs) (e : Event) (he : e ∈ es)
    (htoken : e.token.isAngle = false) :
    ∃ top, ⟨e.pos, e.token, top⟩ ∈ fs ∧ (e.topLevel = true → top = true) := by
  induction h with
  | nil => simp at he
  | angle e' he' _ ih =>
    rcases List.mem_cons.mp he with rfl | he
    · simp [he'] at htoken
    · exact ih he
  | arrow f _ _ ih =>
    obtain ⟨top, hmem, htop⟩ := ih he
    exact ⟨top, List.mem_cons_of_mem f hmem, htop⟩
  | keep pos t top top' _ htop _ ih =>
    rcases List.mem_cons.mp he with rfl | he
    · exact ⟨top', List.mem_cons_self, htop⟩
    · obtain ⟨top, hmem, htop⟩ := ih he
      exact ⟨top, List.mem_cons_of_mem _ hmem, htop⟩

/-- A top-level event of the first list that is no angle bracket is one of the second. -/
theorem Hides.mem_of_topLevel {es fs : List Event} (h : Hides es fs) (e : Event) (he : e ∈ es)
    (htoken : e.token.isAngle = false) (htop : e.topLevel = true) : e ∈ fs := by
  obtain ⟨top, hmem, himp⟩ := h.exists_mem e he htoken
  rw [himp htop, ← htop] at hmem
  exact hmem

/-- Both lists have the same brackets and colons in the same places. -/
theorem Hides.plain {es fs : List Event} (h : Hides es fs) :
    (es.filter (·.token.isPlain)).map (fun e => (e.pos, e.token)) =
      (fs.filter (·.token.isPlain)).map (fun e => (e.pos, e.token)) := by
  induction h with
  | nil => rfl
  | angle e he _ ih => simpa [Token.isPlain, he] using ih
  | arrow f hf _ ih => simpa [Token.isPlain, hf] using ih
  | keep pos t top top' ht _ _ ih => by_cases hp : t.isPlain = true <;> simp [hp, ih]

/-! ### The two runs -/

def Depth.withoutAngle (d : Depth) : Depth := { d with angle := 0 }

theorem isZero_withoutAngle (d : Depth) (h : d.isZero = true) :
    d.withoutAngle.isZero = true := by
  simp only [Depth.isZero, Bool.and_eq_true, beq_iff_eq] at h
  simp [Depth.isZero, Depth.withoutAngle, h]

/-- The states after one byte and its events, in the two scans. -/
structure StepsTogether (pos : Nat) (rest : List Char)
    (r r' : State × Option (Token × Bool)) : Prop where
  mode : InStep r.1.mode r'.1.mode rest
  depth : r'.1.depth = r.1.depth.withoutAngle
  events : Hides (emitted pos r.2) (emitted pos r'.2)

theorem hides_emitted (pos : Nat) (t : Token) (top top' : Bool) (ht : t.isAngle = false)
    (htop : top = true → top' = true) :
    Hides (emitted pos (some (t, top))) (emitted pos (some (t, top'))) :=
  .keep pos t top top' ht htop .nil

/-- A token that is no angle bracket is counted alike. -/
theorem run_same (pos : Nat) (rest : List Char) (a : Action) (d : Depth)
    (h : ∀ t, a = .token t → t.isAngle = false) :
    StepsTogether pos rest (a.run d) (a.run d.withoutAngle) := by
  have hzero := isZero_withoutAngle d
  -- the forms of an action; of the depths only a bracket reads its own
  rcases a with m | k | k | _ | _
  · exact ⟨.same _ _, rfl, .nil⟩
  · have ht := h _ rfl
    cases k
    case angle => cases ht
    all_goals exact ⟨.same _ _, rfl, hides_emitted pos _ _ _ ht hzero⟩
  · have ht := h _ rfl
    have hk : d.withoutAngle.get k = d.get k := by
      cases k
      case angle => cases ht
      all_goals rfl
    have hset (n : Nat) : d.withoutAngle.set k n = (d.set k n).withoutAngle := by
      cases k
      case angle => cases ht
      all_goals rfl
    simp only [Action.run, hk, hset]
    split_ifs
    · exact ⟨.same _ _, rfl, .nil⟩
    · exact ⟨.same _ _, rfl, hides_emitted pos _ _ _ ht (isZero_withoutAngle _)⟩
  · exact ⟨.same _ _, rfl, hides_emitted pos _ _ _ rfl hzero⟩
  · exact ⟨.same _ _, rfl, hides_emitted pos _ _ _ rfl hzero⟩

theorem run_together (pos : Nat) (rest : List Char) (a a' : Action) (d : Depth)
    (h : Together a a' rest) : StepsTogether pos rest (a.run d) (a'.run d.withoutAngle) := by
  cases h with
  | same _ _ h => exact run_same pos rest a d h
  | angle t _ h =>
    rcases t with k | k | _ | _
    · cases k <;> cases h
      exact ⟨.same _ _, rfl, .angle _ rfl .nil⟩
    · cases k <;> cases h
      simp only [Action.run]
      split_ifs
      · exact ⟨.same _ _, rfl, .nil⟩
      · exact ⟨.same _ _, rfl, .angle _ rfl .nil⟩
    · cases h
    · cases h
  | pair c rest hc => exact ⟨.pair c rest hc, rfl, .nil⟩
  | arrow rest => exact ⟨.arrow rest, rfl, .arrow _ rfl .nil⟩

theorem scanFrom_hides (s : Settings) (before : List Char) (pos : Nat) (m m' : Mode)
    (d : Depth) (us : List Char) (h : InStep m m' us) :
    Hides (scanFrom (s.withAngles true) before pos ⟨m, d⟩ us)
      (scanFrom (s.withAngles false) before pos ⟨m', d.withoutAngle⟩ us) := by
  -- the modes may be out of step for a byte or two; the depths differ in the angles only
  induction us generalizing before pos m m' d with
  | nil => exact .nil
  | cons c us ih =>
    have hstep : StepsTogether pos us (step (s.withAngles true) before c us ⟨m, d⟩)
        (step (s.withAngles false) before c us ⟨m', d.withoutAngle⟩) :=
      run_together pos us _ _ d (action_together s before c us m m' h)
    have hlater := ih (c :: before) (pos+1) _ _
      (step (s.withAngles true) before c us ⟨m, d⟩).1.depth hstep.mode
    rw [← hstep.depth] at hlater
    rw [scanFrom_cons, scanFrom_cons]
    exact hstep.events.append hlater

/-- Counting angle brackets only hides: what else is seen is seen without them too. -/
theorem scan_hides (s : Settings) (cs : List Char) :
    Hides (scan (s.withAngles true) cs) (scan (s.withAngles false) cs) :=
  scanFrom_hides s [] 0 .code .code {} (Text.bytes cs) (.same _ _)

end Synopsis.Delimiter
