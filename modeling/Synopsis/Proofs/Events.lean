import Synopsis.Proofs.Delimiter

/-! What every list of events is like: offsets grow, each event spells its token, no closing
delimiter counts without an opening one, and `topLevel` is what a replay of the list says. -/
namespace Synopsis.Delimiter

/-- The bytes of a token. -/
def Token.text : Token → List Char
  | .arrow => ['=', '>']
  | t => [t.char]

/-! ### Offsets and spelling -/

/-- A token given by a step is spelled by the byte and those after it. -/
theorem step_spelled (s : Settings) (before : List Char) (c : Char) (rest : List Char)
    (st : State) (t : Token) (top : Bool)
    (h : (step s before c rest st).2 = some (t, top)) : t.text <+: c :: rest := by
  have haction := run_token _ _ t top h
  obtain ⟨hmode, rfl⟩ := action_token s before c rest st.mode t haction
  cases t with
  | arrow =>
    rw [hmode, Mode.action] at haction
    have hnext := (codeAction_token s before _ rest .arrow haction).2 rfl
    obtain ⟨tail, rfl⟩ : ∃ tail, rest = '>' :: tail :=
      ⟨rest.tail, List.eq_cons_of_mem_head? hnext⟩
    exact ⟨tail, rfl⟩
  | opening k => exact ⟨rest, rfl⟩
  | closing k => exact ⟨rest, rfl⟩
  | colon => exact ⟨rest, rfl⟩

theorem event_spelled (s : Settings) (cs : List Char) (e : Event) (he : e ∈ scan s cs) :
    e.pos < Text.byteLength cs ∧ e.token.text <+: (Text.bytes cs).drop e.pos := by
  obtain ⟨vs, c, ws, hbytes, hpos, hr⟩ := step_at_event s [] 0 {} _ e he
  rw [Nat.zero_add] at hpos
  rw [← Text.length_bytes, hbytes, hpos]
  constructor
  · simp
  · rw [List.drop_left]
    exact step_spelled s _ c ws _ e.token e.topLevel hr

/-- The token of an event stands in the text as a character. -/
theorem split_at_event (s : Settings) (cs : List Char) (e : Event) (he : e ∈ scan s cs) :
    ∃ head tail, cs = head ++ e.token.char :: tail ∧ e.pos = Text.byteLength head := by
  obtain ⟨vs, ws, hbytes, hpos⟩ := event_at_token s [] 0 {} (Text.bytes cs) e he
  obtain ⟨head, tail, rfl, hhead, _⟩ :=
    Text.split_before_ascii cs vs ws e.token.char (token_char_ascii e.token) hbytes
  refine ⟨head, tail, rfl, ?_⟩
  rw [hpos, ← hhead, Text.length_bytes, Nat.zero_add]

theorem token_char_not_blank (t : Token) : Text.isBlank t.char = false := by
  rcases t with k | k | _ | _
  · cases k <;> rfl
  · cases k <;> rfl
  · rfl
  · rfl

/-- No event lies in the blanks at the end of a text. -/
theorem event_before_blanks (s : Settings) (cs : List Char) (e : Event) (he : e ∈ scan s cs) :
    e.pos < Text.byteLength (Text.trimEnd cs) := by
  obtain ⟨head, tail, rfl, hpos⟩ := split_at_event s cs e he
  have hc := Char.utf8Size_pos e.token.char
  rw [hpos, Text.trimEnd_append_cons head tail _ (token_char_not_blank e.token),
    Text.byteLength_append, Text.byteLength]
  omega

theorem scanFrom_ordered (s : Settings) (before : List Char) (pos : Nat) (st : State)
    (us : List Char) :
    (scanFrom s before pos st us).Pairwise (fun a b => a.pos < b.pos) := by
  induction us generalizing before pos st with
  | nil => simp [scanFrom]
  | cons c us ih =>
    rw [scanFrom_cons, List.pairwise_append]
    refine ⟨?_, ih _ _ _, ?_⟩
    · cases (step s before c us st).2 <;> simp [emitted]
    · -- the event of this byte, if any, lies here, and all others further on
      intro a ha b hb
      simp only [emitted, Option.mem_toList, Option.map_eq_some_iff] at ha
      obtain ⟨x, _, rfl⟩ := ha
      obtain ⟨vs, ws, _, hpos⟩ := event_at_token _ _ _ _ _ b hb
      dsimp only
      omega

theorem scan_ordered (s : Settings) (cs : List Char) :
    (scan s cs).Pairwise (fun a b => a.pos < b.pos) :=
  scanFrom_ordered s [] 0 {} (Text.bytes cs)

theorem length_scanFrom_le (s : Settings) (before : List Char) (pos : Nat) (st : State)
    (us : List Char) : (scanFrom s before pos st us).length ≤ us.length := by
  induction us generalizing before pos st with
  | nil => simp [scanFrom]
  | cons c us ih =>
    have hone : (emitted pos (step s before c us st).2).length ≤ 1 := by
      cases (step s before c us st).2 <;> simp [emitted]
    have hlater := ih (c :: before) (pos+1) (step s before c us st).1
    rw [scanFrom_cons, List.length_append, List.length_cons]
    omega

/-! ### Replay of the counters -/

/-- The depth after a token. -/
def Depth.after (d : Depth) : Token → Depth
  | .opening k => d.set k (d.get k + 1)
  | .closing k => d.set k (d.get k - 1)
  | _ => d

/-- The depth outside a token: before an opening delimiter and after a closing one. -/
def Depth.around (d : Depth) : Token → Depth
  | .closing k => d.after (.closing k)
  | _ => d

/-- The depth after some events. -/
def replay (d : Depth) (es : List Event) : Depth := es.foldl (fun d e => d.after e.token) d

/-- From depth `d` on, every closing delimiter of the list closes something, and `topLevel`
says that nothing is open outside the token. -/
def Lawful : Depth → List Event → Prop
  | _, [] => True
  | d, e :: es => (∀ k, e.token = .closing k → d.get k ≠ 0) ∧
      e.topLevel = (d.around e.token).isZero ∧ Lawful (d.after e.token) es

theorem isZero_iff (d : Depth) : d.isZero = true ↔ ∀ k, d.get k = 0 := by
  constructor
  · intro h k
    simp only [Depth.isZero, Bool.and_eq_true, beq_iff_eq] at h
    cases k <;> simp [Depth.get, h]
  · intro h
    have hp : d.paren = 0 := h .paren
    have hk : d.bracket = 0 := h .bracket
    have hb : d.brace = 0 := h .brace
    have ha : d.angle = 0 := h .angle
    simp [Depth.isZero, hp, hk, hb, ha]

theorem get_set (d : Depth) (k j : Class) (n : Nat) :
    (d.set k n).get j = if k = j then n else d.get j := by
  cases k <;> cases j <;> rfl

/-- An action that gives no token leaves the depth alone. -/
theorem run_silent (a : Action) (d : Depth) (h : (a.run d).2 = none) :
    (a.run d).1.depth = d := by
  rcases a with m | k | k | _ | _
  · rfl
  · cases h
  · simp only [Action.run] at h ⊢
    split_ifs at h ⊢
    rfl
  · cases h
  · cases h

/-- An action that gives a token counts it, and a closing delimiter counts only if one of its
class is open. -/
theorem run_counts (a : Action) (d : Depth) (t : Token) (top : Bool)
    (h : (a.run d).2 = some (t, top)) :
    (a.run d).1.depth = d.after t ∧ (∀ k, t = .closing k → d.get k ≠ 0) ∧
      top = (d.around t).isZero := by
  obtain rfl := run_token a d t top h
  rcases t with k | k | _ | _
  · cases h
    exact ⟨rfl, by simp, rfl⟩
  · simp only [Action.run] at h ⊢
    split_ifs at h ⊢ with hk
    cases h
    refine ⟨rfl, ?_, rfl⟩
    rintro j hj
    cases hj
    simpa using hk
  · cases h
    exact ⟨rfl, by simp, rfl⟩
  · cases h
    exact ⟨rfl, by simp, rfl⟩

theorem scanFrom_lawful (s : Settings) (before : List Char) (pos : Nat) (st : State)
    (us : List Char) : Lawful st.depth (scanFrom s before pos st us) := by
  -- the depth of the state is carried along: a silent byte keeps it, a token counts in it
  induction us generalizing before pos st with
  | nil => trivial
  | cons c us ih =>
    rw [scanFrom_cons]
    have hlater := ih (c :: before) (pos+1) (step s before c us st).1
    cases hr : (step s before c us st).2 with
    | none =>
      have hdepth : (step s before c us st).1.depth = st.depth := run_silent _ _ hr
      rw [hdepth] at hlater
      exact hlater
    | some x =>
      obtain ⟨t, top⟩ := x
      obtain ⟨hdepth, hopen, htop⟩ := run_counts _ _ t top hr
      change (step s before c us st).1.depth = st.depth.after t at hdepth
      rw [hdepth] at hlater
      exact ⟨hopen, htop, hlater⟩

/-! ### Counting events -/

def openings (k : Class) (es : List Event) : Nat := es.countP (·.token == .opening k)

def closings (k : Class) (es : List Event) : Nat := es.countP (·.token == .closing k)

/-- As many opening as closing delimiters of every class. -/
def Settled (es : List Event) : Prop := ∀ k, openings k es = closings k es

/-- The events to count for `e`, which follows `es`: those before it, and a closing delimiter
itself, which stands outside what it closes. -/
def outside (es : List Event) (e : Event) : List Event :=
  match e.token with
  | .closing _ => es ++ [e]
  | _ => es

theorem openings_cons (k : Class) (e : Event) (es : List Event) :
    openings k (e :: es) = openings k es + if e.token = .opening k then 1 else 0 := by
  simp [openings, List.countP_cons]

theorem closings_cons (k : Class) (e : Event) (es : List Event) :
    closings k (e :: es) = closings k es + if e.token = .closing k then 1 else 0 := by
  simp [closings, List.countP_cons]

theorem lawful_left (d : Depth) (es fs : List Event) (h : Lawful d (es ++ fs)) :
    Lawful d es := by
  induction es generalizing d with
  | nil => trivial
  | cons e es ih => exact ⟨h.1, h.2.1, ih _ h.2.2⟩

theorem lawful_right (d : Depth) (es fs : List Event) (h : Lawful d (es ++ fs)) :
    Lawful (replay d es) fs := by
  induction es generalizing d with
  | nil => exact h
  | cons e es ih => exact ih _ h.2.2

/-- One counted token moves the counter of its class by one. -/
theorem get_after (d : Depth) (t : Token) (k : Class)
    (h : ∀ j, t = .closing j → d.get j ≠ 0) :
    (d.after t).get k + (if t = .closing k then 1 else 0) =
      d.get k + if t = .opening k then 1 else 0 := by
  cases t with
  | opening j =>
    by_cases hj : j = k
    · subst hj
      simp [Depth.after, get_set]
    · simp [Depth.after, get_set, hj]
  | closing j =>
    have hopen : d.get j ≠ 0 := h j rfl
    by_cases hj : j = k
    · subst hj
      simp only [Depth.after, get_set, ↓reduceIte, reduceCtorEq]
      omega
    · simp [Depth.after, get_set, hj]
  | arrow => simp [Depth.after]
  | colon => simp [Depth.after]

/-- The counters of a lawful list are the difference of the two counts. -/
theorem get_replay (d : Depth) (es : List Event) (k : Class) (h : Lawful d es) :
    (replay d es).get k + closings k es = d.get k + openings k es := by
  induction es generalizing d with
  | nil => rfl
  | cons e es ih =>
    have htail := ih (d.after e.token) h.2.2
    have hhead := get_after d e.token k h.1
    rw [openings_cons, closings_cons]
    change (replay (d.after e.token) es).get k + _ = _
    omega

theorem closings_le_openings (es : List Event) (h : Lawful {} es) (k : Class) :
    closings k es ≤ openings k es := by
  have hcount := get_replay {} es k h
  have hzero : ({} : Depth).get k = 0 := by cases k <;> rfl
  omega

theorem isZero_replay (es : List Event) (h : Lawful {} es) :
    (replay {} es).isZero = true ↔ Settled es := by
  rw [isZero_iff]
  refine forall_congr' fun k => ?_
  have hcount := get_replay {} es k h
  have hzero : ({} : Depth).get k = 0 := by cases k <;> rfl
  omega

theorem around_replay (es : List Event) (e : Event) :
    (replay {} es).around e.token = replay {} (outside es e) := by
  unfold outside
  split
  next k hk => simp [replay, hk, Depth.around]
  next hk =>
    unfold Depth.around
    split
    next k htoken => exact absurd htoken (hk k)
    next => rfl

/-- Whether an event is top level can be read off the events before it and its own token. -/
theorem topLevel_iff_settled (es rest : List Event) (e : Event)
    (h : Lawful {} (es ++ e :: rest)) : e.topLevel = true ↔ Settled (outside es e) := by
  -- the events counted for `e` are a beginning of the list, with or without `e`
  have hout : Lawful {} (outside es e) := by
    unfold outside
    split
    · exact lawful_left {} (es ++ [e]) rest (by simpa using h)
    · exact lawful_left {} es _ h
  obtain ⟨_, htop, _⟩ := lawful_right {} es _ h
  rw [htop, around_replay, isZero_replay _ hout]

/-- The events of every scan, of at most one event a byte: offsets grow inside the text, the
bytes at an offset spell the token, in every beginning of the list each class has at most as
many closing as opening events, and an event is top level exactly when the counts agree
outside it. -/
theorem scan_events_lawful (s : Settings) (cs : List Char) :
    (scan s cs).length ≤ Text.byteLength cs ∧
      (scan s cs).Pairwise (fun a b => a.pos < b.pos) ∧
      (∀ e ∈ scan s cs, e.pos < Text.byteLength cs ∧
        e.token.text <+: (Text.bytes cs).drop e.pos) ∧
      (∀ es rest, scan s cs = es ++ rest → ∀ k, closings k es ≤ openings k es) ∧
      (∀ es e rest, scan s cs = es ++ e :: rest →
        (e.topLevel = true ↔ Settled (outside es e))) := by
  have hlawful : Lawful {} (scan s cs) := scanFrom_lawful s [] 0 {} (Text.bytes cs)
  refine ⟨?_, scan_ordered s cs, event_spelled s cs, ?_, ?_⟩
  · rw [← Text.length_bytes]
    exact length_scanFrom_le s [] 0 {} (Text.bytes cs)
  · intro es rest hsplit k
    rw [hsplit] at hlawful
    exact closings_le_openings es (lawful_left {} es rest hlawful) k
  · intro es e rest hsplit
    rw [hsplit] at hlawful
    exact topLevel_iff_settled es rest e hlawful

end Synopsis.Delimiter
