import Synopsis.Delimiter
import Synopsis.Proofs.Text

/-! The scan as a run of `step`: the state it reaches, how it passes from one part of a text
to the next, and what it does inside a pair of braces. -/
namespace Synopsis.Delimiter

/-- The state after some bytes, when `after` follows them. -/
def stateFrom (s : Settings) (after before : List Char) (st : State) : List Char → State
  | [] => st
  | c :: rest => stateFrom s after (c :: before) (step s before c (rest ++ after) st).1 rest

/-- The event of a token at an offset, if there is one. -/
def emitted (pos : Nat) (r : Option (Token × Bool)) : List Event :=
  (r.map fun x => ⟨pos, x.1, x.2⟩).toList

/-- The events of some bytes, when `after` follows them. -/
def eventsFrom (s : Settings) (after before : List Char) (pos : Nat) (st : State) :
    List Char → List Event
  | [] => []
  | c :: rest =>
    let r := step s before c (rest ++ after) st
    emitted pos r.2 ++ eventsFrom s after (c :: before) (pos + 1) r.1 rest

/-- The state in which the scan of a whole text stops. -/
def stateAfter (s : Settings) (cs : List Char) : State := stateFrom s [] [] {} (Text.bytes cs)

theorem scanFrom_cons (s : Settings) (before : List Char) (pos : Nat) (st : State) (c : Char)
    (rest : List Char) :
    scanFrom s before pos st (c :: rest) = emitted pos (step s before c rest st).2 ++
      scanFrom s (c :: before) (pos + 1) (step s before c rest st).1 rest := by
  rw [scanFrom]
  split
  next t top h => rw [h]; rfl
  next h => rw [h]; rfl

/-- The scan of two parts: of the first with the second in sight, then of the second from the
state reached. -/
theorem scanFrom_append (s : Settings) (before : List Char) (pos : Nat) (st : State)
    (us vs : List Char) :
    scanFrom s before pos st (us ++ vs) =
      eventsFrom s vs before pos st us ++
        scanFrom s (us.reverse ++ before) (pos + us.length) (stateFrom s vs before st us) vs := by
  induction us generalizing before pos st with
  | nil => simp [eventsFrom, stateFrom]
  | cons c us ih =>
    rw [List.cons_append, scanFrom_cons, ih, eventsFrom, stateFrom, List.append_assoc,
      List.reverse_cons, List.append_assoc, List.singleton_append, List.length_cons,
      show pos + 1 + us.length = pos + (us.length + 1) by omega]

theorem stateFrom_append (s : Settings) (after before : List Char) (st : State)
    (us vs : List Char) :
    stateFrom s after before st (us ++ vs) =
      stateFrom s after (us.reverse ++ before) (stateFrom s (vs ++ after) before st us) vs := by
  induction us generalizing before st with
  | nil => rfl
  | cons c us ih =>
    rw [List.cons_append, stateFrom, ih, stateFrom, List.append_assoc, List.reverse_cons,
      List.append_assoc, List.singleton_append]

/-! ### Tokens and the bytes that start them -/

def Class.openChar : Class → Char
  | .paren => '('
  | .bracket => '['
  | .brace => '\x7b'
  | .angle => '<'

def Class.closeChar : Class → Char
  | .paren => ')'
  | .bracket => ']'
  | .brace => '\x7d'
  | .angle => '>'

/-- The first byte of a token. -/
def Token.char : Token → Char
  | .opening k => k.openChar
  | .closing k => k.closeChar
  | .arrow => '='
  | .colon => ':'

theorem token_char_ascii (t : Token) : t.char.toNat < 128 := by
  rcases t with k | k | _ | _
  · cases k <;> decide
  · cases k <;> decide
  · decide
  · decide

theorem openClass?_eq_some (angles : Bool) (c : Char) (k : Class)
    (h : openClass? angles c = some k) : c = k.openChar := by
  unfold openClass? at h
  split at h
  case h_4 =>
    split at h
    · cases h; rfl
    · cases h
  all_goals cases h <;> rfl

theorem closeClass?_eq_some (angles : Bool) (c : Char) (k : Class)
    (h : closeClass? angles c = some k) : c = k.closeChar := by
  unfold closeClass? at h
  split at h
  case h_4 =>
    split at h
    · cases h; rfl
    · cases h
  all_goals cases h <;> rfl

/-- The quote of a literal is a quote. -/
def Mode.Quoted : Mode → Prop
  | .literal q | .longLiteral q => isQuote q = true
  | .skip _ m => m.Quoted
  | _ => True

/-- What a byte of code may do, when `rest` follows it: enter a mode, or give a token that it is the
first byte of, an arrow only before the second one. -/
def Action.Fits (c : Char) (rest : List Char) : Action → Prop
  | .move m => m.Quoted
  | .token t => c = t.char ∧ (t = .arrow → rest.head? = some '>')

theorem singleAction_fits (angles : Bool) (c : Char) (rest : List Char) :
    (singleAction angles c).Fits c rest := by
  unfold singleAction
  split
  next k _ hk => exact ⟨openClass?_eq_some _ _ _ hk, fun harrow => by cases harrow⟩
  next k _ hk => exact ⟨closeClass?_eq_some _ _ _ hk, fun harrow => by cases harrow⟩
  next =>
    split_ifs with hcolon
    · exact ⟨by simpa [Token.char] using hcolon, fun harrow => by cases harrow⟩
    · trivial

theorem codeAction_fits (s : Settings) (before : List Char) (c : Char) (rest : List Char) :
    (codeAction s before c rest).Fits c rest := by
  unfold codeAction
  dsimp only
  split_ifs with _ hquote _ _ _ harrow
  · trivial
  -- a quote enters a literal, a long one if it is the first of three
  · exact hquote
  · exact hquote
  · trivial
  · trivial
  · obtain ⟨hc, hnext⟩ := Bool.and_eq_true_iff.mp harrow
    exact ⟨by simpa [Token.char] using hc, fun _ => by simpa using hnext⟩
  · trivial
  · trivial
  · trivial
  · exact singleAction_fits s.angles c rest

/-- A byte of code starts a token only as the first byte of its text. -/
theorem codeAction_token (s : Settings) (before : List Char) (c : Char) (rest : List Char)
    (t : Token) (h : codeAction s before c rest = .token t) :
    c = t.char ∧ (t = .arrow → rest.head? = some '>') := by
  have hfits := codeAction_fits s before c rest
  rwa [h] at hfits

theorem codeAction_quoted (s : Settings) (before : List Char) (c : Char) (rest : List Char)
    (n : Mode) (h : codeAction s before c rest = .move n) : n.Quoted := by
  have hfits := codeAction_fits s before c rest
  rwa [h] at hfits

theorem action_token (s : Settings) (before : List Char) (c : Char) (rest : List Char)
    (m : Mode) (t : Token) (h : m.action s before c rest = .token t) :
    m = .code ∧ c = t.char := by
  unfold Mode.action at h
  split at h
  · exact ⟨rfl, (codeAction_token s before c rest t h).1⟩
  all_goals cases h

/-- A token given by an action is the one it starts. -/
theorem run_token (a : Action) (d : Depth) (t : Token) (top : Bool)
    (h : (a.run d).2 = some (t, top)) : a = .token t := by
  rcases a with m | k | k | _ | _
  · cases h
  · cases h
    rfl
  · simp only [Action.run] at h
    split_ifs at h
    cases h
    rfl
  · cases h
    rfl
  · cases h
    rfl

/-- An event was given by the step at its byte, from the state reached there. -/
theorem step_at_event (s : Settings) (before : List Char) (pos : Nat) (st : State)
    (us : List Char) (e : Event) (he : e ∈ scanFrom s before pos st us) :
    ∃ vs c ws, us = vs ++ c :: ws ∧ e.pos = pos + vs.length ∧
      (step s (vs.reverse ++ before) c ws (stateFrom s (c :: ws) before st vs)).2 =
        some (e.token, e.topLevel) := by
  induction us generalizing before pos st with
  | nil => simp [scanFrom] at he
  | cons c us ih =>
    rw [scanFrom_cons, List.mem_append] at he
    rcases he with he | he
    · simp only [emitted, Option.mem_toList, Option.map_eq_some_iff] at he
      obtain ⟨⟨t, top⟩, hr, rfl⟩ := he
      exact ⟨[], c, us, rfl, rfl, hr⟩
    · -- a later byte: its offset counts from here, one byte on
      obtain ⟨vs, d, ws, rfl, hpos, hr⟩ := ih _ _ _ he
      refine ⟨c :: vs, d, ws, rfl, by rw [hpos, List.length_cons]; omega, ?_⟩
      rw [List.reverse_cons, List.append_assoc, List.singleton_append, stateFrom]
      exact hr

/-- An event lies at the first byte of its token. -/
theorem event_at_token (s : Settings) (before : List Char) (pos : Nat) (st : State)
    (us : List Char) (e : Event) (he : e ∈ scanFrom s before pos st us) :
    ∃ vs ws, us = vs ++ e.token.char :: ws ∧ e.pos = pos + vs.length := by
  obtain ⟨vs, c, ws, rfl, hpos, hr⟩ := step_at_event s before pos st us e he
  obtain ⟨_, rfl⟩ := action_token s _ c ws _ e.token (run_token _ _ _ _ hr)
  exact ⟨vs, ws, rfl, hpos⟩

/-! ### What may follow without a difference -/

/-- Bytes that can be the second or third one of a token, a comment marker or a quote. -/
def isContinuation (c : Char) : Bool :=
  isQuote c || c == '/' || c == '*' || c == '>' || c == '<' || c == '='

/-- A text whose first byte continues nothing begun before it. -/
def Inert (after : List Char) : Prop := ∀ c ∈ after.head?, isContinuation c = false

theorem head?_append_inert (rest after : List Char) (h : Inert after) (x : Char)
    (hx : isContinuation x = true) :
    ((rest ++ after).head? == some x) = (rest.head? == some x) := by
  cases rest with
  | cons d rest => rfl
  | nil =>
    have hne : after.head? ≠ some x := by
      intro he
      have hfalse := h x he
      simp [hx] at hfalse
    simpa using hne

theorem quotes_append_inert (rest after : List Char) (h : Inert after) (q : Char)
    (hq : isQuote q = true) :
    [q, q].isPrefixOf (rest ++ after) = [q, q].isPrefixOf rest := by
  have hx : isContinuation q = true := by simp [isContinuation, hq]
  have hne : ∀ c ∈ after.head?, q ≠ c := by
    rintro c hc rfl
    simpa [hx] using h q hc
  rcases after with _ | ⟨c, after⟩
  · rw [List.append_nil]
  · have hqc : q ≠ c := hne c rfl
    -- two quotes are found in `rest`, or would reach into `after`
    rcases rest with _ | ⟨d, _ | ⟨e, rest⟩⟩ <;> simp [List.isPrefixOf, hqc]

theorem codeAction_append_inert (s : Settings) (before : List Char) (c : Char)
    (rest after : List Char) (h : Inert after) :
    codeAction s before c (rest ++ after) = codeAction s before c rest := by
  have hhead := head?_append_inert rest after h
  unfold codeAction
  dsimp only
  rw [hhead '/' rfl, hhead '*' rfl, hhead '>' rfl, hhead '<' rfl, hhead '=' rfl]
  by_cases hq : isQuote c = true
  · rw [quotes_append_inert rest after h c hq]
  · simp [hq]

theorem action_append_inert (s : Settings) (before : List Char) (c : Char)
    (rest after : List Char) (h : Inert after) (m : Mode) (hm : m.Quoted) :
    m.action s before c (rest ++ after) = m.action s before c rest := by
  cases m with
  | code => exact codeAction_append_inert s before c rest after h
  | blockComment => simp only [Mode.action, head?_append_inert rest after h '/' rfl]
  | longLiteral q => simp only [Mode.action, quotes_append_inert rest after h q hm]
  | skip n m => rcases n with _ | _ | n <;> rfl
  | _ => rfl

theorem run_quoted (a : Action) (d : Depth) (h : ∀ m, a = .move m → m.Quoted) :
    (a.run d).1.mode.Quoted := by
  cases a with
  | move m => exact h m rfl
  | token t =>
    rcases t with k | k | _ | _
    · trivial
    · simp only [Action.run]
      split_ifs <;> trivial
    · trivial
    · trivial

theorem action_quoted (s : Settings) (before : List Char) (c : Char) (rest : List Char)
    (m n : Mode) (hm : m.Quoted) (h : m.action s before c rest = .move n) : n.Quoted := by
  cases m with
  | code => exact codeAction_quoted s before c rest n h
  | skip k m => rcases k with _ | _ | k <;> cases h <;> exact hm
  | lineComment => cases h; split_ifs <;> trivial
  | blockComment => cases h; split_ifs <;> trivial
  | literal q =>
    cases h
    split_ifs
    · exact hm
    · trivial
    · exact hm
  | longLiteral q =>
    cases h
    split_ifs
    · trivial
    · exact hm
    · exact hm

theorem step_quoted (s : Settings) (before : List Char) (c : Char) (rest : List Char)
    (st : State) (h : st.mode.Quoted) : (step s before c rest st).1.mode.Quoted :=
  run_quoted _ _ fun n hn => action_quoted s before c rest st.mode n h hn

/-- What follows is out of sight: no byte before it acts otherwise because of it. -/
def Unseen (s : Settings) (after : List Char) : Prop :=
  ∀ before c rest m, Mode.Quoted m → m.action s before c (rest ++ after) = m.action s before c rest

theorem unseen_of_inert (s : Settings) (after : List Char) (h : Inert after) : Unseen s after :=
  fun before c rest m hm => action_append_inert s before c rest after h m hm

theorem step_append_unseen (s : Settings) (before : List Char) (c : Char)
    (rest after : List Char) (st : State) (h : Unseen s after) (hst : st.mode.Quoted) :
    step s before c (rest ++ after) st = step s before c rest st := by
  rw [step, h before c rest st.mode hst, step]

/-- A continuation out of sight changes neither the state reached nor the events. -/
theorem stateFrom_unseen (s : Settings) (after before : List Char) (st : State)
    (us : List Char) (h : Unseen s after) (hst : st.mode.Quoted) :
    stateFrom s after before st us = stateFrom s [] before st us := by
  induction us generalizing before st with
  | nil => rfl
  | cons c us ih =>
    rw [stateFrom, stateFrom, step_append_unseen s before c us after st h hst, List.append_nil]
    exact ih _ _ (step_quoted s before c us st hst)

theorem eventsFrom_unseen (s : Settings) (after before : List Char) (pos : Nat) (st : State)
    (us : List Char) (h : Unseen s after) (hst : st.mode.Quoted) :
    eventsFrom s after before pos st us = scanFrom s before pos st us := by
  induction us generalizing before pos st with
  | nil => rfl
  | cons c us ih =>
    rw [eventsFrom, scanFrom_cons, step_append_unseen s before c us after st h hst]
    exact congrArg _ (ih _ _ _ (step_quoted s before c us st hst))

/-- Where the second part is out of sight the two scans do not see each other. -/
theorem scanFrom_append_unseen (s : Settings) (before : List Char) (pos : Nat) (st : State)
    (us vs : List Char) (h : Unseen s vs) (hst : st.mode.Quoted) :
    scanFrom s before pos st (us ++ vs) = scanFrom s before pos st us ++
      scanFrom s (us.reverse ++ before) (pos + us.length) (stateFrom s [] before st us) vs := by
  rw [scanFrom_append, eventsFrom_unseen s vs before pos st us h hst,
    stateFrom_unseen s vs before st us h hst]

theorem scanFrom_append_inert (s : Settings) (before : List Char) (pos : Nat) (st : State)
    (us vs : List Char) (h : Inert vs) (hst : st.mode.Quoted) :
    scanFrom s before pos st (us ++ vs) = scanFrom s before pos st us ++
      scanFrom s (us.reverse ++ before) (pos + us.length) (stateFrom s [] before st us) vs :=
  scanFrom_append_unseen s before pos st us vs (unseen_of_inert s vs h) hst

theorem inert_cons (c : Char) (cs : List Char) (h : isContinuation c = false) :
    Inert (c :: cs) := by
  intro d hd
  obtain rfl : c = d := by simpa using hd
  exact h

/-! ### Inside a pair of braces -/

def Depth.inBrace (d : Depth) : Depth := { d with brace := d.brace + 1 }

def State.inBrace (st : State) : State := { st with depth := st.depth.inBrace }

@[simp] theorem isZero_inBrace (d : Depth) : d.inBrace.isZero = false := by
  simp [Depth.inBrace, Depth.isZero]

theorem inBrace_set (d : Depth) (k : Class) :
    d.inBrace.set k (d.inBrace.get k + 1) = (d.set k (d.get k + 1)).inBrace := by
  cases k <;> rfl

theorem inBrace_unset (d : Depth) (k : Class) (h : d.get k ≠ 0) :
    d.inBrace.get k ≠ 0 ∧
      d.inBrace.set k (d.inBrace.get k - 1) = (d.set k (d.get k - 1)).inBrace := by
  cases k <;> simp_all [Depth.inBrace, Depth.get, Depth.set]
  omega

/-- One more open brace changes no action, unless it lets a stray closing brace count, and
nothing is top level under it. -/
theorem run_inBrace (a : Action) (d : Depth)
    (h : a = .token (.closing .brace) → d.brace ≠ 0) :
    a.run d.inBrace = ((a.run d).1.inBrace, (a.run d).2.map fun x => (x.1, false)) := by
  rcases a with m | k | k | _ | _
  · rfl
  · simp [Action.run, inBrace_set, State.inBrace]
  · by_cases hk : d.get k = 0
    · -- a stray delimiter of another class stays stray: only the braces count one more
      have hb : k ≠ .brace := by
        rintro rfl
        exact h rfl hk
      have hz : d.inBrace.get k = 0 := by
        cases k <;> simp_all [Depth.inBrace, Depth.get]
      simp [Action.run, hk, hz, State.inBrace]
    · obtain ⟨hne, hset⟩ := inBrace_unset d k hk
      simp [Action.run, hk, hne, hset, State.inBrace]
  · simp [Action.run, State.inBrace]
  · simp [Action.run, State.inBrace]

theorem step_openBrace (s : Settings) (before rest : List Char) :
    step s before '\x7b' rest {} = (State.inBrace {}, some (.opening .brace, true)) := by
  have h : codeAction s before '\x7b' rest = .token (.opening .brace) := by
    simp [codeAction, singleAction, openClass?, isQuote]
  rw [step, Mode.action, h]
  rfl

theorem step_closeBrace (s : Settings) (before rest : List Char) :
    step s before '\x7d' rest (State.inBrace {}) = ({}, some (.closing .brace, true)) := by
  have h : codeAction s before '\x7d' rest = .token (.closing .brace) := by
    simp [codeAction, singleAction, openClass?, closeClass?, isQuote]
  rw [step, State.inBrace, Mode.action, h]
  rfl

theorem isPrefixOf_append_of_not_mem (w l x : List Char) (a : Char) (ha : a ∉ w) :
    w.isPrefixOf (l ++ a :: x) = w.isPrefixOf l := by
  induction w generalizing l with
  | nil => simp
  | cons b w ih =>
    obtain ⟨hab, haw⟩ : a ≠ b ∧ a ∉ w := by simpa using ha
    cases l with
    | nil => simp [List.isPrefixOf, Ne.symm hab]
    | cons d l => simp [List.isPrefixOf, ih l haw]

/-- Bytes that are no part of the word `operator` and no blank. -/
def isWall (c : Char) : Bool := !isAsciiBlank c && !"rotarepo".toList.contains c

/-- What stands before a wall is out of sight. -/
theorem afterOperator_past_wall (b x : List Char) (w : Char) (hw : isWall w = true) :
    afterOperator (b ++ w :: x) = afterOperator b := by
  obtain ⟨hblank, hword⟩ : isAsciiBlank w = false ∧ w ∉ "rotarepo".toList := by
    simpa only [isWall, Bool.and_eq_true, Bool.not_eq_true', List.contains_eq_mem,
      decide_eq_false_iff_not] using hw
  unfold afterOperator
  rw [List.dropWhile_append]
  split_ifs with he
  · have hb : b.dropWhile isAsciiBlank = [] := by simpa using he
    rw [hb, List.dropWhile_cons_of_neg (by simp [hblank])]
    exact isPrefixOf_append_of_not_mem _ [] x _ hword
  · exact isPrefixOf_append_of_not_mem _ _ x _ hword

theorem action_past_wall (s : Settings) (b x : List Char) (w c : Char) (rest : List Char)
    (m : Mode) (hw : isWall w = true) :
    m.action s (b ++ w :: x) c rest = m.action s b c rest := by
  cases m with
  | code => simp only [Mode.action, codeAction, afterOperator_past_wall b x w hw]
  | skip n m => rcases n with _ | _ | n <;> rfl
  | _ => rfl

/-- A `)`, `]` or `}` of code that closes nothing. -/
def isStray (st : State) (c : Char) : Bool :=
  st.mode == .code && (closeClass? false c).any (fun k => st.depth.get k == 0)

/-- The scan of some bytes to their end meets no stray closing delimiter. -/
def matchedFrom (s : Settings) (before : List Char) (st : State) : List Char → Bool
  | [] => true
  | c :: rest => !isStray st c && matchedFrom s (c :: before) (step s before c rest st).1 rest

/-- A text that closes all it opens and meets no stray closing delimiter. -/
structure Balanced (s : Settings) (cs : List Char) : Prop where
  closed : stateAfter s cs = {}
  matched : matchedFrom s [] {} (Text.bytes cs) = true

theorem step_inBrace (s : Settings) (b x : List Char) (c : Char) (rest : List Char) (st : State)
    (h : isStray st c = false) :
    step s (b ++ '\x7b' :: x) c rest st.inBrace =
      ((step s b c rest st).1.inBrace, (step s b c rest st).2.map fun e => (e.1, false)) := by
  rw [step, step, action_past_wall s b x _ c rest _ rfl]
  apply run_inBrace
  intro hclose
  obtain ⟨hmode, rfl⟩ := action_token s b c rest st.mode _ hclose
  simpa [isStray, hmode, Token.char, Class.closeChar, closeClass?, Depth.get] using h

/-- Between braces the scan runs as on its own, one brace deeper, and gives no top-level
event. -/
theorem stateFrom_inBrace (s : Settings) (b x : List Char) (st : State) (us : List Char)
    (h : matchedFrom s b st us = true) :
    stateFrom s [] (b ++ '\x7b' :: x) st.inBrace us = (stateFrom s [] b st us).inBrace := by
  induction us generalizing b st with
  | nil => rfl
  | cons c us ih =>
    obtain ⟨hc, hus⟩ : isStray st c = false ∧
        matchedFrom s (c :: b) (step s b c us st).1 us = true := by
      simpa [matchedFrom] using h
    rw [stateFrom, stateFrom, List.append_nil, step_inBrace s b x c us st hc]
    exact ih (c :: b) _ hus

theorem scanFrom_inBrace (s : Settings) (b x : List Char) (pos : Nat) (st : State)
    (us : List Char) (h : matchedFrom s b st us = true) :
    ∀ e ∈ scanFrom s (b ++ '\x7b' :: x) pos st.inBrace us, e.topLevel = false := by
  induction us generalizing b pos st with
  | nil => simp [scanFrom]
  | cons c us ih =>
    obtain ⟨hc, hus⟩ : isStray st c = false ∧
        matchedFrom s (c :: b) (step s b c us st).1 us = true := by
      simpa [matchedFrom] using h
    intro e he
    rw [scanFrom_cons, step_inBrace s b x c us st hc, List.mem_append] at he
    rcases he with he | he
    · simp only [emitted, Option.map_map, Option.mem_toList,
        Option.map_eq_some_iff, Function.comp] at he
      obtain ⟨y, _, rfl⟩ := he
      rfl
    · exact ih (c :: b) _ _ hus e he

end Synopsis.Delimiter
