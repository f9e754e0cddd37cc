import Synopsis.Proofs.AngleCut
import Synopsis.Proofs.LiteralContents

/-! Strings between backticks in which a backslash is a character like others. The scan takes it for
an escape, so that such a string seems to go on where it ends in an odd number of backslashes; apart
from that, what it holds never moves the cut. -/
namespace Synopsis.Delimiter
open Text

/-! ### Backslashes at the end -/

/-- An odd number of backslashes stands at the end. -/
def endsEscaped (r : List Char) : Bool := (r.reverse.takeWhile (· == '\\')).length % 2 == 1

theorem endsEscaped_cons (c : Char) (r : List Char) (hc : c ≠ '\\') :
    endsEscaped (c :: r) = endsEscaped r := by
  have hnone : [c].takeWhile (· == '\\') = [] := by simp [hc]
  unfold endsEscaped
  rw [List.reverse_cons, List.takeWhile_append, hnone, List.append_nil]
  split_ifs with hall
  · rw [List.length_reverse] at hall
    rw [hall, List.length_reverse]
  · rfl

/-- A backslash and what it takes with it change nothing behind them. -/
theorem endsEscaped_pair (c : Char) (r : List Char) :
    endsEscaped ('\\' :: c :: r) = endsEscaped r := by
  have hsplit : ('\\' :: c :: r).reverse = r.reverse ++ [c, '\\'] := by simp
  unfold endsEscaped
  rw [hsplit, List.takeWhile_append]
  split_ifs with hall
  · by_cases hc : c = '\\'
    · have hboth : [c, '\\'].takeWhile (· == '\\') = [c, '\\'] := by simp [hc]
      rw [hboth, hall, List.length_append]
      simp
    · have hnone : [c, '\\'].takeWhile (· == '\\') = [] := by simp [hc]
      rw [hnone, List.append_nil, hall]
  · rfl

/-- Read with escapes, a text without backticks is the content of a literal, or such a content and
one backslash with nothing left to escape. -/
theorem content_or_escape : ∀ r : List Char, '\x60' ∉ r →
    (endsEscaped r = false ∧ Quotation.backtick.Content r) ∨
      (endsEscaped r = true ∧ ∃ r', r = r' ++ ['\\'] ∧ Quotation.backtick.Content r')
  | [], _ => .inl ⟨rfl, .nil⟩
  | c :: r, h => by
    -- a backslash takes the next character along, if there is one
    by_cases hc : c = '\\'
    · subst hc
      cases r with
      | nil => exact .inr ⟨rfl, [], rfl, .nil⟩
      | cons d r =>
        have hr : '\x60' ∉ r := fun hmem => h (by simp [hmem])
        rw [endsEscaped_pair]
        rcases content_or_escape r hr with ⟨hend, hr⟩ | ⟨hend, r', rfl, hr'⟩
        · exact .inl ⟨hend, .escape d r hr⟩
        · exact .inr ⟨hend, '\\' :: d :: r', rfl, .escape d r' hr'⟩
    · have hr : '\x60' ∉ r := fun hmem => h (by simp [hmem])
      have hquote : c ≠ Quotation.backtick.char := by
        rintro rfl
        exact h List.mem_cons_self
      rw [endsEscaped_cons c r hc]
      rcases content_or_escape r hr with ⟨hend, hr⟩ | ⟨hend, r', rfl, hr'⟩
      · exact .inl ⟨hend, .plain c r hquote hc (fun _ => rfl) hr⟩
      · exact .inr ⟨hend, c :: r', rfl, .plain c r' hquote hc (fun _ => rfl) hr'⟩

/-! ### The scan of a raw string -/

/-- A raw string with its backticks. -/
def rawString (r : List Char) : List Char := Quotation.backtick.literal r

theorem bytes_rawString (r : List Char) :
    bytes (rawString r) = '\x60' :: (bytes r ++ ['\x60']) := by
  rw [rawString, Quotation.literal, bytes_append, bytes_append, Quotation.bytes_text]
  rfl

/-- Where the scan stands behind a raw string: outside it, unless the last backslash took the
closing backtick. -/
def behind (r : List Char) : Mode := if endsEscaped r then .literal '\x60' else .code

/-- The bytes lead from one mode to another at every depth, and give no event. -/
def Leads (s : Settings) (m : Mode) (us : List Char) (n : Mode) : Prop :=
  ∀ after before pos d, stateFrom s after before ⟨m, d⟩ us = ⟨n, d⟩ ∧
    eventsFrom s after before pos ⟨m, d⟩ us = []

theorem Leads.append {s : Settings} {m n k : Mode} {us vs : List Char} (hus : Leads s m us n)
    (hvs : Leads s n vs k) : Leads s m (us ++ vs) k := by
  intro after before pos d
  obtain ⟨hstate, hevents⟩ := hus (vs ++ after) before pos d
  obtain ⟨hstate', hevents'⟩ := hvs after (us.reverse ++ before) (pos + us.length) d
  rw [stateFrom_append, eventsFrom_append, hstate, hevents, hstate', hevents']
  exact ⟨rfl, rfl⟩

theorem leads_backtick (s : Settings) : Leads s .code ['\x60'] (.literal '\x60') := by
  intro after before pos d
  simp [stateFrom, eventsFrom, step, Mode.action, codeAction, isQuote, Action.run, emitted]

theorem leads_rawString (s : Settings) (r : List Char) (hr : '\x60' ∉ r) :
    Leads s .code (bytes (rawString r)) (behind r) := by
  rw [bytes_rawString, behind]
  rcases content_or_escape r hr with ⟨hend, hcontent⟩ | ⟨hend, r', rfl, hcontent⟩
  · have hread : Leads s (.literal '\x60') (bytes r) (.literal '\x60') :=
      Quotation.passedOver_content s .backtick r hcontent
    have hleave : Leads s (.literal '\x60') ['\x60'] .code := Quotation.leaves s .backtick
    rw [hend]
    exact (leads_backtick s).append (hread.append hleave)
  · have hread : Leads s (.literal '\x60') (bytes r') (.literal '\x60') :=
      Quotation.passedOver_content s .backtick r' hcontent
    have hescape : Leads s (.literal '\x60') ['\\', '\x60'] (.literal '\x60') :=
      Quotation.passedOver_escape s .backtick '\x60'
    have hbytes : bytes (r' ++ ['\\']) ++ ['\x60'] = bytes r' ++ ['\\', '\x60'] := by
      rw [bytes_append, List.append_assoc]
      rfl
    rw [hend, hbytes]
    exact (leads_backtick s).append (hread.append hescape)

theorem bytes_rawString_append (r rest : List Char) :
    bytes (rawString r ++ rest) = '\x60' :: (bytes r ++ '\x60' :: bytes rest) := by
  rw [bytes_append, bytes_rawString]
  simp

/-- Two quotes stand at the start of a raw string only if it is empty. -/
theorem quotes_rawString (r rest : List Char) (hr : '\x60' ∉ r) (q : Char) :
    [q, q].isPrefixOf (bytes (rawString r ++ rest)) = (r.isEmpty && q == '\x60') := by
  rw [bytes_rawString_append]
  cases hbytes : bytes r with
  | nil =>
    rw [eq_nil_of_bytes r hbytes]
    simp [List.isPrefixOf]
  | cons u us =>
    have hne : r ≠ [] := by
      rintro rfl
      cases hbytes
    -- no byte of the contents is a backtick
    have hu : u ≠ '\x60' := by
      rintro rfl
      rcases mem_bytes_cases r '\x60' (by simp [hbytes]) with hmem | hhigh
      · exact hr hmem
      · exact absurd hhigh (by decide)
    have hopen : r.isEmpty = false := by simpa using hne
    by_cases hq : q = '\x60'
    · have hsecond : ('\x60' == u) = false := by simpa using hu.symm
      simp [List.isPrefixOf, hq, hopen, hsecond]
    · have hfirst : (q == '\x60') = false := by simpa using hq
      simp [List.isPrefixOf, hfirst]

/-- From before, two raw strings look the same, unless one of them is empty. -/
theorem alike_rawString (r r' rest rest' : List Char) (hr : '\x60' ∉ r) (hr' : '\x60' ∉ r')
    (hempty : r.isEmpty = r'.isEmpty) :
    Alike (bytes (rawString r ++ rest)) (bytes (rawString r' ++ rest')) := by
  constructor
  · rw [bytes_rawString_append, bytes_rawString_append]
    rfl
  · intro q _
    rw [quotes_rawString r rest hr, quotes_rawString r' rest' hr', hempty]

/-- The scan of a text with a raw string: of what stands before it, and of what stands behind. -/
theorem scan_rawString (s : Settings) (p r suffix : List Char) (hr : '\x60' ∉ r)
    (hp : StandsInCode s p (rawString r ++ suffix)) :
    scan s (p ++ rawString r ++ suffix) =
      eventsFrom s (bytes (rawString r ++ suffix)) [] 0 {} (bytes p) ++
        scanFrom s ((bytes (rawString r)).reverse ++ ((bytes p).reverse ++ []))
          (byteLength p + byteLength (rawString r))
          ⟨behind r, (stateFrom s (bytes (rawString r ++ suffix)) [] {} (bytes p)).depth⟩
          (bytes suffix) := by
  unfold StandsInCode at hp
  rw [scan, List.append_assoc, bytes_append, scanFrom_append]
  generalize hst : stateFrom s (bytes (rawString r ++ suffix)) [] {} (bytes p) = st at hp ⊢
  obtain ⟨m, d⟩ := st
  obtain rfl : m = .code := hp
  obtain ⟨hstate, hevents⟩ := leads_rawString s r hr (bytes suffix) ((bytes p).reverse ++ [])
    (0 + (bytes p).length) d
  rw [bytes_append (rawString r) suffix, scanFrom_append, hstate, hevents, List.nil_append,
    length_bytes, length_bytes, Nat.zero_add]

theorem isEmpty_of_byteLength (r r' : List Char) (h : byteLength r = byteLength r') :
    r.isEmpty = r'.isEmpty := by
  have hpos (c : Char) (cs : List Char) : 0 < byteLength (c :: cs) := by
    have hsize := Char.utf8Size_pos c
    rw [byteLength]
    omega
  cases r with
  | nil =>
    cases r' with
    | nil => rfl
    | cons c cs => exact absurd h (hpos c cs).ne
  | cons c cs =>
    cases r' with
    | nil => exact absurd h (hpos c cs).ne'
    | cons c cs => rfl

theorem byteLength_rawString (r r' : List Char) (h : byteLength r = byteLength r') :
    byteLength (rawString r) = byteLength (rawString r') := by
  simp only [rawString, Quotation.literal, byteLength_append, h]

/-- Before a raw string the scan stands in code or not, whatever the string holds and whatever
follows it. -/
theorem standsInCode_rawString (s : Settings) (p r r' suffix suffix' : List Char) (hr : '\x60' ∉ r)
    (hr' : '\x60' ∉ r') (hlength : byteLength r = byteLength r')
    (hp : StandsInCode s p (rawString r ++ suffix)) :
    StandsInCode s p (rawString r' ++ suffix') := by
  have halike := alike_rawString r r' suffix suffix' hr hr' (isEmpty_of_byteLength r r' hlength)
  unfold StandsInCode at hp ⊢
  rw [← stateFrom_alike s _ _ [] {} (bytes p) halike trivial]
  exact hp

/-- Raw strings of the same length that end alike give the same events. -/
theorem scan_rawString_contents (s : Settings) (p r r' suffix : List Char) (hr : '\x60' ∉ r)
    (hr' : '\x60' ∉ r') (hp : StandsInCode s p (rawString r ++ suffix))
    (hlength : byteLength r = byteLength r') (hend : endsEscaped r = endsEscaped r') :
    scan s (p ++ rawString r ++ suffix) = scan s (p ++ rawString r' ++ suffix) := by
  have halike := alike_rawString r r' suffix suffix hr hr' (isEmpty_of_byteLength r r' hlength)
  have hstate := stateFrom_alike s _ _ [] {} (bytes p) halike trivial
  have hevents := eventsFrom_alike s _ _ [] 0 {} (bytes p) halike trivial
  have hp' := standsInCode_rawString s p r r' suffix suffix hr hr' hlength hp
  have hbehind : behind r = behind r' := by rw [behind, behind, hend]
  -- behind the closing backtick the look back for a word stops at that backtick
  obtain ⟨x, hx⟩ := Quotation.reverse_literal .backtick r ((bytes p).reverse ++ [])
  obtain ⟨y, hy⟩ := Quotation.reverse_literal .backtick r' ((bytes p).reverse ++ [])
  rw [← rawString] at hx hy
  rw [scan_rawString s p r suffix hr hp, scan_rawString s p r' suffix hr' hp', hstate, hevents,
    hbehind, byteLength_rawString r r' hlength, hx, hy,
    scanFrom_past_wall s [] x y _ _ _ _ (Quotation.isWall_char _)]

/-! ### An end that shows the difference -/

theorem codeAction_closeChar (s : Settings) (k : Class) (hk : k ≠ .angle)
    (before rest : List Char) : codeAction s before k.closeChar rest = .token (.closing k) := by
  cases k with
  | angle => exact absurd rfl hk
  | _ => simp [codeAction, singleAction, openClass?, closeClass?, isQuote, Class.closeChar]

/-- Closing delimiters of a class, as many as are open, close them all. -/
theorem stateFrom_closeChars (s : Settings) (k : Class) (hk : k ≠ .angle) (after before : List Char)
    (d : Depth) (n : Nat) (hn : d.get k = n) :
    stateFrom s after before ⟨.code, d⟩ (List.replicate n k.closeChar) = ⟨.code, d.set k 0⟩ := by
  induction n generalizing before d with
  | zero =>
    have hsame : d.set k 0 = d := by
      rw [← hn]
      cases k <;> rfl
    rw [hsame]
    rfl
  | succ n ih =>
    have hstep (rest : List Char) : step s before k.closeChar rest ⟨.code, d⟩ =
        (⟨.code, d.set k n⟩, some (.closing k, (d.set k n).isZero)) := by
      rw [step, Mode.action, codeAction_closeChar s k hk]
      simp [Action.run, hn]
    have hset : (d.set k n).set k 0 = d.set k 0 := by cases k <;> rfl
    rw [List.replicate_succ, stateFrom, hstep, ih _ _ (by simp [get_set]), hset]

/-- What closes all that is open, angle brackets apart. -/
def closers (d : Depth) : List Char :=
  List.replicate d.paren ')' ++ (List.replicate d.bracket ']' ++ List.replicate d.brace '\x7d')

theorem stateFrom_closers (s : Settings) (after before : List Char) (d : Depth)
    (hd : d.angle = 0) : stateFrom s after before ⟨.code, d⟩ (closers d) = {} := by
  have hparen := stateFrom_closeChars s .paren (by decide)
  have hbracket := stateFrom_closeChars s .bracket (by decide)
  have hbrace := stateFrom_closeChars s .brace (by decide)
  simp only [Class.closeChar] at hparen hbracket hbrace
  rw [closers, stateFrom_append, hparen _ _ d d.paren rfl, stateFrom_append,
    hbracket _ _ (d.set .paren 0) d.bracket rfl,
    hbrace _ _ ((d.set .paren 0).set .bracket 0) d.brace rfl]
  simp [Depth.set, hd]

theorem codeAction_not_isAngle (s : Settings) (hs : s.angles = false) (before : List Char)
    (c : Char) (rest : List Char) (t : Token) (h : codeAction s before c rest = .token t) :
    t.isAngle = false := by
  have hsame : s = s.withAngles false := by rw [Settings.withAngles, ← hs]
  by_cases hlt : c = '<'
  · rw [hlt, hsame, codeAction_lt] at h
    cases h
  · by_cases hgt : c = '>'
    · rw [hgt, hsame, codeAction_gt] at h
      cases h
    · exact codeAction_not_angle s before c rest t hlt hgt h

/-- A token that is no angle bracket leaves the angle brackets as they are. -/
theorem angle_run (a : Action) (d : Depth) (h : ∀ t, a = .token t → t.isAngle = false) :
    (a.run d).1.depth.angle = d.angle := by
  rcases a with m | k | k | _ | _
  · rfl
  · have ht := h _ rfl
    cases k
    case angle => cases ht
    all_goals rfl
  · have ht := h _ rfl
    simp only [Action.run]
    split_ifs
    · rfl
    · cases k
      case angle => cases ht
      all_goals rfl
  · rfl
  · rfl

/-- Where angle brackets are no delimiters none is ever open. -/
theorem angle_stateFrom (s : Settings) (hs : s.angles = false) (after before : List Char)
    (st : State) (us : List Char) :
    (stateFrom s after before st us).depth.angle = st.depth.angle := by
  induction us generalizing before st with
  | nil => rfl
  | cons c us ih =>
    rw [stateFrom, ih]
    apply angle_run
    intro t ht
    have hmode := (action_token s before c (us ++ after) st.mode t ht).1
    rw [hmode] at ht
    exact codeAction_not_isAngle s hs before c (us ++ after) t ht

/-- All that is open is closed, then a parameter list and a body follow. -/
def probe (d : Depth) : List Char := closers d ++ "()\x7b\x7d".toList

theorem mem_probe (d : Depth) (c : Char) (hc : c ∈ probe d) : c ∈ "()[]\x7b\x7d".toList := by
  simp only [probe, closers, List.mem_append, List.mem_replicate] at hc
  rcases hc with (⟨_, rfl⟩ | ⟨_, rfl⟩ | ⟨_, rfl⟩) | hc
  · decide
  · decide
  · decide
  · revert c
    simp

theorem bytes_probe (d : Depth) : bytes (probe d) = probe d := by
  have hascii : ∀ c ∈ "()[]\x7b\x7d".toList, c.toNat < 128 := by simp
  exact bytes_of_ascii _ fun c hc => hascii c (mem_probe d c hc)

/-- In code, the probe is read to a body at its end. -/
theorem scanFrom_probe_code (s : Settings) (before : List Char) (pos : Nat) (d : Depth)
    (hd : d.angle = 0) :
    ∃ es o, scanFrom s before pos ⟨.code, d⟩ (probe d) =
        es ++ [⟨o+1, .closing .paren, true⟩, ⟨o+2, .opening .brace, true⟩,
          ⟨o+3, .closing .brace, true⟩] ∧ o + 4 = pos + (probe d).length := by
  have hbody (before : List Char) (o : Nat) : scanFrom s before o {} "()\x7b\x7d".toList =
      [⟨o, .opening .paren, true⟩] ++ [⟨o+1, .closing .paren, true⟩,
        ⟨o+2, .opening .brace, true⟩, ⟨o+3, .closing .brace, true⟩] := by
    simp [scanFrom, step, Mode.action, codeAction, singleAction, openClass?, closeClass?, isQuote,
      Action.run, Depth.get, Depth.set, Depth.isZero]
  rw [probe, scanFrom_append, stateFrom_closers s _ _ d hd, hbody, ← List.append_assoc]
  refine ⟨_, _, rfl, ?_⟩
  rw [List.length_append]
  simp
  omega

/-- Between backticks the probe gives nothing. -/
theorem scanFrom_probe_literal (s : Settings) (before : List Char) (pos : Nat) (d d' : Depth) :
    scanFrom s before pos ⟨.literal '\x60', d'⟩ (probe d) = [] := by
  have hplain : ∀ c ∈ "()[]\x7b\x7d".toList, c ≠ '\x60' ∧ c ≠ '\\' := by simp
  have hpassed : PassedOver s (.literal '\x60') (probe d) := by
    apply passedOver_bytes
    intro c hc
    obtain ⟨hquote, hescape⟩ := hplain c (mem_probe d c hc)
    exact Quotation.passedOver_plain s .backtick c hquote hescape fun _ => rfl
  have hsplit := scanFrom_append s before pos ⟨.literal '\x60', d'⟩ (probe d) []
  rw [List.append_nil, (hpassed [] before pos d').2] at hsplit
  exact hsplit

end Synopsis.Delimiter

namespace Synopsis.Body
open Delimiter Text

/-- Behind a raw string the end of the text lies where its length puts it. -/
theorem byteLength_trimEnd_rawString (p r r' suffix : List Char)
    (h : byteLength r = byteLength r') :
    byteLength (trimEnd (p ++ rawString r ++ suffix)) =
      byteLength (trimEnd (p ++ rawString r' ++ suffix)) := by
  have hsplit (r : List Char) :
      p ++ rawString r ++ suffix = (p ++ '\x60' :: r) ++ '\x60' :: suffix := by
    simp [rawString, Quotation.literal, Quotation.text, Quotation.isLong, Quotation.char]
  rw [hsplit, hsplit, trimEnd_append_cons _ _ _ (by decide), trimEnd_append_cons _ _ _ (by decide)]
  simp only [byteLength_append, byteLength, h]

/-- Behind a raw string that is left, the body of the probe is found. -/
theorem brace?_probe_left (p r : List Char) (d : Depth) (hr : '\x60' ∉ r)
    (hend : endsEscaped r = false)
    (hst : stateFrom {} (bytes (rawString r ++ probe d)) [] {} (bytes p) = ⟨.code, d⟩) :
    ∃ o, brace? false true (p ++ rawString r ++ probe d) = some o ∧
      ∀ e ∈ eventsFrom {} (bytes (rawString r ++ probe d)) [] 0 {} (bytes p), e.pos < o := by
  have hd : d.angle = 0 := by
    have hangle := angle_stateFrom {} rfl (bytes (rawString r ++ probe d)) [] {} (bytes p)
    rw [hst] at hangle
    exact hangle
  have hscan := scan_rawString {} p r (probe d) hr (by rw [StandsInCode, hst])
  rw [hst, behind, hend, bytes_probe] at hscan
  obtain ⟨es, o, hprobe, hlast⟩ := scanFrom_probe_code {} ((bytes (rawString r)).reverse ++
    ((bytes p).reverse ++ [])) (byteLength p + byteLength (rawString r)) d hd
  simp only [Bool.false_eq_true, ↓reduceIte] at hscan
  rw [hprobe, bytes_append] at hscan
  generalize hbefore : eventsFrom {} (bytes (rawString r) ++ bytes (probe d)) [] 0 {} (bytes p) =
    front at hscan
  have hordered := scan_ordered {} (p ++ rawString r ++ probe d)
  -- the probe ends in a closed list, the brace behind it, and the brace that closes this
  refine ⟨o+2, ?_, ?_⟩
  · have hstop : byteLength (trimEnd (p ++ rawString r ++ probe d)) = o + 3 + 1 := by
      have htext : p ++ rawString r ++ probe d =
          (p ++ rawString r ++ (closers d ++ "()\x7b".toList)) ++ ['\x7d'] := by
        simp [probe]
      rw [htext, trimEnd_concat _ _ (by decide), ← htext, byteLength_append, byteLength_append,
        ← length_bytes (probe d), bytes_probe]
      omega
    rw [brace?_plain]
    apply braceOf_of_split false true _ (o+2) (o+3)
      (front ++ (es ++ [⟨o+1, .closing .paren, true⟩]))
      [] _ hstop
    · intro _
      exact ⟨⟨o+1, .closing .paren, true⟩, by simp, rfl, rfl⟩
    · simp
    · rw [hscan]
      simp
  · intro e he
    rw [bytes_append, hbefore] at he
    rw [hscan] at hordered
    exact (List.pairwise_append.mp hordered).2.2 e he ⟨o+2, .opening .brace, true⟩ (by simp)

/-- Behind a raw string that is not left, only a brace before the string can be found. -/
theorem brace?_probe_inside (p r : List Char) (d : Depth) (i : Nat) (hr : '\x60' ∉ r)
    (hend : endsEscaped r = true)
    (hst : stateFrom {} (bytes (rawString r ++ probe d)) [] {} (bytes p) = ⟨.code, d⟩)
    (h : brace? false true (p ++ rawString r ++ probe d) = some i) :
    ∃ e ∈ eventsFrom {} (bytes (rawString r ++ probe d)) [] 0 {} (bytes p), e.pos = i := by
  have hscan := scan_rawString {} p r (probe d) hr (by rw [StandsInCode, hst])
  simp only [hst, behind, hend, ↓reduceIte, bytes_probe, scanFrom_probe_literal,
    List.append_nil] at hscan
  rw [brace?_plain] at h
  have hopens := (candidate_of_braceOf false true _ i h).1.opens
  rw [hscan] at hopens
  exact ⟨_, hopens, rfl⟩

/-- A raw string that is left and one of the same length that is not are told apart by some text
behind them. -/
theorem brace?_differs (p r r' post : List Char) (hr : '\x60' ∉ r) (hr' : '\x60' ∉ r')
    (hlength : byteLength r = byteLength r') (hp : StandsInCode {} p (rawString r ++ post))
    (hend : endsEscaped r = false) (hend' : endsEscaped r' = true) :
    ∃ post', brace? false true (p ++ rawString r ++ post') ≠
      brace? false true (p ++ rawString r' ++ post') := by
  have hempty := isEmpty_of_byteLength r r' hlength
  unfold StandsInCode at hp
  generalize hst : stateFrom {} (bytes (rawString r ++ post)) [] {} (bytes p) = st at hp
  obtain ⟨m, d⟩ := st
  obtain rfl : m = .code := hp
  have hleft : stateFrom {} (bytes (rawString r ++ probe d)) [] {} (bytes p) = ⟨.code, d⟩ := by
    rw [← hst]
    exact stateFrom_alike {} _ _ [] {} (bytes p) (alike_rawString r r _ _ hr hr rfl) trivial
  have halike := alike_rawString r' r (probe d) (probe d) hr' hr hempty.symm
  have hinside : stateFrom {} (bytes (rawString r' ++ probe d)) [] {} (bytes p) = ⟨.code, d⟩ := by
    rw [← hleft]
    exact stateFrom_alike {} _ _ [] {} (bytes p) halike trivial
  -- behind the one string the probe is a body, and the cut lies in it; behind the other it is not
  -- read, and a cut at that offset would have to be seen before the string
  obtain ⟨o, hfound, hbehind⟩ := brace?_probe_left p r d hr hend hleft
  refine ⟨probe d, fun hsame => ?_⟩
  rw [hfound] at hsame
  obtain ⟨e, he, hpos⟩ := brace?_probe_inside p r' d o hr' hend' hinside hsame.symm
  rw [eventsFrom_alike {} _ _ [] 0 {} (bytes p) halike trivial] at he
  have hlt := hbehind e he
  omega

/-- Two raw strings of the same length, behind the same text, give the same cut whatever follows
them exactly if both end in an odd number of backslashes or neither does. -/
theorem raw_string_cut (pre r₁ r₂ post : List Char)
    (hpre : StandsInCode {} pre (rawString r₁ ++ post)) (h₁ : '\x60' ∉ r₁) (h₂ : '\x60' ∉ r₂)
    (hlength : byteLength r₁ = byteLength r₂) :
    (∀ post', brace? false true (pre ++ rawString r₁ ++ post') =
        brace? false true (pre ++ rawString r₂ ++ post')) ↔
      endsEscaped r₁ = endsEscaped r₂ := by
  constructor
  · intro hsame
    -- if the scan leaves only one of the two, a probe behind both tells them apart
    by_contra hne
    cases hend₁ : endsEscaped r₁ with
    | false =>
      have hend₂ : endsEscaped r₂ = true := by simpa [hend₁] using hne
      obtain ⟨post', hdiff⟩ := brace?_differs pre r₁ r₂ post h₁ h₂ hlength hpre hend₁ hend₂
      exact hdiff (hsame post')
    | true =>
      have hend₂ : endsEscaped r₂ = false := by simpa [hend₁] using hne
      have hpre' := standsInCode_rawString {} pre r₁ r₂ post post h₁ h₂ hlength hpre
      obtain ⟨post', hdiff⟩ := brace?_differs pre r₂ r₁ post h₂ h₁ hlength.symm hpre' hend₂ hend₁
      exact hdiff (hsame post').symm
  · intro hend post'
    have hpre' := standsInCode_rawString {} pre r₁ r₁ post post' h₁ h₁ rfl hpre
    have hscan := scan_rawString_contents {} pre r₁ r₂ post' h₁ h₂ hpre' hlength hend
    rw [brace?_plain, brace?_plain, braceOf, braceOf, hscan,
      byteLength_trimEnd_rawString pre r₁ r₂ post' hlength]

/-- A pair of backslashes, or a brace and a quote, in a body behind an interface as result. -/
theorem raw_string_cut_pair :
    let pre := "func F() interface\x7b\x7d \x7b return ".toList
    let post := " \x7d".toList
    StandsInCode {} pre (rawString "\\\\".toList ++ post) ∧
      brace? false true (pre ++ rawString "\\\\".toList ++ post) =
        brace? false true (pre ++ rawString "\x7b'".toList ++ post) := by
  intro pre post
  have hpre : StandsInCode {} pre (rawString "\\\\".toList ++ post) := by
    unfold StandsInCode
    decide +kernel
  exact ⟨hpre, (raw_string_cut pre _ _ post hpre (by decide) (by decide) (by decide)).mpr
    (by decide) post⟩

/-- A raw string of one backslash is not left, so that the braces of the result are taken for the
body; with any other character in it the body is found. -/
theorem lone_backslash_moves_cut :
    let pre := "func F() interface\x7b\x7d \x7b return ".toList
    let post := " \x7d".toList
    StandsInCode {} pre (rawString "\\".toList ++ post) ∧
      brace? false true (pre ++ rawString "\\".toList ++ post) = some 18 ∧
      brace? false true (pre ++ rawString "/".toList ++ post) = some 21 := by
  unfold StandsInCode
  decide +kernel

end Synopsis.Body
