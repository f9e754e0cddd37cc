import Synopsis.Proofs.Events
import Synopsis.Proofs.Surroundings

/-! Texts that close what they open. The scan comes back from them to code at the depth it came
from, and gives no top-level event in them where something is open around them. -/
namespace Synopsis.Delimiter
open Text

/-! ### Single bytes of code -/

/-- Bytes that mean something in code on their own or with the next. -/
def isSpecial (c : Char) : Bool := "#\"'\x60/=-<>()[]\x7b\x7d:".toList.contains c

theorem codeAction_plain (s : Settings) (before : List Char) (c : Char) (rest : List Char)
    (hc : isSpecial c = false) : codeAction s before c rest = .move .code := by
  simp only [isSpecial, String.reduceToList, List.contains_cons, List.contains_nil,
    Bool.or_false, Bool.or_eq_false_iff, beq_eq_false_iff_ne, ne_eq] at hc
  have hopen : openClass? s.angles c = none := by
    unfold openClass?
    split <;> simp_all
  have hclose : closeClass? s.angles c = none := by
    unfold closeClass?
    split <;> simp_all
  simp [codeAction, singleAction, isQuote, hopen, hclose, hc]

theorem passedOver_plainText (s : Settings) (us : List Char)
    (hus : ∀ u ∈ us, isSpecial u = false) : PassedOver s .code us := by
  apply passedOver_bytes
  intro u hu
  apply passedOver_byte
  intro before rest
  exact codeAction_plain s before u rest (hus u hu)

theorem codeAction_close (s : Settings) (hs : s.angles = true) (k : Class) (before : List Char)
    (rest : List Char) : codeAction s before k.closeChar rest = .token (.closing k) := by
  cases k <;>
    simp [codeAction, singleAction, openClass?, closeClass?, isQuote, Class.closeChar, hs]

theorem codeAction_open (s : Settings) (k : Class) (hk : k ≠ .angle) (before rest : List Char) :
    codeAction s before k.openChar rest = .token (.opening k) := by
  cases k with
  | angle => exact absurd rfl hk
  | _ => simp [codeAction, singleAction, openClass?, isQuote, Class.openChar]

/-- An angle bracket opens, unless it is doubled, part of a comparison or of a name. -/
theorem codeAction_openAngle (s : Settings) (hs : s.angles = true) (before rest : List Char)
    (hrest : Inert rest) (hbefore : afterOperator before = false) :
    codeAction s before '<' rest = .token (.opening .angle) := by
  have hne (x : Char) (hx : isContinuation x = true) : rest.head? ≠ some x := by
    intro hhead
    have hfalse := hrest x hhead
    rw [hx] at hfalse
    cases hfalse
  simp [codeAction, singleAction, openClass?, isQuote, hs, hbefore, hne '<' rfl, hne '=' rfl]

/-! ### Closed texts -/

/-- With what surrounds it the text leads from code at any depth back to code at that depth. An
event in it is top level only if nothing is open around the text, and a quiet text then gives no
arrow. -/
def ClosedIn (s : Settings) (quiet : Bool) (after before cs : List Char) : Prop :=
  ∀ pos d, stateFrom s after before ⟨.code, d⟩ (bytes cs) = ⟨.code, d⟩ ∧
    ∀ e ∈ eventsFrom s after before pos ⟨.code, d⟩ (bytes cs), e.topLevel = true →
      d.isZero = true ∧ (quiet = true → e.token ≠ .arrow)

theorem ClosedIn.append {s : Settings} {quiet : Bool} {after before cs ds : List Char}
    (hcs : ClosedIn s quiet (bytes ds ++ after) before cs)
    (hds : ClosedIn s quiet after ((bytes cs).reverse ++ before) ds) :
    ClosedIn s quiet after before (cs ++ ds) := by
  intro pos d
  obtain ⟨hstate, hevents⟩ := hcs pos d
  obtain ⟨hstate', hevents'⟩ := hds (pos + (bytes cs).length) d
  rw [bytes_append, stateFrom_append, eventsFrom_append, hstate, hstate']
  refine ⟨rfl, ?_⟩
  intro e he
  rcases List.mem_append.mp he with he | he
  · exact hevents e he
  · exact hevents' e he

/-- No letter of the word `operator` stands right before. -/
def Loose (before : List Char) : Prop := ∀ c ∈ before.head?, c ∉ "rotarepo".toList

/-- Closed wherever no letter of the word stands right before. -/
def Closed (s : Settings) (quiet : Bool) (cs : List Char) : Prop :=
  ∀ after before, Loose before → ClosedIn s quiet after before cs

/-- Closed wherever it stands. -/
def ClosedAnywhere (s : Settings) (quiet : Bool) (cs : List Char) : Prop :=
  ∀ after before, ClosedIn s quiet after before cs

section Together
variable {s : Settings} {quiet : Bool} {cs sep ds : List Char}

theorem ClosedAnywhere.closed (h : ClosedAnywhere s quiet cs) : Closed s quiet cs :=
  fun after before _ => h after before

theorem ClosedIn.mono {quiet' : Bool} {after before : List Char}
    (h : ClosedIn s quiet after before cs) (hquiet : quiet' = true → quiet = true) :
    ClosedIn s quiet' after before cs := by
  intro pos d
  obtain ⟨hstate, hevents⟩ := h pos d
  refine ⟨hstate, ?_⟩
  intro e he htop
  obtain ⟨hzero, harrow⟩ := hevents e he htop
  exact ⟨hzero, fun h => harrow (hquiet h)⟩

theorem Closed.mono {quiet' : Bool} (h : Closed s quiet cs)
    (hquiet : quiet' = true → quiet = true) : Closed s quiet' cs :=
  fun after before hbefore => (h after before hbefore).mono hquiet

theorem ClosedAnywhere.mono {quiet' : Bool} (h : ClosedAnywhere s quiet cs)
    (hquiet : quiet' = true → quiet = true) : ClosedAnywhere s quiet' cs :=
  fun after before => (h after before).mono hquiet

theorem Closed.noisy (h : Closed s quiet cs) : Closed s false cs := h.mono (by simp)

theorem closedAnywhere_of_passedOver (h : PassedOver s .code (bytes cs)) :
    ClosedAnywhere s quiet cs := by
  intro after before pos d
  obtain ⟨hstate, hevents⟩ := h after before pos d
  refine ⟨hstate, ?_⟩
  rw [hevents]
  intro e he
  cases he

theorem ClosedAnywhere.append (hcs : ClosedAnywhere s quiet cs)
    (hds : ClosedAnywhere s quiet ds) : ClosedAnywhere s quiet (cs ++ ds) := by
  intro after before
  exact (hcs _ before).append (hds after _)

theorem Closed.append (hcs : Closed s quiet cs) (hds : ClosedAnywhere s quiet ds) :
    Closed s quiet (cs ++ ds) := by
  intro after before hbefore
  exact (hcs _ before hbefore).append (hds after _)

/-- A separator that ends in a blank keeps two texts apart. -/
theorem ClosedIn.spaced {after before : List Char}
    (hcs : ClosedIn s quiet (bytes sep ++ (bytes ds ++ after)) before cs)
    (hsep : ClosedAnywhere s quiet sep) (hend : sep.getLast? = some ' ')
    (hds : Closed s quiet ds) : ClosedIn s quiet after before (cs ++ sep ++ ds) := by
  refine (hcs.append (hsep _ _)).append (hds after _ ?_)
  obtain ⟨front, rfl⟩ := List.getLast?_eq_some_iff.mp hend
  have hspace : bytes [' '] = [' '] := by decide
  intro c hc
  simp only [bytes_append, hspace, List.reverse_append, List.reverse_singleton,
    List.cons_append, List.head?_cons, Option.mem_some_iff] at hc
  subst hc
  decide

theorem Closed.spaced (hcs : Closed s quiet cs) (hsep : ClosedAnywhere s quiet sep)
    (hend : sep.getLast? = some ' ') (hds : Closed s quiet ds) :
    Closed s quiet (cs ++ sep ++ ds) :=
  fun _ before hbefore => (hcs _ before hbefore).spaced hsep hend hds

theorem ClosedAnywhere.spaced (hcs : ClosedAnywhere s quiet cs)
    (hsep : ClosedAnywhere s quiet sep) (hend : sep.getLast? = some ' ')
    (hds : Closed s quiet ds) : ClosedAnywhere s quiet (cs ++ sep ++ ds) :=
  fun _ before => (hcs _ before).spaced hsep hend hds

theorem closedAnywhere_plain (h : (bytes cs).any isSpecial = false) :
    ClosedAnywhere s quiet cs := by
  apply closedAnywhere_of_passedOver
  apply passedOver_plainText
  intro u hu
  simpa using List.any_eq_false.mp h u hu

theorem closed_nil : Closed s quiet [] := (closedAnywhere_plain rfl).closed

theorem closedAnywhere_colon : ClosedAnywhere s quiet [':'] := by
  have haction (before rest : List Char) : codeAction s before ':' rest = .token .colon := by
    simp [codeAction, singleAction, openClass?, closeClass?, isQuote]
  intro after before pos d
  have hbytes : bytes [':'] = [':'] := by decide
  simp only [hbytes, stateFrom, eventsFrom, step, Mode.action, haction, Action.run, emitted]
  refine ⟨trivial, ?_⟩
  intro e he htop
  obtain rfl : e = ⟨pos, .colon, d.isZero⟩ := by simpa using he
  exact ⟨htop, by simp⟩

/-- An equals sign before a blank is no part of an arrow. -/
theorem closedAnywhere_equals : ClosedAnywhere s quiet " = ".toList := by
  have haction (before rest : List Char) :
      codeAction s before '=' (' ' :: rest) = .move .code := by
    simp [codeAction, singleAction, openClass?, closeClass?, isQuote]
  have hblank (before rest : List Char) : codeAction s before ' ' rest = .move .code :=
    codeAction_plain s before ' ' rest rfl
  apply closedAnywhere_of_passedOver
  intro after before pos d
  have hbytes : bytes " = ".toList = [' ', '=', ' '] := by decide
  simp only [hbytes, stateFrom, eventsFrom, List.cons_append, List.nil_append, step, Mode.action,
    haction, hblank, Action.run, emitted]
  exact ⟨trivial, rfl⟩

theorem closedAnywhere_arrow : ClosedAnywhere s false "=>".toList := by
  have haction (before rest : List Char) :
      codeAction s before '=' ('>' :: rest) = .token .arrow := by
    simp [codeAction, isQuote]
  intro after before pos d
  have hbytes : bytes "=>".toList = ['=', '>'] := by decide
  simp only [hbytes, stateFrom, eventsFrom, List.cons_append, step, Mode.action, haction,
    Action.run, emitted]
  refine ⟨trivial, ?_⟩
  intro e he htop
  obtain rfl : e = ⟨pos, .arrow, d.isZero⟩ := by simpa using he
  exact ⟨htop, by simp⟩

end Together

/-! ### Groups -/

theorem isZero_set_succ (d : Depth) (k : Class) (n : Nat) : (d.set k (n + 1)).isZero = false := by
  cases k <;> simp [Depth.set, Depth.isZero]

theorem set_set_get (d : Depth) (k : Class) (n : Nat) : (d.set k n).set k (d.get k) = d := by
  cases k <;> rfl

theorem openChar_loose (k : Class) (before : List Char) : Loose (k.openChar :: before) := by
  intro c hc
  obtain rfl : k.openChar = c := by simpa using hc
  cases k <;> decide

theorem bytes_group (k : Class) (cs : List Char) :
    bytes (k.openChar :: (cs ++ [k.closeChar])) = k.openChar :: (bytes cs ++ [k.closeChar]) := by
  have hopen : bytes [k.openChar] = [k.openChar] := by cases k <;> decide
  have hclose : bytes [k.closeChar] = [k.closeChar] := by cases k <;> decide
  rw [bytes_cons, bytes_append, hopen, hclose]
  rfl

/-- A closed text in brackets: the scan comes back to where it was, with the events of the two
brackets and between them none that is top level. -/
theorem run_group (s : Settings) (hs : s.angles = true) (k : Class) (cs : List Char)
    (hcs : Closed s false cs) (after before : List Char)
    (hopen : codeAction s before k.openChar (bytes cs ++ k.closeChar :: after) =
      .token (.opening k)) (pos : Nat) (d : Depth) :
    stateFrom s after before ⟨.code, d⟩ (bytes (k.openChar :: (cs ++ [k.closeChar]))) =
        ⟨.code, d⟩ ∧
      ∃ inner stop, (∀ e ∈ inner, e.topLevel = false) ∧
        eventsFrom s after before pos ⟨.code, d⟩ (bytes (k.openChar :: (cs ++ [k.closeChar]))) =
          ⟨pos, .opening k, d.isZero⟩ :: (inner ++ [⟨stop, .closing k, d.isZero⟩]) := by
  let deeper : Depth := d.set k (d.get k + 1)
  have hfirst : step s before k.openChar (bytes cs ++ [k.closeChar] ++ after) ⟨.code, d⟩ =
      (⟨.code, deeper⟩, some (.opening k, d.isZero)) := by
    rw [step, Mode.action, List.append_assoc, List.singleton_append, hopen]
    rfl
  obtain ⟨hstate, hevents⟩ := hcs ([k.closeChar] ++ after) (k.openChar :: before)
    (openChar_loose k before) (pos + 1) deeper
  -- the closing bracket finds one more open than there was, and takes it back
  have hlast (prior : List Char) : step s prior k.closeChar ([] ++ after) ⟨.code, deeper⟩ =
      (⟨.code, d⟩, some (.closing k, d.isZero)) := by
    have hcount : deeper.get k = d.get k + 1 := by simp [deeper, get_set]
    rw [step, Mode.action, codeAction_close s hs k]
    simp only [Action.run, hcount, Nat.add_one_ne_zero, beq_iff_eq, ↓reduceIte, Nat.add_sub_cancel]
    rw [set_set_get]
  rw [bytes_group, stateFrom, eventsFrom, hfirst]
  dsimp only
  rw [stateFrom_append, eventsFrom_append, hstate]
  simp only [stateFrom, eventsFrom, hlast]
  refine ⟨trivial, _, _, ?_, rfl⟩
  intro e he
  by_contra htop
  have hzero := (hevents e he (by simpa using htop)).1
  rw [isZero_set_succ] at hzero
  cases hzero

theorem closedIn_group (s : Settings) (hs : s.angles = true) (k : Class) (cs : List Char)
    (hcs : Closed s false cs) (after before : List Char)
    (hopen : codeAction s before k.openChar (bytes cs ++ k.closeChar :: after) =
      .token (.opening k)) :
    ClosedIn s true after before (k.openChar :: (cs ++ [k.closeChar])) := by
  intro pos d
  obtain ⟨hstate, inner, stop, hinner, hevents⟩ := run_group s hs k cs hcs after before hopen pos d
  refine ⟨hstate, ?_⟩
  intro e he htop
  rw [hevents, List.mem_cons, List.mem_append, List.mem_singleton] at he
  rcases he with rfl | he | rfl
  · exact ⟨htop, by simp⟩
  · rw [hinner e he] at htop
    cases htop
  · exact ⟨htop, by simp⟩

theorem closedAnywhere_group (s : Settings) (hs : s.angles = true) (k : Class) (hk : k ≠ .angle)
    (cs : List Char) (hcs : Closed s false cs) :
    ClosedAnywhere s true (k.openChar :: (cs ++ [k.closeChar])) := by
  intro after before
  exact closedIn_group s hs k cs hcs after before (codeAction_open s k hk before _)

/-- The closing bracket of a group after a closed text is a top-level event of the scan. -/
theorem closing_mem_scan (s : Settings) (hs : s.angles = true) (k : Class) (hk : k ≠ .angle)
    (pre cs post : List Char) (hpre : ClosedAnywhere s false pre) (hcs : Closed s false cs) :
    ∃ e ∈ scan s (pre ++ (k.openChar :: (cs ++ [k.closeChar])) ++ post),
      e.token = .closing k ∧ e.topLevel = true := by
  let group : List Char := k.openChar :: (cs ++ [k.closeChar])
  have hstate : stateFrom s (bytes group ++ bytes post) [] {} (bytes pre) = {} :=
    (hpre _ [] 0 {}).1
  obtain ⟨_, inner, stop, _, hevents⟩ := run_group s hs k cs hcs (bytes post)
    ((bytes pre).reverse ++ []) (codeAction_open s k hk _ _) (0 + (bytes pre).length) {}
  refine ⟨⟨stop, .closing k, true⟩, ?_, rfl, rfl⟩
  rw [scan, List.append_assoc, bytes_append, bytes_append, scanFrom_append, hstate,
    scanFrom_append, hevents]
  simp [Depth.isZero]

end Synopsis.Delimiter
