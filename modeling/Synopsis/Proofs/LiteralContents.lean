import Synopsis.Proofs.Surroundings

/-! Literals are passed over: two texts that differ only in what a literal holds, but not in how
long it is, have the same events. -/
namespace Synopsis.Delimiter
open Text

/-- How a literal is quoted. -/
inductive Quotation where
  | single
  | double
  | backtick
  | tripleSingle
  | tripleDouble
  deriving DecidableEq, Repr

namespace Quotation

def char : Quotation → Char
  | single | tripleSingle => '\''
  | double | tripleDouble => '"'
  | backtick => '\x60'

/-- Three quotes on each side. -/
def isLong : Quotation → Bool
  | tripleSingle | tripleDouble => true
  | _ => false

/-- The quotes on one side. -/
def text (q : Quotation) : List Char := if q.isLong then [q.char, q.char, q.char] else [q.char]

/-- The literal may go on over the end of a line. -/
def spansLines (q : Quotation) : Bool := q.isLong || q == backtick

/-- Where the scan stands inside the literal. -/
def mode (q : Quotation) : Mode := if q.isLong then .longLiteral q.char else .literal q.char

/-- Characters other than the quote and the backslash, no line feed where the literal keeps to its
line, and pairs of a backslash and any character. -/
inductive Content (q : Quotation) : List Char → Prop
  | nil : Content q []
  | plain (c : Char) (cs : List Char) (hquote : c ≠ q.char) (hescape : c ≠ '\\')
      (hline : c = '\n' → q.spansLines = true) (h : Content q cs) : Content q (c :: cs)
  | escape (c : Char) (cs : List Char) (h : Content q cs) : Content q ('\\' :: c :: cs)

theorem isWall_char (q : Quotation) : isWall q.char = true := by
  cases q <;> decide

theorem char_ascii (q : Quotation) : q.char.toNat < 128 := by
  cases q <;> decide

theorem char_ne_escape (q : Quotation) : '\\' ≠ q.char := by
  cases q <;> decide

theorem bytes_text (q : Quotation) : bytes q.text = q.text := by
  cases q <;> rfl

/-! ### Inside -/

theorem passedOver_plain (s : Settings) (q : Quotation) (u : Char) (hquote : u ≠ q.char)
    (hescape : u ≠ '\\') (hline : u = '\n' → q.spansLines = true) :
    PassedOver s q.mode [u] := by
  apply passedOver_byte
  intro before rest
  cases hlong : q.isLong with
  | true => simp [mode, hlong, Mode.action, hquote, hescape]
  | false =>
    -- a line feed is read only between backticks
    have hstay : (u == '\n' && q.char != '\x60') = false := by
      by_cases hu : u = '\n'
      · have hspans := hline hu
        cases q <;> simp_all [spansLines, isLong, char]
      · simp [hu]
    simp [mode, hlong, Mode.action, hquote, hescape, hstay]

theorem passedOver_escape (s : Settings) (q : Quotation) (u : Char) :
    PassedOver s q.mode ['\\', u] := by
  have hquote := q.char_ne_escape
  have haction (before rest : List Char) :
      q.mode.action s before '\\' rest = .move (.skip 1 q.mode) := by
    cases hlong : q.isLong with
    | true => simp [mode, hlong, Mode.action, hquote]
    | false => simp [mode, hlong, Mode.action]
  intro after before pos d
  simp only [stateFrom, eventsFrom, step, haction]
  exact ⟨rfl, rfl⟩

theorem passedOver_high (s : Settings) (q : Quotation) (us : List Char)
    (hus : ∀ u ∈ us, 128 ≤ u.toNat) : PassedOver s q.mode us := by
  apply passedOver_bytes
  intro u hu
  have hhigh := hus u hu
  have hne (a : Char) (ha : a.toNat < 128) : u ≠ a := by
    rintro rfl
    omega
  apply passedOver_plain
  · exact hne _ q.char_ascii
  · exact hne _ (by decide)
  · intro hu
    exact absurd hu (hne _ (by decide))

/-- The bytes of a character after the first lie above the ASCII range. -/
theorem bytes_tail_high (c : Char) : ∃ u us, bytes [c] = u :: us ∧ ∀ v ∈ us, 128 ≤ v.toNat := by
  by_cases hc : c.toNat < 128
  · exact ⟨c, [], bytes_ascii c hc, by simp⟩
  · have hhigh := high_of_mem_bytes c
    cases hbytes : bytes [c] with
    | nil =>
      have hlength := length_bytes [c]
      have hsize := Char.utf8Size_pos c
      simp only [hbytes, List.length_nil, byteLength] at hlength
      omega
    | cons u us =>
      refine ⟨u, us, rfl, ?_⟩
      intro v hv
      apply hhigh v (by omega)
      rw [hbytes]
      exact List.mem_cons_of_mem u hv

/-- The scan reads the content of a literal to its end. -/
theorem passedOver_content (s : Settings) (q : Quotation) (cs : List Char) (h : q.Content cs) :
    PassedOver s q.mode (bytes cs) := by
  induction h with
  | nil => exact passedOver_nil s q.mode
  | plain c cs hquote hescape hline _ ih =>
    rw [bytes_cons]
    refine PassedOver.append ?_ ih
    by_cases hc : c.toNat < 128
    · rw [bytes_ascii c hc]
      exact passedOver_plain s q c hquote hescape hline
    · apply passedOver_high
      intro u hu
      exact high_of_mem_bytes c u (by omega) hu
  | escape c cs _ ih =>
    -- the backslash passes over the first byte of the character, and the others are plain
    obtain ⟨u, us, hbytes, hus⟩ := bytes_tail_high c
    have hsplit : bytes ('\\' :: c :: cs) = ['\\', u] ++ (us ++ bytes cs) := by
      rw [bytes_cons, bytes_cons c, hbytes]
      rfl
    rw [hsplit]
    exact (passedOver_escape s q u).append ((passedOver_high s q us hus).append ih)

/-- The first byte of a content is not the quote. -/
theorem head?_content (q : Quotation) (cs rest : List Char) (h : q.Content cs) (hne : cs ≠ []) :
    (bytes cs ++ rest).head? ≠ some q.char := by
  cases h with
  | nil => exact absurd rfl hne
  | escape c cs _ =>
    rw [bytes_cons]
    intro hhead
    exact q.char_ne_escape (by simpa [bytes_ascii] using hhead)
  | plain c cs hquote _ _ _ =>
    -- the quote is ASCII, so that only its own character has it as a byte
    obtain ⟨u, us, hbytes, _⟩ := bytes_tail_high c
    rw [bytes_cons, hbytes]
    intro hhead
    obtain rfl : u = q.char := by simpa using hhead
    have hmem : q.char ∈ bytes [c] := by
      rw [hbytes]
      exact List.mem_cons_self
    rcases mem_bytes_cases [c] q.char hmem with hc | hhigh
    · exact hquote (List.mem_singleton.mp hc).symm
    · have hlow := q.char_ascii
      omega

/-! ### From quote to quote -/

/-- The opening quotes lead into the literal, unless a short one is followed by its quote. -/
theorem enters (s : Settings) (q : Quotation) (after before : List Char) (pos : Nat) (d : Depth)
    (h : after.head? ≠ some q.char) :
    stateFrom s after before ⟨.code, d⟩ q.text = ⟨q.mode, d⟩ ∧
      eventsFrom s after before pos ⟨.code, d⟩ q.text = [] := by
  have hquotes : [q.char, q.char].isPrefixOf after = false := by
    cases after with
    | nil => rfl
    | cons x after =>
      have hx : q.char ≠ x := by
        rintro rfl
        exact h rfl
      simp [List.isPrefixOf, hx]
  cases q <;> simp_all [text, mode, isLong, char, stateFrom, eventsFrom, step, Mode.action,
    codeAction, isQuote, Action.run, emitted]

theorem leaves (s : Settings) (q : Quotation) (after before : List Char) (pos : Nat) (d : Depth) :
    stateFrom s after before ⟨q.mode, d⟩ q.text = ⟨.code, d⟩ ∧
      eventsFrom s after before pos ⟨q.mode, d⟩ q.text = [] := by
  cases q <;> simp [text, mode, isLong, char, stateFrom, eventsFrom, step, Mode.action,
    Action.run, emitted]

/-- A literal with its content. -/
def literal (q : Quotation) (cs : List Char) : List Char := q.text ++ cs ++ q.text

theorem passedOver_literal (s : Settings) (q : Quotation) (cs : List Char) (h : q.Content cs)
    (hne : cs ≠ []) : PassedOver s .code (bytes (q.literal cs)) := by
  intro after before pos d
  have henter := enters s q (bytes cs ++ (q.text ++ after)) before pos d
    (head?_content q cs _ h hne)
  obtain ⟨hmid, hmid'⟩ := passedOver_content s q cs h (q.text ++ after)
    (q.text.reverse ++ before) (pos + q.text.length) d
  have hleave := leaves s q after ((q.text ++ bytes cs).reverse ++ before)
    (pos + (q.text ++ bytes cs).length) d
  have hopen : stateFrom s (q.text ++ after) before ⟨.code, d⟩ (q.text ++ bytes cs) = ⟨q.mode, d⟩ ∧
      eventsFrom s (q.text ++ after) before pos ⟨.code, d⟩ (q.text ++ bytes cs) = [] := by
    rw [stateFrom_append, eventsFrom_append, henter.1, henter.2, hmid, hmid']
    exact ⟨rfl, rfl⟩
  have hbytes : bytes (q.literal cs) = (q.text ++ bytes cs) ++ q.text := by
    rw [literal, bytes_append, bytes_append, bytes_text]
  rw [hbytes, stateFrom_append, eventsFrom_append, hopen.1, hopen.2, hleave.1, hleave.2]
  exact ⟨rfl, rfl⟩

/-- Looking back from behind a literal, its quote comes first. -/
theorem reverse_literal (q : Quotation) (cs before : List Char) :
    ∃ x, (bytes (q.literal cs)).reverse ++ before = [] ++ q.char :: x := by
  have hlast : ∃ front, q.text = front ++ [q.char] := by
    cases hlong : q.isLong with
    | true => exact ⟨[q.char, q.char], by simp [text, hlong]⟩
    | false => exact ⟨[], by simp [text, hlong]⟩
  obtain ⟨front, hfront⟩ := hlast
  rw [literal, bytes_append, q.bytes_text, hfront]
  simp

/-! ### Two contents -/

/-- From before, literals in the same quotes look the same. -/
theorem alike_literal (q : Quotation) (cs ds rest : List Char) (hcs : q.Content cs)
    (hds : q.Content ds) (hcs' : cs ≠ []) (hds' : ds ≠ []) :
    Alike (bytes (q.literal cs) ++ rest) (bytes (q.literal ds) ++ rest) := by
  have hsplit (es : List Char) :
      bytes (q.literal es) ++ rest = q.text ++ (bytes es ++ (q.text ++ rest)) := by
    rw [literal, bytes_append, bytes_append, bytes_text]
    simp only [List.append_assoc]
  rw [hsplit, hsplit]
  cases hlong : q.isLong with
  | true =>
    have htext : q.text = [q.char, q.char, q.char] := by simp [text, hlong]
    constructor
    · simp [htext]
    · intro r _
      simp [htext, List.isPrefixOf]
  | false =>
    have htext : q.text = [q.char] := by simp [text, hlong]
    rw [htext]
    constructor
    · rfl
    · -- the byte after a single quote is no quote of its kind
      intro r _
      have hnone (es : List Char) (hes : q.Content es) (hes' : es ≠ []) :
          [r, r].isPrefixOf ([q.char] ++ (bytes es ++ ([q.char] ++ rest))) = false := by
        have hhead := head?_content q es ([q.char] ++ rest) hes hes'
        by_cases hr : r = q.char
        · cases hes : bytes es ++ ([q.char] ++ rest) with
          | nil => simp [List.isPrefixOf]
          | cons x xs =>
            rw [hes] at hhead
            have hx : q.char ≠ x := by
              rintro rfl
              exact hhead rfl
            simp [List.isPrefixOf, hr, hx]
        · simp [List.isPrefixOf, hr]
      rw [hnone cs hcs hcs', hnone ds hds hds']

end Quotation

/-- In the text `p ++ rest` the scan stands at the end of `p` in code, outside literals and
comments. -/
def StandsInCode (s : Settings) (p rest : List Char) : Prop :=
  (stateFrom s (bytes rest) [] {} (bytes p)).mode = .code

theorem scan_past (s : Settings) (p literal suffix : List Char)
    (hp : StandsInCode s p (literal ++ suffix)) (h : PassedOver s .code (bytes literal)) :
    scan s (p ++ literal ++ suffix) =
      eventsFrom s (bytes (literal ++ suffix)) [] 0 {} (bytes p) ++
        scanFrom s ((bytes literal).reverse ++ ((bytes p).reverse ++ []))
          (byteLength p + byteLength literal)
          (stateFrom s (bytes (literal ++ suffix)) [] {} (bytes p)) (bytes suffix) := by
  unfold StandsInCode at hp
  rw [scan, List.append_assoc, bytes_append, scanFrom_append]
  generalize hst : stateFrom s (bytes (literal ++ suffix)) [] {} (bytes p) = st at hp ⊢
  obtain ⟨m, d⟩ := st
  obtain rfl : m = .code := hp
  obtain ⟨hstate, hevents⟩ :=
    h (bytes suffix) ((bytes p).reverse ++ []) (0 + (bytes p).length) d
  rw [bytes_append literal suffix, scanFrom_append, hstate, hevents, List.nil_append,
    length_bytes, length_bytes, Nat.zero_add]

/-- What a literal holds never matters: with the same quotes around it, another content of the same
length in bytes gives the same events, whatever the settings and whatever stands around it. -/
theorem scan_literal_contents (s : Settings) (q : Quotation) (p suffix cs ds : List Char)
    (hp : StandsInCode s p (q.literal cs ++ suffix)) (hcs : q.Content cs) (hds : q.Content ds)
    (hne : cs ≠ []) (hlength : byteLength cs = byteLength ds) :
    scan s (p ++ q.literal cs ++ suffix) = scan s (p ++ q.literal ds ++ suffix) := by
  have hne' : ds ≠ [] := by
    rintro rfl
    cases cs with
    | nil => exact hne rfl
    | cons c cs =>
      have hsize := Char.utf8Size_pos c
      simp only [byteLength] at hlength
      omega
  have halike : Alike (bytes (q.literal cs ++ suffix)) (bytes (q.literal ds ++ suffix)) := by
    rw [bytes_append, bytes_append]
    exact q.alike_literal cs ds (bytes suffix) hcs hds hne hne'
  have hstate := stateFrom_alike s _ _ [] {} (bytes p) halike trivial
  have hevents := eventsFrom_alike s _ _ [] 0 {} (bytes p) halike trivial
  have hp' : StandsInCode s p (q.literal ds ++ suffix) := by
    unfold StandsInCode at hp ⊢
    rw [← hstate]
    exact hp
  have hsize : byteLength (q.literal cs) = byteLength (q.literal ds) := by
    simp only [Quotation.literal, byteLength_append, hlength]
  -- behind the closing quote the look back for a word stops at that quote
  obtain ⟨x, hx⟩ := q.reverse_literal cs ((bytes p).reverse ++ [])
  obtain ⟨y, hy⟩ := q.reverse_literal ds ((bytes p).reverse ++ [])
  rw [scan_past s p _ suffix hp (q.passedOver_literal s cs hcs hne),
    scan_past s p _ suffix hp' (q.passedOver_literal s ds hds hne'), hstate, hevents, hsize, hx, hy,
    scanFrom_past_wall s [] x y q.char _ _ _ q.isWall_char]

/-- A literal in triple quotes with an escaped letter of two bytes, a brace and a line feed, before
a comparison that would be a template bracket or not by the word before it. -/
theorem scan_literal_contents_triple :
    let p := "f<T>(s = ".toList
    let suffix := " < g(1)) \x7b /* ( */ \x7d".toList
    scan { angles := true } (p ++ Quotation.tripleDouble.literal "\\é\x7b\n".toList ++ suffix) =
      scan { angles := true } (p ++ Quotation.tripleDouble.literal "rator".toList ++ suffix) := by
  intro p suffix
  have hescaped : Quotation.tripleDouble.Content "\\é\x7b\n".toList :=
    .escape _ _ (.plain _ _ (by decide) (by decide) (fun _ => rfl)
      (.plain _ _ (by decide) (by decide) (fun _ => rfl) .nil))
  have hword : Quotation.tripleDouble.Content "rator".toList := by
    refine .plain _ _ ?_ ?_ ?_ (.plain _ _ ?_ ?_ ?_ (.plain _ _ ?_ ?_ ?_ (.plain _ _ ?_ ?_ ?_
      (.plain _ _ ?_ ?_ ?_ .nil)))) <;> decide
  exact scan_literal_contents _ _ p suffix _ _ (by unfold StandsInCode; decide +kernel) hescaped
    hword (by decide) (by decide +kernel)

end Synopsis.Delimiter
