import Synopsis.Proofs.Cut

/-! The brace cut of a declaration that is a closed head followed by a balanced body in
braces: the head. -/
namespace Synopsis.Body
open Delimiter

/-- The events of a head, `{`, a body and `}`: those of the head, the two braces at top
level, and between them none that is. -/
theorem scan_braced (s : Settings) (head body : List Char)
    (hhead : stateAfter s head = {}) (hbody : Balanced s body) :
    ∃ inner : List Event, (∀ e ∈ inner, e.topLevel = false) ∧
      scan s (head ++ '\x7b' :: (body ++ ['\x7d'])) = scan s head ++
        ⟨Text.byteLength head, .opening .brace, true⟩ :: (inner ++
          [⟨Text.byteLength head+1+Text.byteLength body, .closing .brace, true⟩]) := by
  have hbytes : Text.bytes (head ++ '\x7b' :: (body ++ ['\x7d'])) =
      Text.bytes head ++ '\x7b' :: (Text.bytes body ++ ['\x7d']) := by
    rw [Text.bytes_append, Text.bytes_cons, Text.bytes_append]
    rfl
  have hmid : stateFrom s [] ('\x7b' :: ((Text.bytes head).reverse ++ [])) (State.inBrace {})
      (Text.bytes body) = State.inBrace {} := by
    have h := stateFrom_inBrace s [] ((Text.bytes head).reverse ++ []) {} _ hbody.matched
    rw [List.nil_append] at h
    rw [h]
    exact congrArg State.inBrace hbody.closed
  refine ⟨scanFrom s ('\x7b' :: ((Text.bytes head).reverse ++ [])) (Text.byteLength head+1)
    (State.inBrace {}) (Text.bytes body), scanFrom_inBrace s [] _ _ {} _ hbody.matched, ?_⟩
  -- neither brace continues a token begun before it, so the scan may be cut at both
  have hfirst := scanFrom_append_inert s [] 0 {} (Text.bytes head)
    ('\x7b' :: (Text.bytes body ++ ['\x7d'])) (inert_cons _ _ rfl) (by exact trivial)
  have hlast := scanFrom_append_inert s ('\x7b' :: ((Text.bytes head).reverse ++ []))
    (Text.byteLength head+1) (State.inBrace {}) (Text.bytes body) ['\x7d']
    (inert_cons _ _ rfl) (by exact trivial)
  change stateFrom s [] [] {} (Text.bytes head) = {} at hhead
  rw [hhead, scanFrom_cons, step_openBrace, Text.length_bytes, Nat.zero_add, hlast, hmid,
    scanFrom_cons, step_closeBrace, Text.length_bytes] at hfirst
  rw [scan, hbytes, hfirst]
  rfl

theorem trimEnd_braced (head body : List Char) :
    Text.trimEnd (head ++ '\x7b' :: (body ++ ['\x7d'])) =
      head ++ '\x7b' :: (body ++ ['\x7d']) := by
  rw [← List.cons_append, ← List.append_assoc]
  exact Text.trimEnd_concat _ _ rfl

theorem braceOf_braced (angles callable : Bool) (head body : List Char)
    (hhead : stateAfter { angles } head = {})
    (hparams : callable = true →
      ∃ e ∈ scan { angles } head, e.token = .closing .paren ∧ e.topLevel = true)
    (hbody : Balanced { angles } body) :
    braceOf angles callable (head ++ '\x7b' :: (body ++ ['\x7d'])) =
      some (Text.byteLength head) := by
  obtain ⟨inner, hinner, hscan⟩ := scan_braced { angles } head body hhead hbody
  have hlength : Text.byteLength (head ++ '\x7b' :: (body ++ ['\x7d'])) =
      Text.byteLength head+1+Text.byteLength body+1 := by
    rw [Text.byteLength_append, Text.byteLength, Text.byteLength_append]
    simp only [Text.byteLength]
    change _ + (1 + (_ + 1)) = _
    omega
  -- the last group ends where the trimmed text does, so it is taken for the body
  refine braceOf_of_split angles callable _ _ _ _ inner hscan ?_ hparams ?_
  · rw [trimEnd_braced, hlength]
  · intro e he
    simp [isTopBrace, hinner e he]

/-- For a head that starts with no blank and is scanned to its end with nothing open, and a
balanced body, the body's brace is found right after the head, and the text without its body
is the head without trailing blanks. -/
theorem brace_cut_of_braced (angles callable : Bool) (head body : List Char)
    (hstart : ∃ c rest, head = c :: rest ∧ Text.isBlank c = false)
    (hhead : stateAfter { angles } head = {})
    (hparams : callable = true →
      ∃ e ∈ scan { angles } head, e.token = .closing .paren ∧ e.topLevel = true)
    (hbody : Balanced { angles } body) :
    brace? angles callable (head ++ '\x7b' :: (body ++ ['\x7d'])) =
        some (Text.byteLength head) ∧
      stripBraced? angles callable (head ++ '\x7b' :: (body ++ ['\x7d'])) =
        some (Text.trimEnd head) := by
  have hbrace : brace? angles callable (head ++ '\x7b' :: (body ++ ['\x7d'])) =
      some (Text.byteLength head) := by
    rw [brace?, braceOf_braced angles callable head body hhead hparams hbody]
  obtain ⟨c, rest, rfl, hc⟩ := hstart
  have hend : Text.trimEnd (c :: rest) ≠ [] := by
    intro h
    have hblank := List.rdropWhile_eq_nil_iff.mp h c List.mem_cons_self
    simp [hc] at hblank
  have htrim : Text.trim (c :: rest ++ '\x7b' :: (body ++ ['\x7d'])) =
      c :: rest ++ '\x7b' :: (body ++ ['\x7d']) := by
    rw [Text.trim, List.cons_append, Text.trimStart_cons c _ hc, ← List.cons_append,
      trimEnd_braced]
  refine ⟨hbrace, ?_⟩
  rw [stripBraced?, stripAt?, htrim, hbrace]
  exact cutAt?_head (c :: rest) _ htrim hend

/-- A head with type arguments, a literal with an escaped letter of two bytes and a brace, and
a brace group of its own. -/
theorem brace_cut_of_generic_function :
    let head := "f<T>(s = \"\\é\x7b\"): \x7b x: T \x7d ".toList
    let body := " if (s) \x7b /* \x7d */ g(() => '\x7d') \x7d ".toList
    brace? true true (head ++ '\x7b' :: (body ++ ['\x7d'])) = some 27 ∧
      stripBraced? true true (head ++ '\x7b' :: (body ++ ['\x7d'])) =
        some "f<T>(s = \"\\é\x7b\"): \x7b x: T \x7d".toList := by
  intro head body
  have h := brace_cut_of_braced true true head body ⟨'f', _, rfl, rfl⟩ (by decide +kernel)
    (fun _ => by decide +kernel) ⟨by decide +kernel, by decide +kernel⟩
  have hlength : Text.byteLength head = 27 := by decide +kernel
  have htrim : Text.trimEnd head = "f<T>(s = \"\\é\x7b\"): \x7b x: T \x7d".toList := by
    decide +kernel
  rwa [hlength, htrim] at h

end Synopsis.Body
