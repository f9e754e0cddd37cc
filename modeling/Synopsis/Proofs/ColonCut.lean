import Synopsis.Builtin
import Synopsis.Proofs.CutHead

/-! Python headers. A header that is scanned to its end with nothing open is cut at the colon
behind it, whatever follows, and what a cut leaves has no colon to be cut at again. -/
namespace Synopsis.Body
open Delimiter Text

/-- How Python is scanned: hash comments, no slash comments, no angle brackets. -/
def colonSettings : Settings := { slashComments := false, hashComments := true }

/-- No colon of the text stands outside all brackets, literals and comments. -/
def NoTopColon (cs : List Char) : Prop :=
  ∀ e ∈ scan colonSettings cs, e.token = .colon → e.topLevel = false

theorem colon?_eq_none_iff (cs : List Char) : colon? cs = none ↔ NoTopColon cs :=
  firstTop?_eq_none .colon (scan colonSettings cs)

/-- Behind a header with nothing open and no colon at top level, the colon is found. -/
theorem colon?_header (header tail : List Char) (hstate : stateAfter colonSettings header = {})
    (hnone : NoTopColon header) :
    colon? (header ++ ':' :: tail) = some (byteLength header) := by
  have hbytes : bytes (header ++ ':' :: tail) = bytes header ++ ':' :: bytes tail := by
    rw [bytes_append, bytes_cons]
    rfl
  have hstep (before : List Char) :
      step colonSettings before ':' (bytes tail) {} = ({}, some (.colon, true)) := rfl
  -- a colon continues no token, so the header is scanned as if it stood alone
  have hscan := scanFrom_append_inert colonSettings [] 0 {} (bytes header) (':' :: bytes tail)
    (inert_cons _ _ rfl) trivial
  change _ = scan colonSettings header ++
    scanFrom _ _ _ (stateAfter colonSettings header) _ at hscan
  rw [hstate, scanFrom_cons, hstep] at hscan
  have hpass : (scan colonSettings header).find?
      (fun e => e.topLevel && e.token == .colon) = none := by
    have h := (colon?_eq_none_iff header).mpr hnone
    exact Option.map_eq_none_iff.mp h
  change firstTop? .colon (scan colonSettings (header ++ ':' :: tail)) = _
  rw [firstTop?, scan, hbytes, hscan, List.find?_append, hpass]
  simp [emitted, length_bytes]

theorem stripColon?_header (header tail : List Char)
    (hstart : ∃ c rest, header = c :: rest ∧ isBlank c = false)
    (hstate : stateAfter colonSettings header = {}) (hnone : NoTopColon header) :
    stripColon? (header ++ ':' :: tail) = some (trimEnd header) := by
  obtain ⟨c, rest, rfl, hc⟩ := hstart
  have htrim : trim (c :: rest ++ ':' :: tail) = c :: rest ++ ':' :: trimEnd tail := by
    rw [trim, List.cons_append, trimStart_cons c _ hc, ← List.cons_append]
    exact trimEnd_append_cons _ tail ':' rfl
  have hend : trimEnd (c :: rest) ≠ [] :=
    trimEnd_ne_nil (c :: rest) _ (by rw [← htrim, trim_trim]) (List.cons_ne_nil c rest)
  exact stripAt?_head colon? _ (c :: rest) _ htrim (colon?_header _ _ hstate hnone) hend

/-! ### Cutting twice -/

/-- A text that is left as it is: trimmed, and without a colon to be cut at, unless the text
starts with it. -/
theorem stripColon?_fixed (t : List Char) (ht : trim t = t)
    (hcut : NoTopColon t ∨ colon? t = some 0) : stripColon? t = some t := by
  rw [stripColon?, stripAt?, ht]
  rcases hcut with hnone | hzero
  · rw [(colon?_eq_none_iff t).mpr hnone, cutAt?, ht]
  · simp [hzero, cutAt?, ht]

/-- The part before the first colon at top level has no such colon. -/
theorem noTopColon_head (t head : List Char) (i : Nat) (hi : colon? t = some i)
    (hhead : CleanHead colonSettings t i head) : NoTopColon head := by
  intro e he htoken
  rw [hhead.stable, List.mem_filter] at he
  obtain ⟨hmem, hlt⟩ := he
  by_contra htop
  obtain ⟨j, hj, hle⟩ := firstTop?_le .colon _ e (scan_ordered colonSettings t) hmem htoken
    (by simpa using htop)
  obtain rfl : i = j := Option.some.inj (hi.symm.trans hj)
  simp only [decide_eq_true_eq] at hlt
  omega

/-- What a cut at the colon leaves is left as it is. -/
theorem stripColon?_twice (cs : List Char) :
    ∃ r, stripColon? cs = some r ∧ stripColon? r = some r := by
  have htrim := trim_trim cs
  cases hcolon : colon? (trim cs) with
  | none =>
    refine ⟨trim cs, ?_, stripColon?_fixed _ htrim (.inl ((colon?_eq_none_iff _).mp hcolon))⟩
    simp [stripColon?, stripAt?, hcolon, cutAt?]
  | some i =>
    obtain ⟨head, hhead⟩ := cleanHead_of_token colonSettings (trim cs) .colon i (by simp)
      (.inl rfl) (mem_of_firstTop? .colon _ i hcolon)
    obtain ⟨tail, hsplit⟩ := hhead.isPrefix
    by_cases hnil : head = []
    · -- a colon at the very beginning is no cut
      have hi : i = 0 := by
        rw [hhead.offset, hnil]
        rfl
      rw [hi] at hcolon
      refine ⟨trim cs, ?_, stripColon?_fixed _ htrim (.inr hcolon)⟩
      simp [stripColon?, stripAt?, hcolon, cutAt?]
    · have hleft := hhead.left htrim hnil
      have hstripped : stripColon? cs = some (trimEnd head) := by
        rw [stripColon?, stripAt?, hcolon]
        exact hleft
      refine ⟨trimEnd head, hstripped, stripColon?_fixed _ ?_ (.inl ?_)⟩
      · have htext : trim (head ++ tail) = head ++ tail := by rw [hsplit, htrim]
        exact (stripped_head head tail htext (trimEnd_ne_nil head tail htext hnil)).trimmed
      · -- trimming takes no event away, so the colons are those before the cut
        have hnone := noTopColon_head _ head i hcolon hhead
        unfold NoTopColon at hnone ⊢
        rwa [hhead.left_settled]

end Synopsis.Body

namespace Synopsis.Profile
open Delimiter Text

/-- Functions, methods and classes are cut at their colon; all else is only trimmed. -/
theorem pythonStrip_twice (kind : Kind) (cs : List Char) :
    ∃ r, pythonStrip kind cs = some r ∧ pythonStrip kind r = some r := by
  have htrimmed : ∃ r, some (trim cs) = some r ∧ some (trim r) = some r :=
    ⟨trim cs, rfl, congrArg some (trim_trim cs)⟩
  cases kind with
  | function => exact Body.stripColon?_twice cs
  | method => exact Body.stripColon?_twice cs
  | class_ => exact Body.stripColon?_twice cs
  | _ => exact htrimmed

/-- A header of a function, a method or a class that starts with no blank, is scanned to its end
with nothing open and has no colon at top level is cut at the colon behind it, whatever the tail.
For every kind and text the body is stripped, and stripping it again changes nothing. -/
theorem python_header_cut (parser : Tree.Parser) :
    let p := python parser
    (∀ kind ∈ [Kind.function, .method, .class_], ∀ header tail : List Char,
      (∃ c rest, header = c :: rest ∧ isBlank c = false) →
      stateAfter Body.colonSettings header = {} → Body.NoTopColon header →
      p.stripBody kind (header ++ ':' :: tail) = some (trimEnd header)) ∧
    ∀ (kind : Kind) (text : String), ∃ r, p.stripBody kind text.toList = some r ∧
      p.strip kind text = String.ofList r ∧
      p.strip kind (p.strip kind text) = p.strip kind text := by
  intro p
  have hstrip : p.stripBody = pythonStrip := rfl
  rw [hstrip]
  constructor
  · intro kind hkind header tail hstart hstate hnone
    have hcut := Body.stripColon?_header header tail hstart hstate hnone
    simp only [List.mem_cons, List.not_mem_nil, or_false] at hkind
    rcases hkind with rfl | rfl | rfl <;> exact hcut
  · intro kind text
    obtain ⟨r, hr, htwice⟩ := pythonStrip_twice kind text.toList
    have honce : p.strip kind text = String.ofList r := by rw [strip, hstrip, hr]; rfl
    have hagain : p.strip kind (String.ofList r) = String.ofList r := by
      rw [strip, hstrip, String.toList_ofList, htwice]
      rfl
    exact ⟨r, hr, honce, by rw [honce, hagain]⟩

/-- Colons in an annotation, a slice, a string, a dictionary and a lambda between brackets, and a
comment with an apostrophe and an open bracket; the tail closes nothing that it opens. -/
theorem python_header_cut_defaults :
    let header :=
      "def f(a: int = \x7b'k': b[1:2]\x7d, # don't (\n  g=lambda: ':') -> \"x:\" ".toList
    let tail := " # it's\n  return (".toList
    (python Parsers.bundled.python).stripBody .method (header ++ ':' :: tail) =
      some "def f(a: int = \x7b'k': b[1:2]\x7d, # don't (\n  g=lambda: ':') -> \"x:\"".toList := by
  intro header tail
  have hnone : Body.NoTopColon header := by
    unfold Body.NoTopColon
    decide +kernel
  have h := (python_header_cut Parsers.bundled.python).1 .method (by decide) header tail
    ⟨'d', _, rfl, rfl⟩ (by decide +kernel) hnone
  have htrim : trimEnd header =
      "def f(a: int = \x7b'k': b[1:2]\x7d, # don't (\n  g=lambda: ':') -> \"x:\"".toList := by
    decide +kernel
  rw [h, htrim]

end Synopsis.Profile
