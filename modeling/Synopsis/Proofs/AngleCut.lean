import Synopsis.Proofs.AngleScan
import Synopsis.Proofs.BodyBrace

/-! Cuts with angle brackets as delimiters beside cuts without them. A cut is found by both or
by neither, and never moves to the left; a `<` that nothing closes can move the brace cut to
an earlier candidate. -/
namespace Synopsis.Body
open Delimiter

/-- Top-level tokens other than angle brackets are seen without angle brackets too. -/
theorem mem_scan_of_angles (t : List Char) (e : Event)
    (he : e ∈ scan { angles := true } t) (htoken : e.token.isAngle = false)
    (htop : e.topLevel = true) : e ∈ scan {} t :=
  (scan_hides {} t).mem_of_topLevel e he htoken htop

theorem candidate_of_angles (afterParams : Bool) (t : List Char) (i : Nat)
    (h : Candidate afterParams (scan { angles := true } t) i) :
    Candidate afterParams (scan {} t) i := by
  refine ⟨mem_scan_of_angles t _ h.opens rfl rfl, fun hp => ?_⟩
  obtain ⟨e, he, htoken, htop⟩ := h.params hp
  obtain ⟨hmem, hlt⟩ := List.mem_filter.mp he
  have hoff := mem_scan_of_angles t e hmem (by rw [htoken]; rfl) htop
  exact ⟨e, List.mem_filter.mpr ⟨hoff, hlt⟩, htoken, htop⟩

theorem brace?_angles (afterParams : Bool) (t : List Char) :
    brace? true afterParams t =
      (braceOf true afterParams t).or (braceOf false afterParams t) := by
  unfold brace?
  cases braceOf true afterParams t <;> rfl

theorem brace?_plain (afterParams : Bool) (t : List Char) :
    brace? false afterParams t = braceOf false afterParams t := by
  unfold brace?
  cases braceOf false afterParams t <;> rfl

/-- With angle brackets or without, a brace is found or not. -/
theorem brace?_angles_eq_none (afterParams : Bool) (t : List Char) :
    brace? true afterParams t = none ↔ brace? false afterParams t = none := by
  rw [brace?_angles, brace?_plain, Option.or_eq_none_iff, and_iff_right_iff_imp]
  intro hoff
  rw [braceOf_eq_none] at hoff ⊢
  intro i hi
  exact hoff i (candidate_of_angles afterParams t i hi)

theorem firstTop?_eq_none (token : Token) (es : List Event) :
    firstTop? token es = none ↔ ∀ e ∈ es, e.token = token → e.topLevel = false := by
  simp only [firstTop?, Option.map_eq_none_iff, List.find?_eq_none, Bool.and_eq_true,
    beq_iff_eq, not_and]
  refine forall₂_congr fun e _ => ?_
  cases e.topLevel <;> simp

/-- The first top-level token is no later than any other. -/
theorem firstTop?_le (token : Token) (es : List Event) (e : Event)
    (hordered : es.Pairwise (fun a b => a.pos < b.pos)) (he : e ∈ es)
    (htoken : e.token = token) (htop : e.topLevel = true) :
    ∃ j, firstTop? token es = some j ∧ j ≤ e.pos := by
  induction es with
  | nil => simp at he
  | cons a es ih =>
    by_cases ha : a.topLevel = true ∧ a.token = token
    · refine ⟨a.pos, by simp [firstTop?, ha], ?_⟩
      rcases List.mem_cons.mp he with rfl | he
      · exact le_rfl
      · exact (List.rel_of_pairwise_cons hordered he).le
    · have hskip : firstTop? token (a :: es) = firstTop? token es := by
        have hfalse : (a.topLevel && a.token == token) = false := by simpa using ha
        simp [firstTop?, hfalse]
      rw [hskip]
      rcases List.mem_cons.mp he with rfl | he
      · exact absurd ⟨htop, htoken⟩ ha
      · exact ih hordered.of_cons he

theorem mem_of_firstTop? (token : Token) (es : List Event) (i : Nat)
    (h : firstTop? token es = some i) : ⟨i, token, true⟩ ∈ es := by
  obtain ⟨e, he, rfl⟩ := Option.map_eq_some_iff.mp h
  obtain ⟨htop, htoken⟩ : e.topLevel = true ∧ e.token = token := by
    simpa using List.find?_some he
  rw [← htop, ← htoken]
  exact List.mem_of_find?_eq_some he

/-- The arrow found lies at or behind the first one seen without angle brackets. -/
theorem arrow?_behind (t : List Char) (i : Nat) (h : arrow? t = some i) :
    ∃ j, firstTop? .arrow (scan {} t) = some j ∧ j ≤ i := by
  rcases Option.or_eq_some_iff.mp h with h | ⟨_, h⟩
  · have hoff := mem_scan_of_angles t _ (mem_of_firstTop? _ _ i h) rfl rfl
    exact firstTop?_le .arrow _ _ (scan_ordered {} t) hoff rfl rfl
  · exact ⟨i, h, le_rfl⟩

theorem arrow?_eq_none (t : List Char) :
    arrow? t = none ↔ ∀ e ∈ scan {} t, e.token = .arrow → e.topLevel = false := by
  rw [← firstTop?_eq_none]
  constructor
  · intro h
    exact (Option.or_eq_none_iff.mp h).2
  · intro h
    cases harrow : arrow? t with
    | none => rfl
    | some i =>
      obtain ⟨j, hj, _⟩ := arrow?_behind t i harrow
      rw [h] at hj
      cases hj

/-- Counting angle brackets hides tokens and neither invents nor loses a cut. The two scans
have the same brackets and colons; the arrows and the top-level tokens of the one that counts
are among those of the other; a body brace is found by both or by neither; and an arrow is
found exactly if the scan without angle brackets has one at top level, at or behind the first. -/
theorem angles_only_hide (s : Settings) (afterParams : Bool) (t : List Char) :
    ((scan (s.withAngles true) t).filter (·.token.isPlain)).map (fun e => (e.pos, e.token)) =
        ((scan (s.withAngles false) t).filter (·.token.isPlain)).map
          (fun e => (e.pos, e.token)) ∧
      (∀ e ∈ scan (s.withAngles true) t, e.token = .arrow →
        ∃ f ∈ scan (s.withAngles false) t, f.pos = e.pos ∧ f.token = .arrow) ∧
      (∀ e ∈ scan (s.withAngles true) t, e.token.isAngle = false → e.topLevel = true →
        e ∈ scan (s.withAngles false) t) ∧
      (brace? true afterParams t = none ↔ brace? false afterParams t = none) ∧
      (arrow? t = none ↔ ∀ e ∈ scan {} t, e.token = .arrow → e.topLevel = false) ∧
      (∀ i, arrow? t = some i → ∃ j, firstTop? .arrow (scan {} t) = some j ∧ j ≤ i) := by
  have hhides := scan_hides s t
  refine ⟨hhides.plain, ?_, hhides.mem_of_topLevel, brace?_angles_eq_none afterParams t,
    arrow?_eq_none t, arrow?_behind t⟩
  intro e he htoken
  obtain ⟨top, hmem, _⟩ := hhides.exists_mem e he (by rw [htoken]; rfl)
  exact ⟨_, hmem, rfl, htoken⟩

/-! ### A brace group at the end of the text -/

/-- No candidate lies behind the one that opens the group at the end. -/
theorem candidate_le_of_endsInGroup (s : Settings) (afterParams : Bool) (t : List Char)
    (o i : Nat)
    (h : EndsInGroup afterParams (scan s t) (Text.byteLength (Text.trimEnd t)) o)
    (hi : Candidate afterParams (scan s t) i) : i ≤ o := by
  obtain ⟨before, inner, c, _, _, hinner, hscan⟩ :=
    split_of_endsInGroup afterParams _ _ o (scan_ordered s t) (event_before_blanks s t) h
  have hordered := scan_ordered s t
  have hopens := hi.opens
  rw [hscan] at hordered hopens
  by_contra hlt
  have hmem := mem_right_of_lt before _ _ _ hordered hopens (by dsimp only; omega)
  rcases List.mem_append.mp hmem with hmem | hmem
  · have hbrace := hinner _ hmem
    simp [isTopBrace] at hbrace
  · simp at hmem

/-- The brace found with angle brackets is a candidate without them. -/
theorem candidate_of_brace? (afterParams : Bool) (t : List Char) (i : Nat)
    (h : brace? true afterParams t = some i) : Candidate afterParams (scan {} t) i := by
  rw [brace?_angles, Option.or_eq_some_iff] at h
  rcases h with h | ⟨_, h⟩
  · exact candidate_of_angles afterParams t i (candidate_of_braceOf true afterParams t i h).1
  · exact (candidate_of_braceOf false afterParams t i h).1

/-- What the scan with angle brackets sees of a group at `o` that ends the text before `stop`:
both its braces at top level. -/
def SeesGroup (t : List Char) (stop o : Nat) : Prop :=
  ⟨o, .opening .brace, true⟩ ∈ scan { angles := true } t ∧
    ⟨stop-1, .closing .brace, true⟩ ∈ scan { angles := true } t

/-- A group that is seen with angle brackets is found, by the first scan or by the second. -/
theorem brace?_of_seesGroup (afterParams : Bool) (t : List Char) (o : Nat)
    (h : EndsInGroup afterParams (scan {} t) (Text.byteLength (Text.trimEnd t)) o)
    (hsees : SeesGroup t (Text.byteLength (Text.trimEnd t)) o) :
    brace? true afterParams t = some o := by
  obtain ⟨hopen, hclose⟩ := hsees
  rw [brace?_angles]
  by_cases hcandidate : Candidate afterParams (scan { angles := true } t) o
  · have hends : EndsInGroup afterParams (scan { angles := true } t)
        (Text.byteLength (Text.trimEnd t)) o := by
      obtain ⟨c, hstop, hoc, _⟩ := h.closed
      rw [hstop] at hclose
      refine ⟨hcandidate, ⟨c, hstop, hoc, hclose⟩, fun e he ho hc => ?_⟩
      by_contra hbrace
      -- a top-level brace between the two would be seen without angle brackets
      have hbrace : isTopBrace e = true := by simpa using hbrace
      obtain ⟨htop, htoken⟩ : e.topLevel = true ∧ e.token.isAngle = false := by
        simp only [isTopBrace, Bool.and_eq_true, Bool.or_eq_true, beq_iff_eq] at hbrace
        refine ⟨hbrace.1, ?_⟩
        rcases hbrace.2 with htoken | htoken <;> rw [htoken] <;> rfl
      have hnone := h.between e (mem_scan_of_angles t e he htoken htop) ho hc
      rw [hbrace] at hnone
      cases hnone
    rw [braceOf_of_endsInGroup true afterParams t o hends]
    rfl
  · -- its parameter list is hidden, so there is no candidate at all
    have hnone : braceOf true afterParams t = none := by
      rw [braceOf_eq_none]
      intro i hi
      have hle := candidate_le_of_endsInGroup {} afterParams t o i h
        (candidate_of_angles afterParams t i hi)
      refine hcandidate ⟨hopen, fun hp => ?_⟩
      obtain ⟨e, he, hparen⟩ := hi.params hp
      obtain ⟨hmem, hlt⟩ := List.mem_filter.mp he
      have hlt : e.pos < i := by simpa using hlt
      exact ⟨e, List.mem_filter.mpr ⟨hmem, by simp; omega⟩, hparen⟩
    rw [hnone, braceOf_of_endsInGroup false afterParams t o h]
    rfl

/-- If no candidate is seen before the group, its brace is found. -/
theorem brace?_of_first (afterParams : Bool) (t : List Char) (o : Nat)
    (h : EndsInGroup afterParams (scan {} t) (Text.byteLength (Text.trimEnd t)) o)
    (hfirst : ∀ i, Candidate afterParams (scan { angles := true } t) i → o ≤ i) :
    brace? true afterParams t = some o := by
  rw [brace?_angles]
  cases hbrace : braceOf true afterParams t with
  | none =>
    rw [braceOf_of_endsInGroup false afterParams t o h]
    rfl
  | some i =>
    have hi := (candidate_of_braceOf true afterParams t i hbrace).1
    have hoi := hfirst i hi
    have hio := candidate_le_of_endsInGroup {} afterParams t o i h
      (candidate_of_angles afterParams t i hi)
    rw [show i = o by omega]
    rfl

/-- If an earlier candidate is seen, the brace of the group is found only as that of a group
seen at the end. -/
theorem seesGroup_of_brace? (afterParams : Bool) (t : List Char) (o i : Nat)
    (hbrace : brace? true afterParams t = some o)
    (hi : Candidate afterParams (scan { angles := true } t) i) (hlt : i < o) :
    SeesGroup t (Text.byteLength (Text.trimEnd t)) o := by
  -- with a candidate at hand the second scan is not made
  have hon : braceOf true afterParams t = some o := by
    rw [brace?_angles] at hbrace
    cases hfound : braceOf true afterParams t with
    | none => exact absurd hi ((braceOf_eq_none true afterParams t).mp hfound i)
    | some k => rwa [hfound] at hbrace
  obtain ⟨ho, hmin | ⟨c, hstop, hclose⟩⟩ := candidate_of_braceOf true afterParams t o hon
  · have hoi := hmin i hi
    omega
  · exact ⟨ho.opens, by rwa [hstop]⟩

/-- Where a text ends with a brace group, the brace cut without angle brackets is that group's
brace. With them a cut is found at or before it; it is the same exactly if no candidate is seen
before the group or both its braces are seen at top level. -/
theorem angle_cut_of_endsInGroup (afterParams : Bool) (t : List Char) (o : Nat)
    (h : EndsInGroup afterParams (scan {} t) (Text.byteLength (Text.trimEnd t)) o) :
    brace? false afterParams t = some o ∧
      (∃ i, brace? true afterParams t = some i ∧ i ≤ o) ∧
      (brace? true afterParams t = brace? false afterParams t ↔
        (∀ i, Candidate afterParams (scan { angles := true } t) i → o ≤ i) ∨
          SeesGroup t (Text.byteLength (Text.trimEnd t)) o) := by
  have hoff : brace? false afterParams t = some o := by
    rw [brace?_plain, braceOf_of_endsInGroup false afterParams t o h]
  obtain ⟨i, hi⟩ : ∃ i, brace? true afterParams t = some i := by
    apply Option.ne_none_iff_exists'.mp
    intro hnone
    rw [brace?_angles_eq_none, hoff] at hnone
    cases hnone
  have hle := candidate_le_of_endsInGroup {} afterParams t o i h
    (candidate_of_brace? afterParams t i hi)
  refine ⟨hoff, ⟨i, hi, hle⟩, ?_⟩
  rw [hoff]
  constructor
  · intro hsame
    by_cases hfirst : ∀ j, Candidate afterParams (scan { angles := true } t) j → o ≤ j
    · exact .inl hfirst
    · -- an earlier candidate is seen, so the group must have been read whole
      obtain ⟨j, hj, hlt⟩ :
          ∃ j, Candidate afterParams (scan { angles := true } t) j ∧ j < o := by
        simpa using hfirst
      exact .inr (seesGroup_of_brace? afterParams t o j hsame hj hlt)
  · rintro (hfirst | hsees)
    · exact brace?_of_first afterParams t o h hfirst
    · exact brace?_of_seesGroup afterParams t o h hsees

/-- An object type, type arguments and a `>` that closes nothing: both scans see the body. -/
theorem angle_cut_of_generic_call :
    let t := "f<T>(a: T): \x7b x: T \x7d \x7b if (a > 0) \x7b g<T>(a) \x7d \x7d".toList
    EndsInGroup true (scan {} t) (Text.byteLength (Text.trimEnd t)) 21 ∧
      brace? true true t = brace? false true t := by
  intro t
  have h : EndsInGroup true (scan {} t) (Text.byteLength (Text.trimEnd t)) 21 :=
    ⟨⟨by decide +kernel, fun _ => by decide +kernel⟩, ⟨46, by decide +kernel⟩,
      by decide +kernel⟩
  have hsees : SeesGroup t (Text.byteLength (Text.trimEnd t)) 21 :=
    ⟨by decide +kernel, by decide +kernel⟩
  exact ⟨h, (angle_cut_of_endsInGroup true t 21 h).2.2.mpr (.inr hsees)⟩

/-- A comparison in the body hides its closing brace, and the object type before it is taken
for the body. -/
theorem comparison_moves_cut :
    let t := "function f(): \x7b a: number \x7d \x7b return a < b; \x7d".toList
    EndsInGroup true (scan {} t) (Text.byteLength (Text.trimEnd t)) 28 ∧
      brace? false true t = some 28 ∧ brace? true true t = some 14 ∧
      stripBraced? true true t = some "function f():".toList := by
  intro t
  refine ⟨?_, by decide +kernel, by decide +kernel, by decide +kernel⟩
  exact ⟨⟨by decide +kernel, fun _ => by decide +kernel⟩, ⟨44, by decide +kernel⟩,
    by decide +kernel⟩

end Synopsis.Body
