import Synopsis.Body
import Synopsis.Proofs.Events

/-! Which brace is taken for the body, said of the events alone: always a candidate, the first
one unless the text ends with a brace group, and none only if there is no candidate. -/
namespace Synopsis.Body
open Delimiter

/-- A brace at top level. -/
def isTopBrace (e : Event) : Bool :=
  e.topLevel && (e.token == .opening .brace || e.token == .closing .brace)

/-- Only a brace at top level starts or ends a group. -/
theorem add_current (g : Groups) (e : Event) (h : isTopBrace e = false) :
    (g.add e).current = g.current := by
  unfold Groups.add
  split
  next => rfl
  next htop =>
    have htop : e.topLevel = true := by simpa using htop
    split
    next => rfl
    next htoken => simp [isTopBrace, htop, htoken] at h
    next htoken => simp [isTopBrace, htop, htoken] at h
    next => rfl

theorem foldl_current (es : List Event) (g : Groups) (h : ∀ e ∈ es, isTopBrace e = false) :
    (es.foldl Groups.add g).current = g.current := by
  induction es generalizing g with
  | nil => rfl
  | cons e es ih =>
    rw [List.foldl_cons, ih _ fun e' he' => h e' (List.mem_cons_of_mem e he')]
    exact add_current g e (h e List.mem_cons_self)

/-- The group of two braces with no other between them is the last one and is read whole. -/
theorem foldl_add_braced (g : Groups) (i j : Nat) (inner : List Event)
    (hg : g.paramsClosed = true) (hinner : ∀ e ∈ inner, isTopBrace e = false) :
    ((⟨i, .opening .brace, true⟩ :: (inner ++ [⟨j, .closing .brace, true⟩])).foldl
      Groups.add g).last = some (i, j+1, true) := by
  have hcurrent : (inner.foldl Groups.add (g.add ⟨i, .opening .brace, true⟩)).current =
      some (i, true) := by
    rw [foldl_current inner _ hinner]
    simp [Groups.add, hg]
  rw [List.foldl_cons, List.foldl_append]
  generalize inner.foldl Groups.add (g.add ⟨i, .opening .brace, true⟩) = read at hcurrent ⊢
  simp [Groups.add, hcurrent]

/-- Some parameter list is closed by the events, if one has to be. -/
def ParamsClosed (afterParams : Bool) (es : List Event) : Prop :=
  afterParams = true → ∃ e ∈ es, e.token = .closing .paren ∧ e.topLevel = true

/-- A top-level brace at `i` that may open the body: one after a parameter list, if there has
to be one. -/
structure Candidate (afterParams : Bool) (es : List Event) (i : Nat) : Prop where
  opens : ⟨i, .opening .brace, true⟩ ∈ es
  params : ParamsClosed afterParams (es.filter (·.pos < i))

theorem paramsClosed_concat (afterParams : Bool) (es : List Event) (e : Event) :
    ParamsClosed afterParams (es ++ [e]) ↔
      ParamsClosed afterParams es ∨ (e.token = .closing .paren ∧ e.topLevel = true) := by
  constructor
  · intro h
    by_cases he : e.token = .closing .paren ∧ e.topLevel = true
    · exact .inr he
    · refine .inl fun hp => ?_
      obtain ⟨f, hf, hclose⟩ := h hp
      rcases List.mem_append.mp hf with hf | hf
      · exact ⟨f, hf, hclose⟩
      · obtain rfl := List.mem_singleton.mp hf
        exact absurd hclose he
  · rintro (h | h) hp
    · obtain ⟨f, hf, hclose⟩ := h hp
      exact ⟨f, List.mem_append_left _ hf, hclose⟩
    · exact ⟨e, by simp, h⟩

/-- One event more, further on, leaves the candidates as they are unless it is one itself. -/
theorem candidate_concat (afterParams : Bool) (es : List Event) (e : Event) (i : Nat)
    (hlt : ∀ f ∈ es, f.pos < e.pos) :
    Candidate afterParams (es ++ [e]) i ↔ Candidate afterParams es i ∨
      (e = ⟨i, .opening .brace, true⟩ ∧ ParamsClosed afterParams es) := by
  -- the new event is behind the others, so it is before no brace among them
  have hnew : e.pos = i → (es ++ [e]).filter (·.pos < i) = es := by
    rintro rfl
    simpa using hlt
  have hold : i < e.pos → (es ++ [e]).filter (·.pos < i) = es.filter (·.pos < i) := by
    intro hi
    simp [show ¬ e.pos < i by omega]
  constructor
  · rintro ⟨hopens, hparams⟩
    rcases List.mem_append.mp hopens with hopens | hopens
    · rw [hold (hlt _ hopens)] at hparams
      exact .inl ⟨hopens, hparams⟩
    · obtain rfl := List.mem_singleton.mp hopens
      rw [hnew rfl] at hparams
      exact .inr ⟨rfl, hparams⟩
  · rintro (⟨hopens, hparams⟩ | ⟨rfl, hparams⟩)
    · refine ⟨List.mem_append_left _ hopens, ?_⟩
      rw [hold (hlt _ hopens)]
      exact hparams
    · refine ⟨by simp, ?_⟩
      rw [hnew rfl]
      exact hparams

/-- What the groups know of the events read so far. -/
structure Groups.Reads (afterParams : Bool) (es : List Event) (g : Groups) : Prop where
  params : g.paramsClosed = true ↔ ParamsClosed afterParams es
  missing : g.first = none → ∀ i, ¬ Candidate afterParams es i
  first : ∀ i, g.first = some i →
    Candidate afterParams es i ∧ ∀ j, Candidate afterParams es j → i ≤ j
  current : ∀ i valid, g.current = some (i, valid) → valid = true → Candidate afterParams es i
  last : ∀ i stop valid, g.last = some (i, stop, valid) →
    (valid = true → Candidate afterParams es i) ∧
      ∃ c, stop = c + 1 ∧ ⟨c, .closing .brace, true⟩ ∈ es

/-- An event that is no new candidate changes at most what is known of the parameters. -/
theorem reads_same (afterParams : Bool) (es : List Event) (e : Event) (g : Groups)
    (closed : Bool) (hg : g.Reads afterParams es)
    (hcandidate : ∀ i, Candidate afterParams (es ++ [e]) i ↔ Candidate afterParams es i)
    (hclosed : closed = true ↔ ParamsClosed afterParams (es ++ [e])) :
    { g with paramsClosed := closed }.Reads afterParams (es ++ [e]) := by
  have heq : Candidate afterParams (es ++ [e]) = Candidate afterParams es :=
    funext fun i => propext (hcandidate i)
  refine ⟨hclosed, ?_, ?_, ?_, ?_⟩ <;> rw [heq]
  · exact hg.missing
  · exact hg.first
  · exact hg.current
  · intro i stop valid hlast
    obtain ⟨hvalid, c, hstop, hmem⟩ := hg.last i stop valid hlast
    exact ⟨hvalid, c, hstop, List.mem_append_left _ hmem⟩

/-- A new opening brace becomes the current group, and the first candidate if it is one and
none was known. -/
theorem reads_open (afterParams : Bool) (es : List Event) (i : Nat) (g : Groups)
    (hg : g.Reads afterParams es) (hlt : ∀ f ∈ es, f.pos < i) :
    (g.add ⟨i, .opening .brace, true⟩).Reads afterParams
      (es ++ [⟨i, .opening .brace, true⟩]) := by
  have hcandidate (j : Nat) := candidate_concat afterParams es ⟨i, .opening .brace, true⟩ j hlt
  have hparams : g.paramsClosed = true ↔
      ParamsClosed afterParams (es ++ [⟨i, .opening .brace, true⟩]) := by
    rw [paramsClosed_concat, hg.params]
    simp
  have hself : g.paramsClosed = true →
      Candidate afterParams (es ++ [⟨i, .opening .brace, true⟩]) i := by
    intro hclosed
    exact (hcandidate i).mpr (.inr ⟨rfl, hg.params.mp hclosed⟩)
  have hlater : ∀ j, Candidate afterParams es j → j < i := fun j hj => hlt _ hj.opens
  refine ⟨hparams, ?_, ?_, ?_, ?_⟩
  · intro hnone j hj
    simp only [Groups.add, Bool.not_true, Bool.false_eq_true, ↓reduceIte] at hnone
    split_ifs at hnone with hnew
    rcases (hcandidate j).mp hj with hj | ⟨_, hclosed⟩
    · exact hg.missing hnone j hj
    · have hclosed := hg.params.mpr hclosed
      simp [hclosed, hnone] at hnew
  · intro j hfirst
    simp only [Groups.add, Bool.not_true, Bool.false_eq_true, ↓reduceIte] at hfirst
    split_ifs at hfirst with hnew
    · obtain ⟨hclosed, hnone⟩ : g.paramsClosed = true ∧ g.first = none := by
        simpa using hnew
      cases hfirst
      refine ⟨hself hclosed, fun k hk => ?_⟩
      rcases (hcandidate k).mp hk with hk | ⟨heq, _⟩
      · exact absurd hk (hg.missing hnone k)
      · cases heq
        exact le_rfl
    · obtain ⟨hj, hmin⟩ := hg.first j hfirst
      refine ⟨(hcandidate j).mpr (.inl hj), fun k hk => ?_⟩
      rcases (hcandidate k).mp hk with hk | ⟨heq, _⟩
      · exact hmin k hk
      · -- the new brace lies behind the first one
        cases heq
        exact (hlater j hj).le
  · intro j valid hcurrent hvalid
    simp only [Groups.add, Bool.not_true, Bool.false_eq_true, ↓reduceIte,
      Option.some.injEq, Prod.mk.injEq] at hcurrent
    obtain ⟨rfl, rfl⟩ := hcurrent
    exact hself hvalid
  · intro j stop valid hlast
    obtain ⟨hvalid, c, hstop, hmem⟩ := hg.last j stop valid hlast
    exact ⟨fun h => (hcandidate j).mpr (.inl (hvalid h)), c, hstop,
      List.mem_append_left _ hmem⟩

/-- A closing brace ends the current group. -/
theorem reads_close (afterParams : Bool) (es : List Event) (c : Nat) (g : Groups)
    (hg : g.Reads afterParams (es ++ [⟨c, .closing .brace, true⟩])) :
    (g.add ⟨c, .closing .brace, true⟩).Reads afterParams
      (es ++ [⟨c, .closing .brace, true⟩]) := by
  simp only [Groups.add, Bool.not_true, Bool.false_eq_true, ↓reduceIte]
  split
  next i valid hcurrent =>
    refine ⟨hg.params, hg.missing, hg.first, by simp, ?_⟩
    intro j stop v hlast
    cases hlast
    exact ⟨hg.current i valid hcurrent, c, rfl, by simp⟩
  next => exact hg

theorem reads_add (afterParams : Bool) (es : List Event) (e : Event) (g : Groups)
    (hg : g.Reads afterParams es) (hlt : ∀ f ∈ es, f.pos < e.pos) :
    (g.add e).Reads afterParams (es ++ [e]) := by
  by_cases hopen : e.token = .opening .brace ∧ e.topLevel = true
  · obtain ⟨i, t, top⟩ := e
    obtain ⟨rfl, rfl⟩ := hopen
    exact reads_open afterParams es i g hg hlt
  · -- any other event is no candidate
    have hcandidate (i : Nat) :
        Candidate afterParams (es ++ [e]) i ↔ Candidate afterParams es i := by
      rw [candidate_concat afterParams es e i hlt, or_iff_left]
      rintro ⟨rfl, _⟩
      exact hopen ⟨rfl, rfl⟩
    by_cases hclose : e.token = .closing .paren ∧ e.topLevel = true
    · have hadd : g.add e = { g with paramsClosed := true } := by
        simp [Groups.add, hclose.1, hclose.2]
      rw [hadd]
      refine reads_same afterParams es e g true hg hcandidate ?_
      simp [paramsClosed_concat, hclose]
    · have hsame : g.Reads afterParams (es ++ [e]) := by
        refine reads_same afterParams es e g g.paramsClosed hg hcandidate ?_
        rw [paramsClosed_concat, hg.params, or_iff_left hclose]
      by_cases hend : e.token = .closing .brace ∧ e.topLevel = true
      · obtain ⟨c, t, top⟩ := e
        obtain ⟨rfl, rfl⟩ := hend
        exact reads_close afterParams es c g hsame
      · have hadd : g.add e = g := by
          unfold Groups.add
          split
          · rfl
          · split <;> simp_all
        rw [hadd]
        exact hsame

theorem reads_foldl (afterParams : Bool) (es : List Event)
    (h : es.Pairwise (fun a b => a.pos < b.pos)) :
    (es.foldl Groups.add { paramsClosed := !afterParams }).Reads afterParams es := by
  -- the groups are read from the front, so the list grows at its end
  induction es using List.reverseRecOn with
  | nil =>
    refine ⟨?_, ?_, by simp, by simp, by simp⟩
    · simp [ParamsClosed]
    · intro _ i hi
      simpa using hi.opens
  | append_singleton es e ih =>
    obtain ⟨hes, _, hlt⟩ := List.pairwise_append.mp h
    rw [List.foldl_append]
    exact reads_add afterParams es e _ (ih hes) fun f hf => hlt f hf e List.mem_cons_self

/-! ### The brace of a text -/

theorem bodyBrace?_candidate (afterParams : Bool) (es : List Event) (g : Groups)
    (stop i : Nat) (hg : g.Reads afterParams es) (h : g.bodyBrace? stop = some i) :
    Candidate afterParams es i ∧ ((∀ j, Candidate afterParams es j → i ≤ j) ∨
      ∃ c, stop = c + 1 ∧ ⟨c, .closing .brace, true⟩ ∈ es) := by
  unfold Groups.bodyBrace? at h
  split at h
  next o e hlast =>
    split_ifs at h with hend
    · cases h
      obtain ⟨hvalid, c, hstop, hmem⟩ := hg.last _ _ _ hlast
      exact ⟨hvalid rfl, .inr ⟨c, by simp at hend; omega, hmem⟩⟩
    · obtain ⟨hi, hmin⟩ := hg.first i h
      exact ⟨hi, .inl hmin⟩
  next =>
    obtain ⟨hi, hmin⟩ := hg.first i h
    exact ⟨hi, .inl hmin⟩

theorem bodyBrace?_eq_none (afterParams : Bool) (es : List Event) (g : Groups)
    (stop : Nat) (hg : g.Reads afterParams es) :
    g.bodyBrace? stop = none ↔ ∀ i, ¬ Candidate afterParams es i := by
  constructor
  · intro h
    apply hg.missing
    unfold Groups.bodyBrace? at h
    split at h
    · split_ifs at h
      exact h
    · exact h
  · intro h
    cases hbrace : g.bodyBrace? stop with
    | none => rfl
    | some i =>
      exact absurd (bodyBrace?_candidate afterParams es g stop i hg hbrace).1 (h i)

theorem reads_scan (s : Settings) (afterParams : Bool) (t : List Char) :
    ((scan s t).foldl Groups.add { paramsClosed := !afterParams }).Reads afterParams
      (scan s t) :=
  reads_foldl afterParams _ (scan_ordered s t)

/-- The brace found is a candidate: the first one, unless a brace group ends the text. -/
theorem candidate_of_braceOf (angles afterParams : Bool) (t : List Char) (i : Nat)
    (h : braceOf angles afterParams t = some i) :
    Candidate afterParams (scan { angles } t) i ∧
      ((∀ j, Candidate afterParams (scan { angles } t) j → i ≤ j) ∨
        ∃ c, Text.byteLength (Text.trimEnd t) = c + 1 ∧
          ⟨c, .closing .brace, true⟩ ∈ scan { angles } t) :=
  bodyBrace?_candidate afterParams _ _ _ i (reads_scan { angles } afterParams t) h

theorem braceOf_eq_none (angles afterParams : Bool) (t : List Char) :
    braceOf angles afterParams t = none ↔
      ∀ i, ¬ Candidate afterParams (scan { angles } t) i :=
  bodyBrace?_eq_none afterParams _ _ _ (reads_scan { angles } afterParams t)

/-! ### A brace group at the end -/

/-- The events end with a brace group: the candidate at `o` opens it, no other top-level brace
follows, and its closing brace is the last byte before `stop`. -/
structure EndsInGroup (afterParams : Bool) (es : List Event) (stop o : Nat) : Prop where
  opened : Candidate afterParams es o
  closed : ∃ c, stop = c + 1 ∧ o < c ∧ ⟨c, .closing .brace, true⟩ ∈ es
  between : ∀ e ∈ es, o < e.pos → e.pos + 1 < stop → isTopBrace e = false

/-- In an ordered list the events before and after one are told by their offsets. -/
theorem mem_left_of_lt (before after : List Event) (a e : Event)
    (hordered : (before ++ a :: after).Pairwise (fun x y => x.pos < y.pos))
    (he : e ∈ before ++ a :: after) (hlt : e.pos < a.pos) : e ∈ before := by
  obtain ⟨_, htail, _⟩ := List.pairwise_append.mp hordered
  rcases List.mem_append.mp he with he | he
  · exact he
  · rcases List.mem_cons.mp he with rfl | he
    · omega
    · have h := List.rel_of_pairwise_cons htail he
      omega

theorem mem_right_of_lt (before after : List Event) (a e : Event)
    (hordered : (before ++ a :: after).Pairwise (fun x y => x.pos < y.pos))
    (he : e ∈ before ++ a :: after) (hlt : a.pos < e.pos) : e ∈ after := by
  obtain ⟨_, _, hcross⟩ := List.pairwise_append.mp hordered
  rcases List.mem_append.mp he with he | he
  · have h := hcross e he a List.mem_cons_self
    omega
  · rcases List.mem_cons.mp he with rfl | he
    · omega
    · exact he

/-- A group that ends the events, as a part of the list. -/
theorem split_of_endsInGroup (afterParams : Bool) (es : List Event) (stop o : Nat)
    (hordered : es.Pairwise (fun a b => a.pos < b.pos)) (hinside : ∀ e ∈ es, e.pos < stop)
    (h : EndsInGroup afterParams es stop o) :
    ∃ before inner c, stop = c + 1 ∧ ParamsClosed afterParams before ∧
      (∀ e ∈ inner, isTopBrace e = false) ∧
      es = before ++ ⟨o, .opening .brace, true⟩ ::
        (inner ++ [⟨c, .closing .brace, true⟩]) := by
  obtain ⟨⟨hopen, hparams⟩, ⟨c, rfl, hoc, hclose⟩, hbetween⟩ := h
  obtain ⟨before, after, rfl⟩ := List.append_of_mem hopen
  have hafter := mem_right_of_lt before after _ _ hordered hclose hoc
  obtain ⟨inner, rest, rfl⟩ := List.append_of_mem hafter
  obtain ⟨_, htail, _⟩ := List.pairwise_append.mp hordered
  obtain ⟨hfirst, htail⟩ := List.pairwise_cons.mp htail
  obtain ⟨_, hrest, hcross⟩ := List.pairwise_append.mp htail
  -- nothing follows the closing brace, which is the last byte
  have hnil : rest = [] := by
    apply List.eq_nil_iff_forall_not_mem.mpr
    intro e he
    have hbehind : c < e.pos := List.rel_of_pairwise_cons hrest he
    have hlt := hinside e (by simp [he])
    omega
  subst hnil
  refine ⟨before, inner, c, rfl, ?_, ?_, rfl⟩
  · intro hp
    obtain ⟨e, he, hparen⟩ := hparams hp
    obtain ⟨hmem, hlt⟩ := List.mem_filter.mp he
    exact ⟨e, mem_left_of_lt before _ _ e hordered hmem (by simpa using hlt), hparen⟩
  · intro e he
    have hlt : e.pos < c := hcross e he _ List.mem_cons_self
    exact hbetween e (by simp [he]) (hfirst e (by simp [he])) (by omega)

/-- A group read to the end of the text, after the parameters, is taken for the body. -/
theorem braceOf_of_split (angles afterParams : Bool) (t : List Char) (o c : Nat)
    (before inner : List Event)
    (hscan : scan { angles } t = before ++ ⟨o, .opening .brace, true⟩ ::
      (inner ++ [⟨c, .closing .brace, true⟩]))
    (hstop : Text.byteLength (Text.trimEnd t) = c + 1)
    (hparams : ParamsClosed afterParams before)
    (hinner : ∀ e ∈ inner, isTopBrace e = false) : braceOf angles afterParams t = some o := by
  have hordered := scan_ordered { angles } t
  rw [hscan] at hordered
  have hclosed := (reads_foldl afterParams before (List.pairwise_append.mp hordered).1).params.mpr
    hparams
  have hlast := foldl_add_braced _ o c inner hclosed hinner
  unfold braceOf
  dsimp only
  rw [hscan, List.foldl_append, Groups.bodyBrace?, hlast, hstop]
  simp

/-- The candidate that opens a group at the end of the text is taken for the body. -/
theorem braceOf_of_endsInGroup (angles afterParams : Bool) (t : List Char) (o : Nat)
    (h : EndsInGroup afterParams (scan { angles } t) (Text.byteLength (Text.trimEnd t)) o) :
    braceOf angles afterParams t = some o := by
  obtain ⟨before, inner, c, hstop, hparams, hinner, hscan⟩ :=
    split_of_endsInGroup afterParams _ _ o (scan_ordered { angles } t)
      (event_before_blanks { angles } t) h
  exact braceOf_of_split angles afterParams t o c before inner hscan hstop hparams hinner

end Synopsis.Body
