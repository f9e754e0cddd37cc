import Synopsis.Proofs.Grammar.NodeEdges
import Synopsis.Proofs.Grammar.TreeInduction

/-! What the shape of a rule promises holds of every run. So in the tree of a source that fits an
outlined grammar all nodes lie inside the source, and those of the kinds that the outline names have
solid edges. -/
open Synopsis.Tree

namespace Synopsis.Grammar

variable {σ : Type}

/-! ### Runs -/

/-- The results that a run remembers have the shapes of their symbols. -/
def Memo.Shaped (o : Outline σ) (g : Rules σ) (s : Source) (m : Memo) : Prop :=
  m.Holds fun pos key res => ∀ x ctx, key = (g.index x, ctx) → pos ≤ s.size →
    ∀ ns j, res = some (ns, j) → Found o s (o.shape x) pos ns j

/-- The result of a run, behind the nodes found before, and what is remembered after it. -/
structure Outcome (o : Outline σ) (g : Rules σ) (s : Source) (sh : Shape) (pos : Nat)
    (acc : List Node) (out : Option (List Node × Nat) × Memo) : Prop where
  result : ∀ found j, out.1 = some (found, j) → ∃ ns, found = ns ++ acc ∧ Found o s sh pos ns j
  memo : out.2.Shaped o g s

namespace Outcome

variable {o : Outline σ} {g : Rules σ} {s : Source} {sh : Shape} {pos : Nat} {acc : List Node}

theorem failed {m : Memo} (hm : m.Shaped o g s) : Outcome o g s sh pos acc (none, m) := by
  refine ⟨?_, hm⟩
  rintro found j ⟨⟩

theorem found {ns : List Node} {j : Nat} {m : Memo} (hns : Found o s sh pos ns j)
    (hm : m.Shaped o g s) : Outcome o g s sh pos acc (some (ns ++ acc, j), m) := by
  refine ⟨?_, hm⟩
  rintro found j ⟨⟩
  exact ⟨ns, rfl, hns⟩

/-- A run that succeeds where it stands. -/
theorem hollow {m : Memo} (hpos : pos ≤ s.size) (hm : m.Shaped o g s) :
    Outcome o g s .hollow pos acc (some (acc, pos), m) :=
  found (.hollow hpos) hm

/-- A run fails or finds nodes, and remembers what it should. -/
theorem cases {out : Option (List Node × Nat) × Memo} (h : Outcome o g s sh pos acc out) :
    (∃ m, out = (none, m) ∧ m.Shaped o g s) ∨
      ∃ ns j m, out = (some (ns ++ acc, j), m) ∧ Found o s sh pos ns j ∧ m.Shaped o g s := by
  obtain ⟨_ | ⟨found, j⟩, m⟩ := out
  · exact .inl ⟨m, rfl, h.memo⟩
  · obtain ⟨ns, rfl, hns⟩ := h.result found j rfl
    exact .inr ⟨ns, j, m, rfl, hns, h.memo⟩

/-- A run that goes on behind the nodes of another. -/
theorem later {out : Option (List Node × Nat) × Memo} {sh' sh'' : Shape} {i : Nat}
    {ns : List Node} (hns : Found o s sh pos ns i) (h : Outcome o g s sh' i (ns ++ acc) out)
    (hsh : sh''.below (sh.seq sh') = true) : Outcome o g s sh'' pos acc out := by
  refine ⟨fun found j hj => ?_, h.memo⟩
  obtain ⟨ms, rfl, hms⟩ := h.result found j hj
  exact ⟨ms ++ ns, (List.append_assoc ms ns acc).symm, (hns.seq hms).mono hsh⟩

theorem mono {out : Option (List Node × Nat) × Memo} {sh' : Shape}
    (h : Outcome o g s sh pos acc out) (hsh : sh'.below sh = true) :
    Outcome o g s sh' pos acc out := by
  refine ⟨fun found j hj => ?_, h.memo⟩
  obtain ⟨ns, heq, hns⟩ := h.result found j hj
  exact ⟨ns, heq, hns.mono hsh⟩

end Outcome

section Run
variable {o : Outline σ} {g : Rules σ} {s : Source}

theorem found_token (kind : String) (named : Bool) (scan : Scan) (i j : Nat)
    (hplain : kind ∉ Rule.extraKinds) (hkind : kind ∉ o.kinds)
    (hscan : Edged o.control scan ∨ kind ∈ o.ragged ∧ Bounded scan) (hi : i ≤ s.size)
    (h : scan s i = some j) :
    Found o s (.token (!o.ragged.contains kind)) i [mkNode s kind named i j []] j := by
  rcases hscan with hscan | ⟨hragged, hscan⟩
  · obtain ⟨hstart, hlt, hfirm⟩ := hscan s i j h
    exact .leaf kind named hlt.le hfirm.le hkind (fun _ => ⟨hfirm, hplain⟩) (fun _ _ => hfirm)
      fun _ _ => hstart
  · obtain ⟨hle, hsize⟩ := hscan s i j h
    have hj := hsize hi
    have hrough : Shape.token (!o.ragged.contains kind) = .rough := by
      simp [hragged, Shape.token, Shape.rough]
    rw [hrough]
    exact .leaf kind named hle hj hkind (by simp [Shape.rough]) (by simp [Shape.rough])
      (by simp [Shape.rough])

theorem found_near (kind : String) (named : Bool) (scan : Scan) (i j : Nat)
    (hplain : kind ∉ Rule.extraKinds) (hkind : kind ∉ o.kinds)
    (hscan : Rule.EdgedPart o g.trivia (.near kind named scan)) (hi : i ≤ s.size)
    (h : scan s i = some j) : Found o s ((Rule.near kind named scan : Rule σ).shape o) i
      [mkNode s kind named i j []] j := by
  simp only [Rule.EdgedPart] at hscan
  unfold Rule.shape
  split at hscan
  next hempty =>
    -- nothing is read
    obtain rfl := hscan s i j h
    rw [if_pos (by simpa using hempty.1)]
    exact .leaf kind named le_rfl hi hkind (by simp) (fun _ => id) (by simp)
  next =>
    have htoken := found_token kind named scan i j hplain hkind hscan hi h
    refine htoken.mono ?_
    split <;> cases o.ragged.contains kind <;> rfl

theorem found_left {lf : List Node} {pos : Nat} (hlf : ∀ n ∈ lf, Neat o s n ∧ n.start ≤ pos)
    (hpos : pos ≤ s.size) : Found o s .rough pos lf pos :=
  ⟨le_rfl, hpos, fun n hn => (hlf n hn).2, fun n hn => (hlf n hn).1, by simp [Shape.rough],
    by simp [Shape.rough], by simp [Shape.rough]⟩

/-- What was found can stand on the left of what follows. -/
theorem left_of_found {sh : Shape} {pos j : Nat} {ns : List Node} (h : Found o s sh pos ns j) :
    ∀ n ∈ ns, Neat o s n ∧ n.start ≤ j :=
  fun n hn => ⟨h.neat n hn, h.starts n hn⟩

/-- What the shape of a rule promises holds of what a run finds. -/
theorem Outlined.run (hg : Outlined o g) (fuel : Nat) (r : Rule σ) (ctx : Nat) (lf : List Node)
    (pos : Nat) (acc : List Node) (m : Memo) (hr : r.Each (Rule.EdgedPart o g.trivia))
    (hframed : r.framed o = true) (hlf : ∀ n ∈ lf, Neat o s n ∧ n.start ≤ pos)
    (hpos : pos ≤ s.size) (hm : m.Shaped o g s) :
    Outcome o g s (r.shape o) pos acc (g.run {} s fuel r ctx lf pos acc m) := by
  -- the nodes found before stay behind those of this run, which alone have the shape of the rule
  induction fuel generalizing r ctx lf pos acc m with
  | zero => exact .failed hm
  | succ fuel ih =>
    have hhere : Outcome o g s .hollow pos acc (some (acc, pos), m) := .hollow hpos hm
    cases r with
    | done => exact hhere
    | fail => exact .failed hm
    | token kind named scan =>
      simp only [Rule.framed, Bool.and_eq_true, Bool.not_eq_true', List.contains_eq_mem,
        decide_eq_false_iff_not] at hframed
      obtain ⟨ns, i, heq, hns⟩ :=
        found_skipTrivia hg.trivia hg.plain s.size (s.size+1) pos acc hpos
      simp only [Rules.run, heq]
      split
      next j hj =>
        have htoken := found_token kind named scan i j hframed.1 hframed.2 hr hns.bound hj
        have hout : Outcome o g s _ i (ns ++ acc) (some (_ :: ns ++ acc, j), m) := .found htoken hm
        exact hout.later hns (Shape.token_below _)
      next => exact .failed hm
    | near kind named scan =>
      simp only [Rule.framed, Bool.and_eq_true, Bool.not_eq_true', List.contains_eq_mem,
        decide_eq_false_iff_not] at hframed
      simp only [Rules.run]
      split
      next j hj => exact .found (found_near kind named scan pos j hframed.1 hframed.2 hr hpos hj) hm
      next => exact .failed hm
    | gap scan =>
      simp only [Rules.run]
      split
      next j hj =>
        obtain ⟨ns, k, heq, hns⟩ := found_gap hg.trivia hg.plain (scan ctx) (fun h => hr h ctx) pos
          j hj acc hpos
        rw [heq]
        exact .found hns hm
      next => exact .failed hm
    | test p =>
      simp only [Rules.run]
      split
      · exact hhere
      · exact .failed hm
    | within f a =>
      simp only [Rules.run]
      split
      · exact ih a _ lf pos acc m hr hframed hlf hpos hm
      · exact .failed hm
    | call sym =>
      simp only [Rules.run]
      split
      next => exact .failed hm
      next items j hfound =>
        exact .found (Memo.Holds.lookup hm hfound sym ctx rfl hpos items j rfl) hm
      next =>
        -- the symbol is run on its own, and its result is remembered
        obtain ⟨hres, hm'⟩ := ih (g.rule sym) ctx [] pos [] m (hg.edged sym) (hg.framed sym)
          (by simp) hpos hm
        generalize g.run {} s fuel (g.rule sym) ctx [] pos [] m = out at hres hm' ⊢
        obtain ⟨res, m'⟩ := out
        have hshaped (ns : List Node) (j : Nat) (h : res = some (ns, j)) :
            Found o s (o.shape sym) pos ns j := by
          obtain ⟨ns', rfl, hns⟩ := hres ns j h
          rw [List.append_nil]
          exact hns.mono (hg.shape sym)
        have hrecord : (m'.record pos (g.index sym, ctx) res).Shaped o g s := by
          refine Memo.Holds.record hm' pos (g.index sym, ctx) fun x ctx' hkey _ ns j h => ?_
          rw [← hg.index (Prod.mk.inj hkey).1]
          exact hshaped ns j h
        cases res with
        | none => exact .failed hrecord
        | some found => exact .found (hshaped found.1 found.2 rfl) hrecord
    | seq a b =>
      obtain ⟨hfa, hfb⟩ := Bool.and_eq_true_iff.mp hframed
      rcases (ih a ctx lf pos acc m hr.1 hfa hlf hpos hm).cases with
        ⟨m', heq, hm'⟩ | ⟨ns, j, m', heq, hns, hm'⟩ <;> simp only [Rules.run, heq]
      · exact .failed hm'
      · have hlf' : ∀ n ∈ lf, Neat o s n ∧ n.start ≤ j :=
          fun n hn => (hlf n hn).imp_right (·.trans hns.le)
        exact (ih b ctx lf j _ m' hr.2 hfb hlf' hns.bound hm').later hns (Shape.below_refl _)
    | alt a b =>
      obtain ⟨hfa, hfb⟩ := Bool.and_eq_true_iff.mp hframed
      rcases (ih a ctx lf pos acc m hr.1 hfa hlf hpos hm).cases with
        ⟨m', heq, hm'⟩ | ⟨ns, j, m', heq, hns, hm'⟩ <;> simp only [Rules.run, heq]
      · exact (ih b ctx lf pos acc m' hr.2 hfb hlf hpos hm').mono (Shape.alt_below_right _ _)
      · exact .found (hns.mono (Shape.alt_below_left _ _)) hm'
    | many a =>
      rcases (ih a ctx lf pos acc m hr hframed hlf hpos hm).cases with
        ⟨m', heq, hm'⟩ | ⟨ns, j, m', heq, hns, hm'⟩ <;> simp only [Rules.run, heq]
      · exact (Outcome.hollow hpos hm').mono (Shape.many_below_hollow _)
      · -- a round that does not advance is taken back
        split
        · exact (Outcome.hollow hpos hm').mono (Shape.many_below_hollow _)
        · have hlf' : ∀ n ∈ lf, Neat o s n ∧ n.start ≤ j :=
            fun n hn => (hlf n hn).imp_right (·.trans hns.le)
          exact (ih (.many a) ctx lf j _ m' hr hframed hlf' hns.bound hm').later hns
            (Shape.many_below_seq _)
    | node kind a =>
      simp only [Rule.framed, Bool.and_eq_true, Bool.or_eq_true, Bool.not_eq_true',
        List.contains_eq_mem, decide_eq_false_iff_not] at hframed
      obtain ⟨⟨hplain, hedges⟩, hframed⟩ := hframed
      rcases (ih a ctx lf pos [] m hr hframed hlf hpos hm).cases with
        ⟨m', heq, hm'⟩ | ⟨ns, j, m', heq, hns, hm'⟩ <;> simp only [Rules.run, heq]
      · exact .failed hm'
      · rw [wrap_append, List.append_nil]
        exact .found (hns.node kind hplain fun hmem => hedges.resolve_left (not_not.mpr hmem)) hm'
    | field name a =>
      rcases (ih a ctx lf pos [] m hr hframed hlf hpos hm).cases with
        ⟨m', heq, hm'⟩ | ⟨ns, j, m', heq, hns, hm'⟩ <;> simp only [Rules.run, heq]
      · exact .failed hm'
      · rw [List.append_nil]
        exact .found (hns.field name) hm'
    | ahead a =>
      rcases (ih a ctx lf pos [] m hr hframed hlf hpos hm).cases with
        ⟨m', heq, hm'⟩ | ⟨ns, j, m', heq, _, hm'⟩ <;> simp only [Rules.run, heq]
      · exact .failed hm'
      · exact .hollow hpos hm'
    | absent a =>
      rcases (ih a ctx lf pos [] m hr hframed hlf hpos hm).cases with
        ⟨m', heq, hm'⟩ | ⟨ns, j, m', heq, _, hm'⟩ <;> simp only [Rules.run, heq]
      · exact .hollow hpos hm'
      · exact .failed hm'
    | grow a b =>
      obtain ⟨hboth, hleft⟩ := Bool.and_eq_true_iff.mp hframed
      obtain ⟨hfa, hfb⟩ := Bool.and_eq_true_iff.mp hboth
      have hgrowing : (Rule.growing b).framed o = true := Bool.and_eq_true_iff.mpr ⟨hfb, hleft⟩
      rcases (ih a ctx lf pos [] m hr.1 hfa hlf hpos hm).cases with
        ⟨m', heq, hm'⟩ | ⟨ns, j, m', heq, hns, hm'⟩ <;> simp only [Rules.run, heq]
      · exact .failed hm'
      · -- a construct that grows promises nothing, so only what its nodes are is carried on
        rw [List.append_nil]
        exact (ih (.growing b) ctx ns j acc m' hr.2 hgrowing (left_of_found hns) hns.bound
          hm').later (.blank hns.le hns.bound) rfl
    | growing b =>
      obtain ⟨hfb, _⟩ := Bool.and_eq_true_iff.mp hframed
      rcases (ih b ctx lf pos [] m hr hfb hlf hpos hm).cases with
        ⟨m', heq, hm'⟩ | ⟨ns, j, m', heq, hns, hm'⟩ <;> simp only [Rules.run, heq]
      · exact .found (found_left hlf hpos) hm'
      · split
        · exact .found (found_left hlf hpos) hm'
        · rw [List.append_nil]
          exact (ih (.growing b) ctx ns j acc m' hr hframed (left_of_found hns) hns.bound hm').later
            (.blank hns.le hns.bound) rfl
    | left => exact .found (found_left hlf hpos) hm

theorem Outlined.items (hg : Outlined o g) (depth fuel pos : Nat) (acc : List Node) (m : Memo)
    (hacc : ∀ n ∈ acc, Neat o s n) (hpos : pos ≤ s.size) (hm : m.Shaped o g s)
    (items : List Node) (h : g.items {} s depth fuel pos acc m = .ok items) :
    ∀ n ∈ items, Neat o s n := by
  induction fuel generalizing pos acc m with
  | zero =>
    cases h
    exact hacc
  | succ fuel ih =>
    have happend {sh : Shape} {ns : List Node} {j : Nat} (hns : Found o s sh pos ns j) :
        ∀ n ∈ ns ++ acc, Neat o s n :=
      fun n hn => (List.mem_append.mp hn).elim (hns.neat n) (hacc n)
    obtain ⟨ns, i, hskip, hns⟩ :=
      found_skipTrivia hg.trivia hg.plain s.size (s.size+1) pos acc hpos
    rw [Rules.items] at h
    simp only [hskip] at h
    -- the next item fails, or it is found and the run goes on behind it
    rcases (hg.run depth (.call g.item) g.context [] pos acc m.forget trivial rfl (by simp) hpos
      hm).cases with ⟨m', heq, hm'⟩ | ⟨ms, j, m', heq, hms, hm'⟩ <;> simp only [heq] at h
    · split_ifs at h
      cases h
      exact happend hns
    · split_ifs at h
      · cases h
        exact happend hns
      · exact ih j _ m' (happend hms) hms.bound hm' h

end Run

/-- The tree of a text that fits the grammar is as the outline says. -/
theorem Outlined.parse {o : Outline σ} {g : Rules σ} (hg : Outlined o g) (text : String)
    (h : g.accepts text = true) : Neat o (Source.ofString text) (g.parse text) := by
  unfold Rules.parse
  dsimp only
  generalize hitems : g.items {} (Source.ofString text) _ _ 0 [] (.empty _) = outcome
  cases outcome with
  | error stuck =>
    simp only [Rules.accepts, hitems] at h
    cases h
  | ok items =>
    have hneat := hg.items _ _ 0 [] _ (by simp) (Nat.zero_le _) (Memo.holds_empty _) items hitems
    refine .mk _ (Nat.zero_le _) le_rfl (fun hroot => absurd hroot hg.root) fun n hn => ?_
    exact hneat n (List.mem_reverse.mp (List.mem_filter.mp hn).1)

end Synopsis.Grammar
