import Synopsis.Grammar.Recovery
import Synopsis.Proofs.Grammar.NodeOrder

/-! Induction over the trees of sources. What holds of every node put together from such nodes, with
its children in order, holds of the tree of a source, however the source was repaired. -/
open Synopsis.Tree

namespace Synopsis.Grammar

variable {σ : Type} {s : Source} {P : Node → Prop}

/-! ### Items -/

/-- The whole text fits a grammar as it stands. -/
def Rules.accepts (g : Rules σ) (text : String) : Bool :=
  let s := Source.ofString text
  (g.items {} s (256 * (s.size + 64)) (2 * s.size + 2) 0 [] (.empty s.size)).isOk

/-- The items read so far are laid out from the start of the source, whether or not the rest
fits. -/
def Reached (P : Node → Prop) : Except Stuck (List Node) → Prop
  | .ok items => ∃ hi, Laid P 0 hi items
  | .error stuck => Laid P 0 stuck.start stuck.items

theorem Inductive.items (hP : Inductive s P) (g : Rules σ) (hg : Orderly g) (fix : Repairs)
    (hfix : Dropped P fix.dropped) (depth fuel pos : Nat) (acc : List Node) (m : Memo)
    (hacc : Laid P 0 pos acc) (hm : m.Lies P) :
    Reached P (g.items fix s depth fuel pos acc m) := by
  induction fuel generalizing pos acc m with
  | zero => exact ⟨pos, hacc⟩
  | succ fuel ih =>
    obtain ⟨hpos, hskip⟩ :=
      hP.skipTrivia g.trivia fix.dropped hfix s.size (s.size+1) 0 pos acc hacc
    have hstuck (reach : Nat) (wanted : List (Nat × String)) : Reached P (.error ⟨acc,
        (Grammar.skipTrivia g.trivia fix.dropped s s.size (s.size+1) pos acc).2, reach, wanted⟩) :=
      hacc.mono le_rfl hpos
    -- the run ends with the source, or where no item leads further
    rcases (hP.run g hg fix hfix depth (.call g.item) g.context 0 pos [] pos acc m.forget trivial
      (.inl rfl) le_rfl hacc hm).cases with
      ⟨m', heq, hm'⟩ | ⟨acc', j, m', heq, hj, hacc', hm'⟩ <;> simp only [Rules.items, heq]
    · split
      · exact ⟨_, hskip⟩
      · exact hstuck _ _
    · split
      · exact ⟨_, hskip⟩
      · split
        · exact hstuck _ _
        · exact ih j acc' m' hacc' hm'

/-! ### Stretches that are left out -/

theorem Inductive.fragment (hP : Inductive s P) (g : Rules σ) (hg : Orderly g)
    (depth limit pos : Nat) (symbols : List σ) (m : Memo) (hm : m.Lies P) :
    Run P pos pos (g.fragment s depth limit pos symbols m) := by
  induction symbols generalizing m with
  | nil => exact .failed hm
  | cons sym symbols ih =>
    rcases (hP.run g hg {} (by simp [Dropped]) depth (.call sym) g.context pos pos [] pos [] m
      trivial (.inl rfl) le_rfl (.nil le_rfl) hm).cases with
      ⟨m', heq, hm'⟩ | ⟨nodes, j, m', heq, hj, hnodes, hm'⟩ <;> simp only [Rules.fragment, heq]
    · exact ih m' hm'
    · split
      · exact .found hj hnodes hm'
      · exact ih m' hm'

theorem next_ge (g : Rules σ) (s : Source) (i : Nat) : i ≤ g.next s i := by
  have hany : Inductive s fun _ => True := ⟨fun _ _ _ _ _ _ _ => trivial, fun _ _ _ => trivial⟩
  exact (hany.skipTrivia g.trivia [] (by simp [Dropped]) s.size (s.size+1) i i [] (.nil le_rfl)).1

theorem pieceEnd_gt (s : Source) (i : Nat) : i < pieceEnd s i := by
  unfold pieceEnd
  exact lt_of_lt_of_le (Nat.lt_succ_self i) (le_max_left _ _)

theorem closing?_ge (g : Rules σ) (s : Source) (limit fuel pos : Nat) (cs : List Char)
    (j : Nat) (h : g.closing? s limit fuel pos cs = some j) : pos ≤ j := by
  induction fuel generalizing pos cs with
  | zero => cases h
  | succ fuel ih =>
    cases cs with
    | nil => cases h
    | cons c cs =>
      have hnext := next_ge g s pos
      have hpiece := pieceEnd_gt s (g.next s pos)
      unfold Rules.closing? at h
      dsimp only at h
      split_ifs at h
      · cases h
        exact hnext
      · have := ih _ _ h
        omega
      · split at h <;> have := ih _ _ h <;> omega

/-- The contents of a stretch are laid out from its start on. -/
theorem Inductive.contents (hP : Inductive s P) (g : Rules σ) (hg : Orderly g)
    (depth fuel limit lo pos : Nat) (acc : List Node) (m : Memo) (hacc : Laid P lo pos acc)
    (hm : m.Lies P) : ∃ hi, Laid P lo hi (g.contents s depth fuel limit pos acc m) := by
  induction fuel generalizing limit lo pos acc m with
  | zero => exact ⟨pos, hacc⟩
  | succ fuel ih =>
    obtain ⟨_, hskip⟩ :=
      hP.skipTrivia g.trivia [] (by simp [Dropped]) limit (s.size+1) lo pos acc hacc
    unfold Rules.contents
    generalize Grammar.skipTrivia g.trivia [] s limit (s.size+1) pos acc = skipped at hskip ⊢
    obtain ⟨acc', i⟩ := skipped
    dsimp only at hskip ⊢
    split
    · exact ⟨i, hskip⟩
    · rcases (hP.fragment g hg depth limit i g.fragments m hm).cases with
        ⟨m', heq, hm'⟩ | ⟨nodes, j, m', heq, hj, hnodes, hm'⟩ <;> simp only [heq]
      · split
        next j hj =>
          obtain ⟨c, _, hclosing⟩ := Option.bind_eq_some_iff.mp hj
          have hle := closing?_ge g s limit s.size (i+1) [c] j hclosing
          -- what stands between brackets is read on its own, and goes into one node
          obtain ⟨_, hinner⟩ := ih j (i+1) (i+1) [] m' (.nil le_rfl) hm'
          have hgroup := hP.node "token" false i (j+1) _ hinner.order fun n hn =>
            hinner.holds n (List.mem_reverse.mp hn)
          exact ih limit lo (j+1) _ m'
            (hskip.cons (n := mkNode s "token" false i (j+1) _) le_rfl
              (by simp only [mkNode]; omega) hgroup) hm'
        next =>
          exact ih limit lo _ _ m' (hskip.cons (n := mkNode s "token" false i (pieceEnd s i) [])
            le_rfl (pieceEnd_gt s i).le (hP.leaf ..)) hm'
      · exact ih limit lo j _ m' (hskip.append hnodes) hm'

theorem Inductive.drop (hP : Inductive s P) (g : Rules σ) (start lo hi : Nat)
    (parts : List Node) (more : List (Nat × Nat)) (hparts : Laid P lo hi parts) :
    Dropped P (g.drop s start parts more).fix.dropped := by
  intro x hx
  obtain rfl := List.mem_singleton.mp hx
  refine ⟨rfl, hP.node _ _ _ _ _ ?_ ?_⟩
  · -- the pieces at the end are no comments
    rw [InOrder, List.pairwise_append, List.pairwise_map]
    refine ⟨hparts.order, List.pairwise_of_forall ?_, ?_⟩
    · intro a b hcomment
      cases hcomment
    · intro a _ b hb hcomment
      obtain ⟨piece, _, rfl⟩ := List.mem_map.mp hb
      cases hcomment
  · intro n hn
    rcases List.mem_append.mp hn with hn | hn
    · exact hparts.holds n (List.mem_reverse.mp hn)
    · obtain ⟨⟨i, e⟩, _, rfl⟩ := List.mem_map.mp hn
      exact hP.leaf ..

theorem Inductive.candidates (hP : Inductive s P) (g : Rules σ) (hg : Orderly g) (depth : Nat)
    (stuck : Stuck) (c : Candidate) (hc : c ∈ g.candidates s depth stuck) :
    Dropped P c.fix.dropped := by
  unfold Rules.candidates at hc
  rcases List.mem_append.mp (List.mem_mergeSort.mp hc) with hc | hc
  · -- a token put in leaves nothing out
    obtain ⟨x, _, rfl⟩ := List.mem_map.mp hc
    simp [Dropped]
  · obtain ⟨i, _, hc⟩ := List.mem_flatMap.mp hc
    obtain ⟨k, _, hc⟩ := List.mem_filterMap.mp hc
    split_ifs at hc
    cases hc
    obtain ⟨hi, hparts⟩ := hP.contents g hg depth s.size stuck.reach i i [] _ (.nil le_rfl)
      (Memo.lies_empty _)
    exact hP.drop g i i hi _ _ hparts

/-! ### Attempts -/

/-- The nodes of an attempt: those left out, and those read. -/
structure Attempt.Holds (P : Node → Prop) (a : Attempt) : Prop where
  dropped : Dropped P a.fix.dropped
  reached : Reached P a.outcome

theorem Inductive.retry (hP : Inductive s P) (g : Rules σ) (hg : Orderly g) (depth : Nat)
    (a : Attempt) (stuck : Stuck) (c : Candidate) (ha : a.Holds P)
    (hstuck : Laid P 0 stuck.start stuck.items) (hc : Dropped P c.fix.dropped) :
    (g.retry s depth a stuck c).Holds P := by
  have hfix : Dropped P (a.fix.add c.fix).dropped := by
    intro x hx
    rcases List.mem_append.mp hx with hx | hx
    · exact hc x hx
    · exact ha.dropped x hx
  exact ⟨hfix, hP.items g hg _ hfix depth _ stuck.start stuck.items _ hstuck (Memo.lies_empty _)⟩

theorem Inductive.giveUp (hP : Inductive s P) (g : Rules σ) (hg : Orderly g) (depth : Nat)
    (a : Attempt) (stuck : Stuck) (ha : a.Holds P) (hstuck : Laid P 0 stuck.start stuck.items) :
    (g.giveUp s depth a stuck).Holds P :=
  hP.retry g hg depth a stuck _ ha hstuck (hP.drop g _ 0 0 _ _ (.nil le_rfl))

theorem Inductive.extensions (hP : Inductive s P) (g : Rules σ) (hg : Orderly g) (depth : Nat)
    (a : Attempt) (stuck : Stuck) (cs : List Candidate) (ha : a.Holds P)
    (hstuck : Laid P 0 stuck.start stuck.items) (hcs : ∀ c ∈ cs, Dropped P c.fix.dropped) :
    ∀ b ∈ g.extensions s depth a stuck cs, b.Holds P := by
  intro b hb
  obtain ⟨x, hx, rfl⟩ := List.mem_map.mp hb
  refine List.foldlRecOn
    (motive := fun known : List (Attempt × Nat) => ∀ x ∈ known, Attempt.Holds P x.1)
    cs _ (by simp) ?_ x (List.mem_reverse.mp hx)
  intro known hknown c hc
  dsimp only
  split_ifs
  · exact hknown
  · intro y hy
    rcases List.mem_cons.mp hy with rfl | hy
    · exact hP.retry g hg depth a stuck c ha hstuck (hcs c hc)
    · exact hknown y hy
  · exact hknown

theorem mem_insertAttempt (a b : Attempt) (like : Nat) (q : List Attempt)
    (h : b ∈ insertAttempt a like q) : b = a ∨ b ∈ q := by
  induction q generalizing like with
  | nil =>
    unfold insertAttempt at h
    split_ifs at h <;> simp_all
  | cons c q ih =>
    unfold insertAttempt at h
    split_ifs at h
    · simpa using h
    · exact .inr h
    all_goals
      rcases List.mem_cons.mp h with rfl | h
      · exact .inr List.mem_cons_self
      · exact (ih _ h).imp_right (List.mem_cons_of_mem c)

theorem Inductive.settle (hP : Inductive s P) (g : Rules σ) (hg : Orderly g) (depth fuel : Nat)
    (a : Attempt) (ha : a.Holds P) : ∃ hi, Laid P 0 hi (g.settle s depth fuel a) := by
  induction fuel generalizing a with
  | zero =>
    have hreached := ha.reached
    unfold Rules.settle
    split
    next items heq =>
      rw [heq] at hreached
      exact hreached
    next stuck heq =>
      rw [heq] at hreached
      exact ⟨_, hreached⟩
  | succ fuel ih =>
    have hreached := ha.reached
    unfold Rules.settle
    split
    next items heq =>
      rw [heq] at hreached
      exact hreached
    next stuck heq =>
      rw [heq] at hreached
      exact ih _ (hP.giveUp g hg depth a stuck ha hreached)

theorem Inductive.search (hP : Inductive s P) (g : Rules σ) (hg : Orderly g) (depth fuel : Nat)
    (q : List Attempt) (hq : ∀ a ∈ q, a.Holds P) :
    ∃ hi, Laid P 0 hi (g.search s depth fuel q) := by
  induction fuel generalizing q with
  | zero =>
    cases q with
    | nil => exact ⟨0, .nil le_rfl⟩
    | cons a q => exact hP.settle g hg depth s.size a (hq a List.mem_cons_self)
  | succ fuel ih =>
    cases q with
    | nil => exact ⟨0, .nil le_rfl⟩
    | cons a q =>
      have ha := hq a List.mem_cons_self
      have hreached := ha.reached
      unfold Rules.search
      split
      next items heq =>
        rw [heq] at hreached
        exact hreached
      next stuck heq =>
        rw [heq] at hreached
        have hnext := hP.extensions g hg depth a stuck (g.candidates s depth stuck) ha hreached
          (hP.candidates g hg depth stuck)
        have hgiveUp := hP.giveUp g hg depth a stuck ha hreached
        refine ih _ fun b hb => ?_
        -- the attempts that go on from this one are put among the others one by one
        refine List.foldlRecOn (motive := fun q => ∀ b ∈ q, Attempt.Holds P b) _ _
          (fun b hb => hq b (List.mem_cons_of_mem a hb)) ?_ b (List.mem_of_mem_take hb)
        intro q' hq' c hc b hb
        rcases mem_insertAttempt c b 0 q' hb with rfl | hb
        · split_ifs at hc
          · rw [List.mem_singleton.mp hc]
            exact hgiveUp
          · exact hnext b hc
        · exact hq' b hb

/-- The tree of every source has the property. -/
theorem Inductive.parse (g : Rules σ) (hg : Orderly g) (text : String)
    (hP : Inductive (Source.ofString text) P) : P (g.parse text) := by
  have hreached := hP.items g hg {} (by simp [Dropped]) (256 * ((Source.ofString text).size + 64))
    (2 * (Source.ofString text).size + 2) 0 [] (.empty (Source.ofString text).size) (.nil le_rfl)
    (Memo.lies_empty _)
  -- whichever items are reached, the root is made of these
  have hroot (items : List Node) (h : ∃ hi, Laid P 0 hi items) :
      P (mkNode (Source.ofString text) g.root true 0 (Source.ofString text).size
        (items.reverse.filter (·.kind != ""))) := by
    obtain ⟨hi, hitems⟩ := h
    refine hP.node _ _ _ _ _ (hitems.order.filter _) fun n hn => ?_
    exact hitems.holds n (List.mem_reverse.mp (List.mem_filter.mp hn).1)
  unfold Rules.parse
  apply hroot
  split
  next items heq =>
    rw [heq] at hreached
    exact hreached
  next stuck heq =>
    apply hP.search g hg
    intro a ha
    rw [List.mem_singleton.mp ha]
    exact ⟨by simp [Dropped], hreached⟩

end Synopsis.Grammar
