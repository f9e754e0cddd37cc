import Mathlib.Data.List.TakeDrop
import Mathlib.Data.List.TakeWhile
import Mathlib.Data.Nat.Basic
import Mathlib.Order.Basic
import Mathlib.Tactic.SplitIfs
import Synopsis.Grammar.Rule
import Synopsis.Proofs.SitedTree

/-! The nodes that a rule leaves, in the order of the source. A grammar is orderly if its tokens do
not end before their start and a construct puts what stands on its left first; then a run lays out
its nodes one behind the other. Only comments are followed: the nodes before one have ended where it
starts. -/
open Synopsis.Tree

namespace Synopsis.Grammar

/-! ### Orderly grammars -/

/-- A token does not end before its start. -/
def Advances (scan : Scan) : Prop := ∀ s i j, scan s i = some j → i ≤ j

variable {σ : Type}

namespace Rule

/-- The rule does not use what stands on its left. -/
def noLeft : Rule σ → Bool
  | left | growing _ => false
  | seq a b | alt a b => a.noLeft && b.noLeft
  | within _ a | many a | node _ a | field _ a | ahead a | absent a | grow a _ => a.noLeft
  | done | fail | token .. | near .. | gap _ | test _ | call _ => true

/-- The rule uses what stands on its left at its own start only. -/
def leftFirst : Rule σ → Bool
  | seq a b => a.leftFirst && b.noLeft
  | alt a b => a.leftFirst && b.leftFirst
  | many a => a.noLeft
  | within _ a | node _ a | field _ a | ahead a | absent a | grow a _ => a.leftFirst
  | done | fail | token .. | near .. | gap _ | test _ | call _ | growing _ | left => true

/-- All tokens of a rule advance, no construct has the kind of a comment, and a construct that grows
puts what came before first. -/
def Orderly : Rule σ → Prop
  | token _ _ scan | near _ _ scan => Advances scan
  | node kind a => kind ∉ Node.commentKinds ∧ a.Orderly
  | seq a b | alt a b => a.Orderly ∧ b.Orderly
  | grow a b => a.Orderly ∧ b.Orderly ∧ b.leftFirst = true
  | growing b => b.Orderly ∧ b.leftFirst = true
  | within _ a | many a | field _ a | ahead a | absent a => a.Orderly
  | done | fail | gap _ | test _ | call _ | left => True

end Rule

structure Orderly (g : Rules σ) : Prop where
  rule : ∀ x, (g.rule x).Orderly
  leftFirst : ∀ x, (g.rule x).leftFirst = true

/-! ### Nodes in order -/

/-- A property that a node has as soon as its children stand in order and have it, and that no field
takes away. -/
structure Inductive (s : Source) (P : Node → Prop) : Prop where
  node : ∀ kind named start stop children, InOrder children → (∀ c ∈ children, P c) →
    P (mkNode s kind named start stop children)
  field : ∀ n name, P n → P { n with field := name }

variable {s : Source} {P : Node → Prop}

theorem Inductive.leaf (hP : Inductive s P) (kind : String) (named : Bool) (start stop : Nat) :
    P (mkNode s kind named start stop []) :=
  hP.node kind named start stop [] .nil (by simp)

/-- Nodes with the property, in reverse, that lie between two positions and stand in order. -/
structure Laid (P : Node → Prop) (lo hi : Nat) (ns : List Node) : Prop where
  le : lo ≤ hi
  bounds : ∀ n ∈ ns, lo ≤ n.start ∧ n.start ≤ n.stop ∧ n.stop ≤ hi
  order : InOrder ns.reverse
  holds : ∀ n ∈ ns, P n

namespace Laid

variable {lo mid hi : Nat} {ns ms : List Node}

theorem nil (h : lo ≤ hi) : Laid P lo hi [] :=
  ⟨h, by simp, .nil, by simp⟩

theorem mono (h : Laid P lo hi ns) {lo' hi' : Nat} (hlo : lo' ≤ lo) (hhi : hi ≤ hi') :
    Laid P lo' hi' ns := by
  refine ⟨hlo.trans (h.le.trans hhi), fun n hn => ?_, h.order, h.holds⟩
  obtain ⟨hstart, hmiddle, hstop⟩ := h.bounds n hn
  exact ⟨hlo.trans hstart, hmiddle, hstop.trans hhi⟩

theorem append (hms : Laid P lo mid ms) (hns : Laid P mid hi ns) : Laid P lo hi (ns ++ ms) := by
  have hms' := hms.mono le_rfl hns.le
  have hns' := hns.mono hms.le le_rfl
  refine ⟨hms.le.trans hns.le, ?_, ?_, ?_⟩
  · intro n hn
    exact (List.mem_append.mp hn).elim (hns'.bounds n) (hms'.bounds n)
  · rw [InOrder, List.reverse_append, List.pairwise_append]
    refine ⟨hms.order, hns.order, fun a ha b hb _ => ?_⟩
    obtain ⟨_, _, hstop⟩ := hms.bounds a (List.mem_reverse.mp ha)
    obtain ⟨hstart, _, _⟩ := hns.bounds b (List.mem_reverse.mp hb)
    exact hstop.trans hstart
  · intro n hn
    exact (List.mem_append.mp hn).elim (hns.holds n) (hms.holds n)

theorem cons (hms : Laid P lo mid ms) {n : Node} (hstart : mid ≤ n.start)
    (hmiddle : n.start ≤ n.stop) (hn : P n) : Laid P lo n.stop (n :: ms) := by
  have hone : Laid P mid n.stop [n] :=
    ⟨hstart.trans hmiddle, by simpa using ⟨hstart, hmiddle⟩, by simp [InOrder], by simpa using hn⟩
  exact hms.append hone

end Laid

/-! ### What a run finds and remembers -/

/-- A result of a run from a position, found after nodes that start at `lo`. -/
def Lies (P : Node → Prop) (lo pos : Nat) (res : Option (List Node × Nat)) : Prop :=
  ∀ ns j, res = some (ns, j) → pos ≤ j ∧ Laid P lo j ns

/-- Every result that a run remembers has a property, which may depend on its position and key. -/
def Memo.Holds (Q : Nat → Nat × Nat → Option (List Node × Nat) → Prop) (m : Memo) : Prop :=
  ∀ pos : Nat, ∀ e ∈ m.results[pos]?.getD [], Q pos e.1 e.2

section Remembered
variable {Q : Nat → Nat × Nat → Option (List Node × Nat) → Prop}

theorem Memo.holds_empty (n : Nat) : (Memo.empty n).Holds Q := by
  intro pos e he
  rw [Memo.empty, Array.getElem?_replicate] at he
  split_ifs at he <;> simp at he

theorem Memo.Holds.record {m : Memo} (h : m.Holds Q) (pos : Nat) (key : Nat × Nat)
    {res : Option (List Node × Nat)} (hres : Q pos key res) : (m.record pos key res).Holds Q := by
  intro i e he
  rw [Memo.record, Array.getElem?_modify] at he
  split_ifs at he with hi
  · cases hentries : m.results[i]? with
    | none => simp [hentries] at he
    | some entries =>
      simp only [hentries, Option.map_some, Option.getD_some, List.mem_cons] at he
      rcases he with rfl | he
      · exact hi ▸ hres
      · exact h i e (by simpa [hentries] using he)
  · exact h i e he

theorem Memo.Holds.lookup {m : Memo} (h : m.Holds Q) {pos : Nat} {key : Nat × Nat}
    {res : Option (List Node × Nat)} (hres : (m.results[pos]?.getD []).lookup key = some res) :
    Q pos key res := by
  obtain ⟨before, after, hentries, _⟩ := List.lookup_eq_some_iff.mp hres
  exact h pos (key, res) (by simp [hentries])

end Remembered

/-- The results that a run remembers lie behind their positions. -/
def Memo.Lies (P : Node → Prop) (m : Memo) : Prop :=
  m.Holds fun pos _ res => Grammar.Lies P pos pos res

theorem Memo.lies_empty (n : Nat) : (Memo.empty n).Lies P := Memo.holds_empty n

/-- The result of a run and what is remembered after it. -/
structure Run (P : Node → Prop) (lo pos : Nat) (out : Option (List Node × Nat) × Memo) : Prop where
  result : Lies P lo pos out.1
  memo : out.2.Lies P

namespace Run

variable {lo pos : Nat}

theorem failed {m : Memo} (hm : m.Lies P) : Run P lo pos (none, m) := by
  refine ⟨?_, hm⟩
  rintro ns j ⟨⟩

theorem found {ns : List Node} {j : Nat} {m : Memo} (hj : pos ≤ j) (hns : Laid P lo j ns)
    (hm : m.Lies P) : Run P lo pos (some (ns, j), m) := by
  refine ⟨?_, hm⟩
  rintro ns j ⟨⟩
  exact ⟨hj, hns⟩

/-- A run fails or finds nodes, and remembers what it should. -/
theorem cases {out : Option (List Node × Nat) × Memo} (h : Run P lo pos out) :
    (∃ m, out = (none, m) ∧ m.Lies P) ∨
      ∃ ns j m, out = (some (ns, j), m) ∧ pos ≤ j ∧ Laid P lo j ns ∧ m.Lies P := by
  obtain ⟨_ | ⟨ns, j⟩, m⟩ := out
  · exact .inl ⟨m, rfl, h.memo⟩
  · obtain ⟨hj, hns⟩ := h.result ns j rfl
    exact .inr ⟨ns, j, m, rfl, hj, hns, h.memo⟩

/-- A run that starts further on. -/
theorem later {out : Option (List Node × Nat) × Memo} {j : Nat} (hj : pos ≤ j)
    (h : Run P lo j out) : Run P lo pos out := by
  refine ⟨fun ns k hk => ?_, h.memo⟩
  obtain ⟨hle, hns⟩ := h.result ns k hk
  exact ⟨hj.trans hle, hns⟩

end Run

/-! ### Blanks, comments and constructs -/

/-- Stretches that are left out, each at its start. -/
def Dropped (P : Node → Prop) (dropped : List (Nat × Node)) : Prop :=
  ∀ x ∈ dropped, x.2.start = x.1 ∧ P x.2

theorem Inductive.skipTrivia (hP : Inductive s P) (trivia : Source → Nat → Option (Nat × String))
    (dropped : List (Nat × Node)) (hdropped : Dropped P dropped) (limit fuel lo i : Nat)
    (acc : List Node) (hacc : Laid P lo i acc) :
    i ≤ (Grammar.skipTrivia trivia dropped s limit fuel i acc).2 ∧
      Laid P lo (Grammar.skipTrivia trivia dropped s limit fuel i acc).2
        (Grammar.skipTrivia trivia dropped s limit fuel i acc).1 := by
  induction fuel generalizing i acc with
  | zero => exact ⟨le_rfl, hacc⟩
  | succ fuel ih =>
    unfold Grammar.skipTrivia
    split
    · exact ⟨le_rfl, hacc⟩
    · split
      next n hlookup =>
        split
        · exact ⟨le_rfl, hacc⟩
        next hstop =>
          -- a stretch that is left out takes the place of a comment
          obtain ⟨before, after, hmem, _⟩ := List.lookup_eq_some_iff.mp hlookup
          obtain ⟨hstart, hn⟩ := hdropped (i, n) (by simp [hmem])
          have hstart : n.start = i := hstart
          obtain ⟨hle, hlaid⟩ := ih n.stop (n :: acc) (hacc.cons hstart.ge (by omega) hn)
          exact ⟨by omega, hlaid⟩
      next =>
        split
        next j kind _ =>
          split
          · exact ⟨le_rfl, hacc⟩
          next hj =>
            have hnext : Laid P lo j
                (if kind == "" then acc else mkNode s kind true i j [] :: acc) := by
              split
              · exact hacc.mono le_rfl (by omega)
              · exact hacc.cons (n := mkNode s kind true i j []) le_rfl (by simp [mkNode]; omega)
                  (hP.leaf ..)
            obtain ⟨hle, hlaid⟩ := ih j _ hnext
            exact ⟨by omega, hlaid⟩
        next => exact ⟨le_rfl, hacc⟩

/-- A construct stands behind the comments before its first other node and takes in the rest. -/
theorem exists_wrap (s : Source) (kind : String) (pos : Nat) (items acc : List Node) :
    ∃ lead inner, lead ++ inner = items.reverse ∧ (∀ n, n ∈ lead ∨ n ∈ inner → n ∈ items) ∧
      (∀ n ∈ lead, isExtra n = true) ∧
      items.reverse.find? (!isExtra ·) = inner.head? ∧
      Grammar.wrap s kind pos items acc =
        mkNode s kind true ((inner.head?.map (·.start)).getD pos)
          (max ((inner.head?.map (·.start)).getD pos) ((items.head?.map (·.stop)).getD pos))
          (inner.filter (·.kind != "")) :: (lead.reverse ++ acc) := by
  have hsplit : items.reverse.takeWhile isExtra ++ items.reverse.dropWhile isExtra =
      items.reverse := List.takeWhile_append_dropWhile
  refine ⟨_, _, hsplit, fun n hn => ?_, fun n hn => List.mem_takeWhile_imp hn,
    List.find?_not_eq_head?_dropWhile _ _, ?_⟩
  · rw [← List.mem_reverse, ← hsplit]
    exact List.mem_append.mpr hn
  · rw [Grammar.wrap, List.span_eq_takeWhile_dropWhile]

theorem Inductive.wrap (hP : Inductive s P) (kind : String) (hkind : kind ∉ Node.commentKinds)
    (lo mid pos j : Nat) (items acc : List Node) (hitems : Laid P mid j items) (hmid : mid ≤ pos)
    (hpos : pos ≤ j) (hacc : Laid P lo mid acc) :
    Laid P lo j (Grammar.wrap s kind pos items acc) := by
  obtain ⟨lead, inner, hsplit, hmem, _, _, heq⟩ := exists_wrap s kind pos items acc
  rw [heq]
  have horder := hitems.order
  rw [← hsplit, InOrder, List.pairwise_append] at horder
  have hstart : mid ≤ (inner.head?.map (·.start)).getD pos ∧
      (inner.head?.map (·.start)).getD pos ≤ j := by
    cases inner with
    | nil => exact ⟨hmid, hpos⟩
    | cons n inner =>
      obtain ⟨hstart, hmiddle, hstop⟩ := hitems.bounds n (hmem n (.inr List.mem_cons_self))
      exact ⟨hstart, hmiddle.trans hstop⟩
  have hstop : (items.head?.map (·.stop)).getD pos ≤ j := by
    cases items with
    | nil => exact hpos
    | cons n items => exact (hitems.bounds n List.mem_cons_self).2.2
  generalize (inner.head?.map (·.start)).getD pos = start at hstart ⊢
  generalize (items.head?.map (·.stop)).getD pos = stop at hstop ⊢
  generalize hn : mkNode s kind true start (max start stop) (inner.filter (·.kind != "")) = n
  have hlaid : Laid P mid j (n :: lead.reverse) := by
    refine ⟨hitems.le, ?_, ?_, ?_⟩
    · intro m hm
      rcases List.mem_cons.mp hm with rfl | hm
      · rw [← hn]
        exact ⟨hstart.1, le_max_left _ _, max_le hstart.2 hstop⟩
      · exact hitems.bounds m (hmem m (.inl (List.mem_reverse.mp hm)))
    · -- the construct is no comment, and those before it stand in order
      rw [InOrder, List.reverse_cons, List.reverse_reverse, List.pairwise_append]
      refine ⟨horder.1, List.pairwise_singleton _ _, fun a _ b hb hcomment => ?_⟩
      rw [List.mem_singleton.mp hb, ← hn] at hcomment
      simp [Node.isComment, mkNode, hkind] at hcomment
    · intro m hm
      rcases List.mem_cons.mp hm with rfl | hm
      · rw [← hn]
        refine hP.node _ _ _ _ _ (horder.2.1.filter _) fun c hc => ?_
        exact hitems.holds c (hmem c (.inr (List.mem_filter.mp hc).1))
      · exact hitems.holds m (hmem m (.inl (List.mem_reverse.mp hm)))
  exact hacc.append hlaid

/-- Setting a field on all nodes but comments only changes fields. -/
theorem exists_field (name : String) (n : Node) :
    ∃ name', (if isExtra n then n else { n with field := name }) = { n with field := name' } := by
  split
  · exact ⟨n.field, by cases n; rfl⟩
  · exact ⟨name, rfl⟩

theorem Laid.field (hP : Inductive s P) {lo hi : Nat} {ns : List Node} (h : Laid P lo hi ns)
    (name : String) :
    Laid P lo hi (ns.map fun n => if isExtra n then n else { n with field := name }) := by
  choose name' hname' using exists_field name
  simp only [hname']
  refine ⟨h.le, ?_, ?_, ?_⟩
  · intro n hn
    obtain ⟨n', hn', rfl⟩ := List.mem_map.mp hn
    exact h.bounds n' hn'
  · rw [InOrder, ← List.map_reverse, List.pairwise_map]
    exact h.order
  · intro n hn
    obtain ⟨n', hn', rfl⟩ := List.mem_map.mp hn
    exact hP.field n' (name' n') (h.holds n' hn')

/-- What stands on the left of a rule can be used at a position: the rule does not use it, or it
uses it first and it lies right before. -/
def Ready (P : Node → Prop) (mid pos : Nat) (lf : List Node) (r : Rule σ) : Prop :=
  r.noLeft = true ∨ (r.leftFirst = true ∧ Laid P mid pos lf)

namespace Ready

variable {mid pos : Nat} {lf : List Node} {a b : Rule σ}

theorem seq (h : Ready P mid pos lf (.seq a b)) : Ready P mid pos lf a ∧ b.noLeft = true := by
  rcases h with h | ⟨hfirst, hlf⟩
  · obtain ⟨ha, hb⟩ := Bool.and_eq_true_iff.mp h
    exact ⟨.inl ha, hb⟩
  · obtain ⟨ha, hb⟩ := Bool.and_eq_true_iff.mp hfirst
    exact ⟨.inr ⟨ha, hlf⟩, hb⟩

theorem alt (h : Ready P mid pos lf (.alt a b)) :
    Ready P mid pos lf a ∧ Ready P mid pos lf b := by
  rcases h with h | ⟨hfirst, hlf⟩
  · obtain ⟨ha, hb⟩ := Bool.and_eq_true_iff.mp h
    exact ⟨.inl ha, .inl hb⟩
  · obtain ⟨ha, hb⟩ := Bool.and_eq_true_iff.mp hfirst
    exact ⟨.inr ⟨ha, hlf⟩, .inr ⟨hb, hlf⟩⟩

end Ready

/-- Running a rule lays out its nodes behind those found before. -/
theorem Inductive.run (hP : Inductive s P) (g : Rules σ) (hg : Orderly g) (fix : Repairs)
    (hfix : Dropped P fix.dropped) (fuel : Nat) (r : Rule σ) (ctx lo mid : Nat) (lf : List Node)
    (pos : Nat) (acc : List Node) (m : Memo) (hr : r.Orderly) (hlf : Ready P mid pos lf r)
    (hmid : mid ≤ pos) (hacc : Laid P lo mid acc) (hm : m.Lies P) :
    Run P lo pos (g.run fix s fuel r ctx lf pos acc m) := by
  -- `mid` is where the nodes found before have ended; a rule that is run on its own starts there
  induction fuel generalizing r ctx lo mid lf pos acc m with
  | zero => exact .failed hm
  | succ fuel ih =>
    have hhere : Laid P lo pos acc := hacc.mono le_rfl hmid
    have hskip (limit : Nat) :=
      hP.skipTrivia g.trivia fix.dropped hfix limit (s.size+1) lo pos acc hhere
    have hleaf (acc : List Node) (kind : String) (named : Bool) (i j : Nat) (hij : i ≤ j)
        (hacc : Laid P lo i acc) : Laid P lo j (mkNode s kind named i j [] :: acc) :=
      hacc.cons (n := mkNode s kind named i j []) le_rfl hij (hP.leaf ..)
    have halone (a : Rule σ) (ha : a.Orderly) (hlf : Ready P mid pos lf a) :=
      ih a ctx mid mid lf pos [] m ha hlf hmid (.nil le_rfl) hm
    cases r with
    | done => exact .found le_rfl hhere hm
    | fail => exact .failed hm
    | token kind named scan =>
      simp only [Rules.run]
      split
      next j hj =>
        have hle := hr s _ j hj
        obtain ⟨hpos, hlaid⟩ := hskip s.size
        exact .found (hpos.trans hle) (hleaf _ kind named _ j hle hlaid) hm
      next =>
        split
        · exact .found le_rfl (hleaf acc kind named pos pos le_rfl hhere) hm
        · exact .failed hm
    | near kind named scan =>
      simp only [Rules.run]
      split
      next j hj =>
        have hle := hr s pos j hj
        exact .found hle (hleaf acc kind named pos j hle hhere) hm
      next =>
        split
        · exact .found le_rfl (hleaf acc kind named pos pos le_rfl hhere) hm
        · exact .failed hm
    | gap scan =>
      simp only [Rules.run]
      split
      next j _ => exact .found (hskip j).1 (hskip j).2 hm
      next => exact .failed hm
    | test p =>
      simp only [Rules.run]
      split
      · exact .found le_rfl hhere hm
      · exact .failed hm
    | within f a =>
      simp only [Rules.run]
      split
      · exact ih a _ lo mid lf pos acc m hr hlf hmid hacc hm
      · exact .failed hm
    | call sym =>
      simp only [Rules.run]
      split
      next => exact .failed hm
      next items j hfound =>
        obtain ⟨hj, hitems⟩ := Memo.Holds.lookup hm hfound items j rfl
        exact .found hj (hhere.append hitems) hm
      next =>
        -- the symbol is run on its own, and its result is remembered
        obtain ⟨hres, hm'⟩ := ih (g.rule sym) ctx pos pos [] pos [] m (hg.rule sym)
          (.inr ⟨hg.leftFirst sym, .nil le_rfl⟩) le_rfl (.nil le_rfl) hm
        have hrecord : Memo.Lies P _ := Memo.Holds.record hm' pos (g.index sym, ctx) hres
        split
        next items j hsome =>
          obtain ⟨hj, hitems⟩ := hres items j hsome
          exact .found hj (hhere.append hitems) hrecord
        next => exact .failed hrecord
    | seq a b =>
      obtain ⟨ha, hb⟩ := hlf.seq
      rcases (ih a ctx lo mid lf pos acc m hr.1 ha hmid hacc hm).cases with
        ⟨m', heq, hm'⟩ | ⟨acc', j, m', heq, hj, hacc', hm'⟩ <;> simp only [Rules.run, heq]
      · exact .failed hm'
      · exact (ih b ctx lo j lf j acc' m' hr.2 (.inl hb) le_rfl hacc' hm').later hj
    | alt a b =>
      obtain ⟨ha, hb⟩ := hlf.alt
      rcases (ih a ctx lo mid lf pos acc m hr.1 ha hmid hacc hm).cases with
        ⟨m', heq, hm'⟩ | ⟨acc', j, m', heq, hj, hacc', hm'⟩ <;> simp only [Rules.run, heq]
      · exact ih b ctx lo mid lf pos acc m' hr.2 hb hmid hacc hm'
      · exact .found hj hacc' hm'
    | many a =>
      have ha : a.noLeft = true := hlf.elim id And.left
      rcases (ih a ctx lo mid lf pos acc m hr (.inl ha) hmid hacc hm).cases with
        ⟨m', heq, hm'⟩ | ⟨acc', j, m', heq, hj, hacc', hm'⟩ <;> simp only [Rules.run, heq]
      · exact .found le_rfl hhere hm'
      · split
        · exact .found le_rfl hhere hm'
        · exact (ih (.many a) ctx lo j lf j acc' m' hr (.inl ha) le_rfl hacc' hm').later hj
    | node kind a =>
      rcases (halone a hr.2 hlf).cases with
        ⟨m', heq, hm'⟩ | ⟨items, j, m', heq, hj, hitems, hm'⟩ <;> simp only [Rules.run, heq]
      · exact .failed hm'
      · exact .found hj (hP.wrap kind hr.1 lo mid pos j items acc hitems hmid hj hacc) hm'
    | field name a =>
      rcases (halone a hr hlf).cases with
        ⟨m', heq, hm'⟩ | ⟨items, j, m', heq, hj, hitems, hm'⟩ <;> simp only [Rules.run, heq]
      · exact .failed hm'
      · exact .found hj (hacc.append (hitems.field hP name)) hm'
    | ahead a =>
      rcases (halone a hr hlf).cases with
        ⟨m', heq, hm'⟩ | ⟨items, j, m', heq, hj, hitems, hm'⟩ <;> simp only [Rules.run, heq]
      · exact .failed hm'
      · exact .found le_rfl hhere hm'
    | absent a =>
      rcases (halone a hr hlf).cases with
        ⟨m', heq, hm'⟩ | ⟨items, j, m', heq, hj, hitems, hm'⟩ <;> simp only [Rules.run, heq]
      · exact .found le_rfl hhere hm'
      · exact .failed hm'
    | grow a b =>
      rcases (halone a hr.1 hlf).cases with
        ⟨m', heq, hm'⟩ | ⟨items, j, m', heq, hj, hitems, hm'⟩ <;> simp only [Rules.run, heq]
      · exact .failed hm'
      · -- the base is what stands on the left of the first step
        exact (ih (.growing b) ctx lo mid items j acc m' hr.2 (.inr ⟨rfl, hitems⟩)
          (hmid.trans hj) hacc hm').later hj
    | growing b =>
      obtain hlf | ⟨_, hlf⟩ := hlf
      · cases hlf
      · rcases (halone b hr.1 (.inr ⟨hr.2, hlf⟩)).cases with
          ⟨m', heq, hm'⟩ | ⟨items, j, m', heq, hj, hitems, hm'⟩ <;> simp only [Rules.run, heq]
        · exact .found le_rfl (hacc.append hlf) hm'
        · split
          · exact .found le_rfl (hacc.append hlf) hm'
          · exact (ih (.growing b) ctx lo mid items j acc m' hr (.inr ⟨rfl, hitems⟩)
              (hmid.trans hj) hacc hm').later hj
    | left =>
      obtain hlf | ⟨_, hlf⟩ := hlf
      · cases hlf
      · exact .found le_rfl (hacc.append hlf) hm

end Synopsis.Grammar
