import Mathlib.Data.List.Chain
import Mathlib.Logic.Relation
import Synopsis.Tree.Doc

/-! The block of comments that documents a declaration. It stands above the outermost wrapper that
can be reached without passing a comment, and is the longest run of comments there with no blank
line in it and no comment behind other code. -/
namespace Synopsis.Tree

/-! ### The anchor -/

/-- The outer place is a wrapper around the inner one, which has no comment before it. -/
structure Wraps (outer inner : Place) : Prop where
  parent : inner.parent = some outer
  wrapper : outer.node.kind ∈ wrapperKinds
  uncommented : ∀ n ∈ inner.prevNamed?, n.isComment = false

/-- The place reached by climbing from wrapper to wrapper as far as possible. -/
structure IsAnchor (p a : Place) : Prop where
  climbs : Relation.ReflTransGen (fun inner outer => Wraps outer inner) p a
  last : ∀ b, ¬ Wraps b a

theorem wraps_mk (n : Node) (before : List Node) (parent b : Place) :
    Wraps b (.mk n before (some parent)) ↔ parent = b ∧
      (wrapperKinds.contains parent.node.kind &&
        !((before.find? (·.named)).any Node.isComment)) = true := by
  have hnone : (∀ m ∈ before.find? (·.named), m.isComment = false) ↔
      (before.find? (·.named)).any Node.isComment = false := by
    cases before.find? (·.named) <;> simp
  constructor
  · rintro ⟨hparent, hwrapper, huncommented⟩
    obtain rfl : parent = b := by simpa [Place.parent] using hparent
    rw [Place.prevNamed?, Place.before, hnone] at huncommented
    exact ⟨rfl, by simpa [huncommented] using hwrapper⟩
  · rintro ⟨rfl, h⟩
    obtain ⟨hwrapper, huncommented⟩ := Bool.and_eq_true_iff.mp h
    refine ⟨rfl, by simpa using hwrapper, ?_⟩
    rw [Place.prevNamed?, Place.before, hnone]
    simpa using huncommented

theorem isAnchor_anchor (p : Place) : IsAnchor p p.anchor := by
  fun_induction Place.anchor p with
  | case1 n before =>
    refine ⟨.refl, fun b hb => ?_⟩
    cases hb.parent
  | case2 n before parent hclimb ih =>
    exact ⟨.head ((wraps_mk n before parent parent).mpr ⟨rfl, hclimb⟩) ih.climbs, ih.last⟩
  | case3 n before parent hstop =>
    refine ⟨.refl, fun b hb => ?_⟩
    exact hstop ((wraps_mk n before parent b).mp hb).2

/-- A place has one anchor. -/
theorem IsAnchor.unique {p a b : Place} (ha : IsAnchor p a) (hb : IsAnchor p b) : a = b := by
  obtain ⟨hclimbs, hlast⟩ := ha
  induction hclimbs using Relation.ReflTransGen.head_induction_on with
  | refl =>
    rcases Relation.ReflTransGen.cases_head hb.climbs with rfl | ⟨c, hc, _⟩
    · rfl
    · exact absurd hc (hlast c)
  | @head p c hpc _ ih =>
    rcases Relation.ReflTransGen.cases_head hb.climbs with rfl | ⟨d, hd, hdb⟩
    · exact absurd hpc (hb.last c)
    · -- both climb to the parent
      have hsame : c = d := Option.some.inj (hpc.parent.symm.trans hd.parent)
      subst hsame
      exact ih ⟨hdb, hb.last⟩

/-! ### The run above it -/

/-- The places of the nodes of a list in which each stands behind the next. -/
def Place.backwards (parent : Option Place) : List Node → List Place
  | [] => []
  | n :: rest => .mk n rest parent :: backwards parent rest

/-- The named siblings before a place, nearest first. -/
def Place.preceding (p : Place) : List Place :=
  (backwards p.parent p.before).filter (·.node.named)

/-- The comment extends a block upwards whose topmost part is `next`: no blank line lies between
them, and nothing ends on the row where the comment starts. -/
structure Extends (next m : Place) : Prop where
  comment : m.node.isComment = true
  adjacent : next.node.row ≤ m.node.endRow + 1
  alone : ∀ q ∈ m.before.head?, q.endRow ≠ m.node.row

/-- The longest block of comments directly before a place, nearest first. -/
structure IsBlock (a : Place) (siblings run : List Place) : Prop where
  directly : run <+: siblings
  chain : List.IsChain Extends (a :: run)
  longest : ∀ run', run' <+: siblings → List.IsChain Extends (a :: run') →
    run'.length ≤ run.length

theorem IsBlock.nil (a : Place) : IsBlock a [] [] :=
  ⟨List.nil_prefix, List.isChain_singleton a, fun _ hrun _ => hrun.length_le⟩

/-- Nothing is in the block where the nearest sibling does not extend it. -/
theorem IsBlock.stop {a m : Place} (siblings : List Place) (h : ¬ Extends a m) :
    IsBlock a (m :: siblings) [] := by
  refine ⟨List.nil_prefix, List.isChain_singleton a, fun run hrun hchain => ?_⟩
  cases run with
  | nil => exact le_rfl
  | cons x run =>
    obtain rfl := (List.cons_prefix_cons.mp hrun).1
    exact absurd (List.isChain_cons_cons.mp hchain).1 h

theorem IsBlock.extend {a m : Place} {siblings run : List Place} (h : Extends a m)
    (hrun : IsBlock m siblings run) : IsBlock a (m :: siblings) (m :: run) := by
  refine ⟨List.cons_prefix_cons.mpr ⟨rfl, hrun.directly⟩,
    List.isChain_cons_cons.mpr ⟨h, hrun.chain⟩, fun run' hrun' hchain => ?_⟩
  cases run' with
  | nil => exact Nat.zero_le _
  | cons x run' =>
    obtain ⟨rfl, htail⟩ := List.cons_prefix_cons.mp hrun'
    have hle := hrun.longest run' htail (List.isChain_cons_cons.mp hchain).2
    simpa using hle

theorem extends_iff (a : Place) (n : Node) (rest : List Node) (parent : Option Place) :
    Extends a (.mk n rest parent) ↔
      (!n.isComment || decide (n.endRow + 1 < a.node.row)) = false ∧
        rest.head?.any (fun q => q.endRow == n.row) = false := by
  have halone : (∀ q ∈ rest.head?, q.endRow ≠ n.row) ↔
      rest.head?.any (fun q => q.endRow == n.row) = false := by
    cases rest.head? <;> simp
  constructor
  · rintro ⟨hcomment, hadjacent, hfree⟩
    refine ⟨?_, halone.mp hfree⟩
    simp only [Place.node] at hcomment hadjacent
    simp [hcomment]
    exact hadjacent
  · rintro ⟨hkept, hfree⟩
    simp only [Bool.or_eq_false_iff, Bool.not_eq_false', decide_eq_false_iff_not, not_lt] at hkept
    exact ⟨hkept.1, hkept.2, halone.mpr hfree⟩

/-- The loop over the siblings reads off the longest block. -/
theorem commentRun_isBlock (a : Place) (parent : Option Place) (before : List Node) :
    ∃ run, IsBlock a ((Place.backwards parent before).filter (·.node.named)) run ∧
      commentRun a.node.row before = run.map Place.node := by
  -- the row of the last comment read moves along, and with it the place that is extended
  induction before generalizing a with
  | nil => exact ⟨[], .nil a, rfl⟩
  | cons n rest ih =>
    rw [commentRun, Place.backwards]
    by_cases hnamed : n.named = true
    · rw [List.filter_cons_of_pos (by exact hnamed), hnamed]
      by_cases hextends : Extends a (.mk n rest parent)
      · obtain ⟨hkept, hfree⟩ := (extends_iff a n rest parent).mp hextends
        obtain ⟨run, hrun, heq⟩ := ih (.mk n rest parent)
        refine ⟨.mk n rest parent :: run, hrun.extend hextends, ?_⟩
        have hrow : commentRun n.row rest = run.map Place.node := heq
        rw [hkept, hfree, hrow]
        rfl
      · refine ⟨[], .stop _ hextends, ?_⟩
        rw [extends_iff, not_and_or] at hextends
        simp only [Bool.not_eq_false] at hextends
        rcases hextends with hkept | hfree
        · simp [hkept]
        · simp [hfree]
    · obtain ⟨run, hrun, heq⟩ := ih a
      rw [List.filter_cons_of_neg (by exact hnamed)]
      exact ⟨run, hrun, by simp [hnamed, heq]⟩

/-- A declaration is documented by the longest block of comments directly above its anchor: in the
order of the source, the cleaned texts that are not empty, joined by line feeds. -/
theorem doc_of_block (p : Place) (s : Source) :
    ∃ a run, IsAnchor p a ∧ (∀ b, IsAnchor p b → b = a) ∧ IsBlock a a.preceding run ∧
      p.doc s = Text.join "\n"
        ((run.reverse.map fun m => Comment.cleaned (m.node.text s)).filter (· ≠ "")) := by
  have hanchor := isAnchor_anchor p
  obtain ⟨run, hrun, heq⟩ := commentRun_isBlock p.anchor p.anchor.parent p.anchor.before
  refine ⟨p.anchor, run, hanchor, fun b hb => hb.unique hanchor, hrun, ?_⟩
  rw [Place.doc, heq, ← List.map_reverse, List.map_map]
  congr 2
  funext c
  rw [Bool.eq_iff_iff]
  simp

end Synopsis.Tree
