import Mathlib.Data.List.Infix
import Mathlib.Order.Basic
import Synopsis.Tree.Parser

/-! Syntax trees that lie in their source: what a parsing library says of its trees and of the
matches in them. The rows of a node are those of its positions, comments start where the nodes
before them have ended, and a query captures places in the tree, under names of its own. -/
namespace Synopsis.Tree

/-! ### Rows -/

theorem rowsFrom_getElem? (row : Nat) (cs : List Char) (i : Nat) (hi : i ≤ cs.length) :
    (Source.rowsFrom row cs)[i]? = some (row + (cs.take i).count '\n') := by
  induction cs generalizing row i with
  | nil =>
    obtain rfl : i = 0 := by simpa using hi
    rfl
  | cons c cs ih =>
    cases i with
    | zero => simp [Source.rowsFrom]
    | succ i =>
      have hi : i ≤ cs.length := by simpa using hi
      rw [Source.rowsFrom, List.getElem?_cons_succ, ih _ i hi, List.take_succ_cons, List.count_cons]
      congr 1
      split <;> omega

/-- The row of a position is the number of line feeds before it. -/
theorem row_ofString (text : String) (i : Nat) (hi : i ≤ text.toList.length) :
    (Source.ofString text).row i = (text.toList.take i).count '\n' := by
  simp [Source.row, Source.ofString, rowsFrom_getElem? 0 _ i hi]

/-- Two positions are on the same row unless a line feed stands between them. -/
theorem row_ne_iff (text : String) (i j : Nat) (hij : i ≤ j) (hj : j ≤ text.toList.length) :
    (Source.ofString text).row i ≠ (Source.ofString text).row j ↔
      '\n' ∈ (text.toList.take j).drop i := by
  have hsplit : (text.toList.take j).count '\n' =
      (text.toList.take i).count '\n' + ((text.toList.take j).drop i).count '\n' := by
    calc (text.toList.take j).count '\n'
        = ((text.toList.take j).take i ++ (text.toList.take j).drop i).count '\n' := by
          rw [List.take_append_drop]
      _ = ((text.toList.take j).take i).count '\n' + ((text.toList.take j).drop i).count '\n' :=
          List.count_append
      _ = _ := by rw [List.take_take, min_eq_left hij]
  rw [row_ofString text i (by omega), row_ofString text j hj, hsplit, ← List.count_pos_iff]
  omega

/-! ### Trees and their places -/

/-- Every comment starts where the nodes before it have ended. -/
def InOrder (ns : List Node) : Prop :=
  ns.Pairwise fun a b => b.isComment = true → a.stop ≤ b.start

/-- The rows of a node are those of its positions, its children are in order, and this goes for all
below it. -/
inductive Sited (s : Source) : Node → Prop
  | mk (n : Node) (row : n.row = s.row n.start) (endRow : n.endRow = s.row n.stop)
      (order : InOrder n.children) (children : ∀ c ∈ n.children, Sited s c) : Sited s n

/-- The places of a tree: that of its root, and those of children. -/
inductive Place.In (root : Node) : Place → Prop
  | root : Place.In root (.root root)
  | child (p c : Place) (hp : p.In root) (hc : c ∈ p.children) : Place.In root c

/-- A node and the siblings before it have their rows right, and these are in order. -/
structure Place.IsSited (s : Source) (p : Place) : Prop where
  node : Sited s p.node
  order : InOrder p.before.reverse
  before : ∀ n ∈ p.before, Sited s n

theorem exists_of_mem_childrenFrom (parent : Place) (before ns : List Node) (p : Place)
    (hp : p ∈ Place.childrenFrom parent before ns) :
    ∃ after, p.before.reverse ++ p.node :: after = before.reverse ++ ns := by
  induction ns generalizing before with
  | nil => cases hp
  | cons n ns ih =>
    rcases List.mem_cons.mp hp with rfl | hp
    · exact ⟨ns, rfl⟩
    · obtain ⟨after, hafter⟩ := ih (n :: before) hp
      exact ⟨after, by simpa using hafter⟩

/-- A child of a place, with the siblings before it, is among the children of the node. -/
theorem exists_of_mem_children (p c : Place) (hc : c ∈ p.children) :
    ∃ after, c.before.reverse ++ c.node :: after = p.node.children := by
  obtain ⟨after, hafter⟩ := exists_of_mem_childrenFrom p [] p.node.children c hc
  exact ⟨after, by simpa using hafter⟩

/-- A property that passes from a node to its children holds at all places of a tree. -/
theorem Place.In.holds {root : Node} {p : Place} (hp : p.In root) (P : Node → Prop)
    (hroot : P root) (hchildren : ∀ n, P n → ∀ c ∈ n.children, P c) : P p.node := by
  induction hp with
  | root => exact hroot
  | child p c _ hc ih =>
    obtain ⟨after, hafter⟩ := exists_of_mem_children p c hc
    exact hchildren p.node ih c.node (hafter ▸ by simp)

theorem Place.In.isSited {s : Source} {root : Node} {p : Place} (hp : p.In root)
    (hroot : Sited s root) : p.IsSited s := by
  induction hp with
  | root => exact ⟨hroot, .nil, fun _ hm => by cases hm⟩
  | child p c _ hc ih =>
    obtain ⟨_, _, _, horder, hchildren⟩ := ih.node
    obtain ⟨after, hafter⟩ := exists_of_mem_children p c hc
    rw [← hafter] at horder hchildren
    refine ⟨hchildren _ (by simp), (List.pairwise_append.mp horder).1, fun n hn => ?_⟩
    exact hchildren n (by simp [hn])

/-! ### What a library says of its parsers -/

/-- A query captures places of the tree, under names that it lists. -/
structure Query.Lawful (q : Query) : Prop where
  names : ∀ s root, ∀ m ∈ q.matchesIn s root, ∀ x ∈ m.captures, x.1 ∈ q.captureNames
  places : ∀ s root, ∀ m ∈ q.matchesIn s root, ∀ x ∈ m.captures, x.2.In root

/-- The queries of a parser are lawful and capture under names that their text has behind an `@`;
its trees have their rows right and are in order. -/
structure Parser.Lawful (p : Parser) : Prop where
  query : ∀ text q, p.readQuery text = .ok q → q.Lawful
  names : ∀ text q, p.readQuery text = .ok q →
    ∀ w ∈ q.captureNames, '@' :: w.toList <:+: text.toList
  sited : ∀ text root, p.parse text = some root → Sited (.ofString text) root

/-! ### Trees that are given -/

/-- A named node on one row. -/
def Node.flat (kind field : String) (start stop row : Nat) (children : List Node) : Node :=
  ⟨kind, true, field, start, stop, row, row, children⟩

/-- A piece of punctuation, or a word of the language. -/
def Node.mark (text : String) (start row : Nat) : Node :=
  ⟨text, false, "", start, start + text.length, row, row, []⟩

mutual

/-- A test of all nodes of a tree. -/
def Node.all (test : Node → Bool) : Node → Bool
  | ⟨kind, named, field, start, stop, row, endRow, children⟩ =>
    test ⟨kind, named, field, start, stop, row, endRow, children⟩ && Node.allOf test children

def Node.allOf (test : Node → Bool) : List Node → Bool
  | [] => true
  | n :: ns => n.all test && Node.allOf test ns

end

theorem Node.all_eq_true (test : Node → Bool) (n : Node) :
    n.all test = true ↔ test n = true ∧ Node.allOf test n.children = true := by
  cases n
  rw [Node.all, Bool.and_eq_true]

theorem Node.all_of_mem_allOf (test : Node → Bool) (ns : List Node)
    (h : Node.allOf test ns = true) (n : Node) (hn : n ∈ ns) : n.all test = true := by
  induction ns with
  | nil => cases hn
  | cons m ns ih =>
    obtain ⟨hm, hns⟩ := Bool.and_eq_true_iff.mp h
    rcases List.mem_cons.mp hn with rfl | hn
    · exact hm
    · exact ih hns hn

/-- What was tested of all nodes holds at every place. -/
theorem Place.In.all {root : Node} {p : Place} (hp : p.In root) (P : Node → Prop)
    [DecidablePred P] (h : root.all (fun n => decide (P n)) = true) : P p.node := by
  have hall := hp.holds (fun n => n.all (fun m => decide (P m)) = true) h fun n hn c hc =>
    Node.all_of_mem_allOf _ _ ((n.all_eq_true _).mp hn).2 c hc
  exact of_decide_eq_true ((p.node.all_eq_true _).mp hall).1

instance (ns : List Node) : Decidable (InOrder ns) :=
  inferInstanceAs (Decidable (ns.Pairwise fun a b => b.isComment = true → a.stop ≤ b.start))

/-- Whether the rows of a node are right and its children in order. -/
def Node.isSited (s : Source) (n : Node) : Bool :=
  n.row == s.row n.start && n.endRow == s.row n.stop && decide (InOrder n.children)

mutual

theorem sited_of_all (s : Source) : (n : Node) → n.all (Node.isSited s) = true → Sited s n
  | ⟨_, _, _, _, _, _, _, children⟩, h => by
    obtain ⟨hnode, hchildren⟩ := (Node.all_eq_true _ _).mp h
    simp only [Node.isSited, Bool.and_eq_true, beq_iff_eq, decide_eq_true_eq] at hnode
    obtain ⟨⟨hrow, hend⟩, horder⟩ := hnode
    exact .mk _ hrow hend horder (sited_of_allOf s children hchildren)

theorem sited_of_allOf (s : Source) : (ns : List Node) →
    Node.allOf (Node.isSited s) ns = true → ∀ n ∈ ns, Sited s n
  | [], _, n, hn => by cases hn
  | m :: ns, h, n, hn => by
    obtain ⟨hm, hns⟩ := Bool.and_eq_true_iff.mp h
    rcases List.mem_cons.mp hn with heq | hn
    · exact heq ▸ sited_of_all s m hm
    · exact sited_of_allOf s ns hns n hn

end

end Synopsis.Tree
