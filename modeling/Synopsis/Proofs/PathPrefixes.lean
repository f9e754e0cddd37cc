import Mathlib.Data.Finset.Card
import Mathlib.Data.List.Infix
import Mathlib.Data.String.Basic
import Synopsis.PathTree

/-! The tree of some paths is the set of their prefixes: adding a path adds its prefixes, and
trees whose names are in order are equal if they have the same prefixes. -/
namespace Synopsis.PathTree

/-- A tree is empty, or has a first name with what lies below it and the names after it. -/
@[elab_as_elim]
theorem induct {P : PathTree → Prop} (leaf : P (node []))
    (cons : ∀ n t rest, P t → P (node rest) → P (node ((n, t) :: rest))) : ∀ t, P t
  | node [] => leaf
  | node ((n, t) :: rest) => cons n t rest (induct leaf cons t) (induct leaf cons (node rest))

def children : PathTree → List (String × PathTree)
  | node cs => cs

/-- From the root of the tree some names lead down, one after the other. -/
def Has : List String → PathTree → Prop
  | [], _ => True
  | n :: q, t => ∃ u, (n, u) ∈ t.children ∧ Has q u

@[simp] theorem has_nil (t : PathTree) : Has [] t := trivial

@[simp] theorem has_leaf (q : List String) : Has q (node []) ↔ q = [] := by
  cases q <;> simp [Has, children]

@[simp] theorem has_cons (n m : String) (q : List String) (t : PathTree)
    (rest : List (String × PathTree)) :
    Has (n :: q) (node ((m, t) :: rest)) ↔ (n = m ∧ Has q t) ∨ Has (n :: q) (node rest) := by
  simp only [Has, children, List.mem_cons, Prod.mk.injEq]
  constructor
  · rintro ⟨u, ⟨rfl, rfl⟩ | hu, hq⟩
    · exact .inl ⟨rfl, hq⟩
    · exact .inr ⟨u, hu, hq⟩
  · rintro (⟨rfl, hq⟩ | ⟨u, hu, hq⟩)
    · exact ⟨t, .inl ⟨rfl, rfl⟩, hq⟩
    · exact ⟨u, .inr hu, hq⟩

/-! ### Adding paths -/

theorem has_place (name : String) (rest : List String)
    (ih : ∀ q t, Has q (insert rest t) ↔ Has q t ∨ q <+: rest) (n : String) (q : List String)
    (cs : List (String × PathTree)) :
    Has (n :: q) (node (place name (insert rest) cs)) ↔
      Has (n :: q) (node cs) ∨ (n = name ∧ q <+: rest) := by
  have hnew : Has q (insert rest empty) ↔ q <+: rest := by
    rw [ih, empty, has_leaf, or_iff_right_of_imp]
    rintro rfl
    exact List.nil_prefix
  induction cs with
  | nil => simp [place, hnew]
  | cons c cs ihcs =>
    obtain ⟨m, t⟩ := c
    rw [place]
    -- the name comes before this child, is that of the child, or belongs further on
    split_ifs with hlt heq
    · rw [has_cons, hnew, or_comm]
    · subst heq
      rw [has_cons, has_cons, ih, and_or_left, or_right_comm]
    · rw [has_cons, has_cons, or_assoc]
      exact or_congr Iff.rfl ihcs

/-- Adding a path adds its prefixes. -/
theorem has_insert (path q : List String) (t : PathTree) :
    Has q (insert path t) ↔ Has q t ∨ q <+: path := by
  induction path generalizing q t with
  | nil =>
    rw [insert, List.prefix_nil, or_iff_left_of_imp]
    rintro rfl
    exact has_nil t
  | cons name rest ih =>
    obtain ⟨cs⟩ := t
    cases q with
    | nil => simp
    | cons n q => rw [insert, has_place name rest ih, List.cons_prefix_cons]

theorem has_ofPaths (q : List String) (paths : List String) :
    Has q (ofPaths paths) ↔ q = [] ∨ ∃ p ∈ paths, q <+: names p := by
  have hfold (t : PathTree) : Has q (paths.foldl (fun t p => insert (names p) t) t) ↔
      Has q t ∨ ∃ p ∈ paths, q <+: names p := by
    induction paths generalizing t with
    | nil => simp
    | cons p paths ih => simp [ih, has_insert, or_assoc]
  rw [ofPaths, hfold, empty, has_leaf]

/-! ### Names in order -/

/-- Siblings stand in the order of their names, each name once. -/
inductive Ordered : PathTree → Prop
  | leaf : Ordered (node [])
  | cons (n : String) (t : PathTree) (rest : List (String × PathTree))
      (first : ∀ x ∈ rest, n < x.1) (below : Ordered t) (after : Ordered (node rest)) :
      Ordered (node ((n, t) :: rest))

theorem fst_mem_place (name : String) (change : PathTree → PathTree)
    (cs : List (String × PathTree)) (x : String × PathTree) (hx : x ∈ place name change cs) :
    x.1 = name ∨ ∃ y ∈ cs, y.1 = x.1 := by
  induction cs with
  | nil =>
    rw [place, List.mem_singleton] at hx
    exact .inl (congrArg Prod.fst hx)
  | cons c cs ih =>
    rw [place] at hx
    split_ifs at hx with hlt heq
    · rcases List.mem_cons.mp hx with rfl | hx
      · exact .inl rfl
      · exact .inr ⟨x, hx, rfl⟩
    · rcases List.mem_cons.mp hx with rfl | hx
      · exact .inl heq.symm
      · exact .inr ⟨x, List.mem_cons_of_mem c hx, rfl⟩
    · rcases List.mem_cons.mp hx with rfl | hx
      · exact .inr ⟨c, List.mem_cons_self, rfl⟩
      · rcases ih hx with h | ⟨y, hy, h⟩
        · exact .inl h
        · exact .inr ⟨y, List.mem_cons_of_mem c hy, h⟩

theorem ordered_place (name : String) (change : PathTree → PathTree)
    (hchange : ∀ t, Ordered t → Ordered (change t)) (cs : List (String × PathTree))
    (h : Ordered (node cs)) : Ordered (node (place name change cs)) := by
  induction cs with
  | nil => exact .cons name _ [] (by simp) (hchange empty .leaf) .leaf
  | cons c cs ih =>
    obtain ⟨m, t⟩ := c
    obtain _ | ⟨_, _, _, hfirst, hbelow, hafter⟩ := h
    rw [place]
    split_ifs with hlt heq
    · refine .cons name _ _ ?_ (hchange empty .leaf) (.cons m t cs hfirst hbelow hafter)
      intro x hx
      rcases List.mem_cons.mp hx with rfl | hx
      · exact hlt
      · exact hlt.trans (hfirst x hx)
    · exact .cons m _ cs hfirst (hchange t hbelow) hafter
    · -- `name` is neither before `m` nor `m` itself, so it goes behind
      have hgt : m < name := lt_of_le_of_ne (not_lt.mp hlt) (Ne.symm heq)
      refine .cons m t _ ?_ hbelow (ih hafter)
      intro x hx
      rcases fst_mem_place name change cs x hx with h | ⟨y, hy, h⟩
      · rwa [h]
      · rw [← h]
        exact hfirst y hy

theorem ordered_insert (path : List String) (t : PathTree) (h : Ordered t) :
    Ordered (insert path t) := by
  induction path generalizing t with
  | nil => exact h
  | cons name rest ih =>
    obtain ⟨cs⟩ := t
    exact ordered_place name (insert rest) ih cs h

theorem ordered_ofPaths (paths : List String) : Ordered (ofPaths paths) := by
  have hfold (t : PathTree) (ht : Ordered t) :
      Ordered (paths.foldl (fun t p => insert (names p) t) t) := by
    induction paths generalizing t with
    | nil => exact ht
    | cons p paths ih => exact ih _ (ordered_insert (names p) t ht)
  exact hfold empty .leaf

theorem not_has_of_lt (n : String) (q : List String) (rest : List (String × PathTree))
    (h : ∀ x ∈ rest, n < x.1) : ¬ Has (n :: q) (node rest) := by
  rintro ⟨u, hu, _⟩
  exact lt_irrefl n (h (n, u) hu)

/-- The first name of a tree is first among all. -/
theorem le_of_has (n m : String) (q : List String) (t : PathTree)
    (rest : List (String × PathTree)) (h : ∀ x ∈ rest, m < x.1)
    (hn : Has (n :: q) (node ((m, t) :: rest))) : m ≤ n := by
  rcases (has_cons n m q t rest).mp hn with ⟨rfl, _⟩ | ⟨u, hu, _⟩
  · exact le_rfl
  · exact (h (n, u) hu).le

/-- Trees in order with the same prefixes are equal. -/
theorem eq_of_has_iff (t u : PathTree) (ht : Ordered t) (hu : Ordered u)
    (h : ∀ q, Has q t ↔ Has q u) : t = u := by
  induction ht generalizing u with
  | leaf =>
    cases hu with
    | leaf => rfl
    | cons m u' rest' _ _ _ => simpa using h [m]
  | cons n t' rest hfirst _ _ iht ihrest =>
    cases hu with
    | leaf => simpa using h [n]
    | cons m u' rest' hfirst' hbelow' hafter' =>
      -- the first name of each tree is a prefix of both, so neither is before the other
      obtain rfl : n = m := by
        apply le_antisymm
        · exact le_of_has m n [] t' rest hfirst ((h [m]).mpr (by simp))
        · exact le_of_has n m [] u' rest' hfirst' ((h [n]).mp (by simp))
      have hbelow : t' = u' := by
        apply iht u' hbelow'
        intro q
        simpa [not_has_of_lt n q rest hfirst, not_has_of_lt n q rest' hfirst'] using h (n :: q)
      have hafter : node rest = node rest' := by
        apply ihrest _ hafter'
        intro q
        cases q with
        | nil => simp
        | cons k q =>
          by_cases hk : k = n
          · subst hk
            exact iff_of_false (not_has_of_lt k q rest hfirst) (not_has_of_lt k q rest' hfirst')
          · simpa [hk] using h (k :: q)
      rw [hbelow, node.inj hafter]

/-! ### All prefixes -/

mutual

/-- What lies below a node at which some names lead, every prefix before what lies below it. -/
def prefixesBelow (front : List String) : PathTree → List (List String)
  | node cs => childPrefixes front cs

def childPrefixes (front : List String) : List (String × PathTree) → List (List String)
  | [] => []
  | (n, t) :: rest =>
    (front ++ [n]) :: prefixesBelow (front ++ [n]) t ++ childPrefixes front rest

end

@[simp] theorem prefixesBelow_cons (front : List String) (n : String) (t : PathTree)
    (rest : List (String × PathTree)) :
    prefixesBelow front (node ((n, t) :: rest)) =
      (front ++ [n]) :: (prefixesBelow (front ++ [n]) t ++ prefixesBelow front (node rest)) := rfl

theorem mem_prefixesBelow (t : PathTree) (front q : List String) :
    q ∈ prefixesBelow front t ↔ ∃ r, r ≠ [] ∧ q = front ++ r ∧ Has r t := by
  induction t using induct generalizing front with
  | leaf => simp [prefixesBelow, childPrefixes]
  | cons n t rest iht ihrest =>
    rw [prefixesBelow_cons, List.mem_cons, List.mem_append, iht, ihrest]
    constructor
    · rintro (rfl | ⟨r, _, rfl, hr⟩ | ⟨r, hne, rfl, hr⟩)
      · exact ⟨[n], by simp, rfl, by simp⟩
      · exact ⟨n :: r, by simp, by simp, by simp [hr]⟩
      · obtain ⟨k, r, rfl⟩ := List.exists_cons_of_ne_nil hne
        exact ⟨k :: r, hne, rfl, by simp [hr]⟩
    · rintro ⟨r, hne, rfl, hr⟩
      obtain ⟨k, r, rfl⟩ := List.exists_cons_of_ne_nil hne
      rcases (has_cons k n r t rest).mp hr with ⟨rfl, hbelow⟩ | hafter
      · by_cases hnil : r = []
        · exact .inl (by rw [hnil])
        · exact .inr (.inl ⟨r, hnil, by simp, hbelow⟩)
      · exact .inr (.inr ⟨k :: r, hne, rfl, hafter⟩)

theorem prefixesBelow_nodup (t : PathTree) (front : List String) (h : Ordered t) :
    (prefixesBelow front t).Nodup := by
  induction h generalizing front with
  | leaf => exact List.nodup_nil
  | cons n t rest hfirst _ _ iht ihrest =>
    rw [prefixesBelow_cons, List.nodup_cons, List.nodup_append]
    refine ⟨?_, iht _, ihrest _, ?_⟩
    · rw [List.mem_append, mem_prefixesBelow, mem_prefixesBelow]
      rintro (⟨r, hne, heq, _⟩ | ⟨r, hne, heq, hr⟩)
      · exact hne (by simpa using heq)
      · obtain rfl : [n] = r := List.append_cancel_left heq
        exact not_has_of_lt n [] rest hfirst hr
    · -- below `n` all prefixes go on with `n`, and behind it none does
      intro q hq q' hq' heq
      subst heq
      rw [mem_prefixesBelow] at hq hq'
      obtain ⟨r, _, rfl, _⟩ := hq
      obtain ⟨r', _, heq, hr'⟩ := hq'
      obtain rfl : n :: r = r' := by simpa using heq
      exact not_has_of_lt n r rest hfirst hr'

end Synopsis.PathTree

namespace Synopsis
open PathTree

/-- The sequences of names with which some path begins. -/
def pathPrefixes (paths : List String) : Finset (List String) :=
  (paths.flatMap fun p => (names p).inits).toFinset.erase []

theorem mem_pathPrefixes (paths : List String) (q : List String) :
    q ∈ pathPrefixes paths ↔ q ≠ [] ∧ ∃ p ∈ paths, q <+: names p := by
  simp [pathPrefixes]

theorem has_ofPaths_iff (paths : List String) (q : List String) :
    Has q (ofPaths paths) ↔ q = [] ∨ q ∈ pathPrefixes paths := by
  rw [has_ofPaths, mem_pathPrefixes]
  by_cases hq : q = [] <;> simp [hq]

/-- The tree has the prefixes of the paths, each once. -/
theorem prefixesBelow_ofPaths (paths : List String) :
    (prefixesBelow [] (ofPaths paths)).Nodup ∧
      (prefixesBelow [] (ofPaths paths)).toFinset = pathPrefixes paths := by
  refine ⟨prefixesBelow_nodup _ [] (ordered_ofPaths paths), ?_⟩
  ext q
  rw [List.mem_toFinset, mem_prefixesBelow, mem_pathPrefixes]
  simp only [List.nil_append, has_ofPaths]
  constructor
  · rintro ⟨r, hne, rfl, hr⟩
    exact ⟨hne, hr.resolve_left hne⟩
  · rintro ⟨hne, hq⟩
    exact ⟨q, hne, rfl, .inr hq⟩

/-- Paths with the same prefixes have the same tree. -/
theorem ofPaths_eq_of_prefixes (paths paths' : List String)
    (h : pathPrefixes paths = pathPrefixes paths') : ofPaths paths = ofPaths paths' := by
  apply eq_of_has_iff _ _ (ordered_ofPaths paths) (ordered_ofPaths paths')
  intro q
  rw [has_ofPaths_iff, has_ofPaths_iff, h]

end Synopsis
