import Mathlib.Tactic.SplitIfs
import Mathlib.Tactic.Tauto
import Synopsis.Grammar.Rule

/-! What holds of all tokens and gaps of a rule. It holds of a rule put together from others if it
holds of these. -/
namespace Synopsis.Grammar.Rule

variable {σ : Type} {P : Rule σ → Prop}

/-- The property holds of all tokens and gaps of a rule. -/
def Each (P : Rule σ → Prop) : Rule σ → Prop
  | token kind named scan => P (token kind named scan)
  | near kind named scan => P (near kind named scan)
  | gap scan => P (gap scan)
  | seq a b | alt a b | grow a b => a.Each P ∧ b.Each P
  | within _ a | many a | node _ a | field _ a | ahead a | absent a | growing a => a.Each P
  | done | fail | test _ | call _ | left => True

/-! ### Tokens -/

@[simp] theorem each_lit (text : String) : (lit text : Rule σ).Each P ↔ P (lit text) := Iff.rfl

@[simp] theorem each_litUnless (text stop : String) :
    (litUnless text stop : Rule σ).Each P ↔ P (litUnless text stop) := Iff.rfl

@[simp] theorem each_oneOf (texts : List String) :
    (oneOf texts : Rule σ).Each P ↔ P (oneOf texts) := Iff.rfl

@[simp] theorem each_leaf (kind : String) (scan : Scan) :
    (leaf kind scan : Rule σ).Each P ↔ P (leaf kind scan) := Iff.rfl

@[simp] theorem each_token (kind : String) (named : Bool) (scan : Scan) :
    (token kind named scan : Rule σ).Each P ↔ P (token kind named scan) := Iff.rfl

@[simp] theorem each_near (kind : String) (named : Bool) (scan : Scan) :
    (near kind named scan : Rule σ).Each P ↔ P (near kind named scan) := Iff.rfl

@[simp] theorem each_gap (scan : Nat → Scan) :
    (gap scan : Rule σ).Each P ↔ P (gap scan) := Iff.rfl

/-! ### Rules put together -/

@[simp] theorem each_done : (done : Rule σ).Each P := trivial

@[simp] theorem each_fail : (fail : Rule σ).Each P := trivial

@[simp] theorem each_left : (left : Rule σ).Each P := trivial

@[simp] theorem each_test (p : Nat → Tree.Source → Nat → Bool) : (test p : Rule σ).Each P := trivial

@[simp] theorem each_call (x : σ) : (call x : Rule σ).Each P := trivial

@[simp] theorem each_node (kind : String) (a : Rule σ) : (node kind a).Each P ↔ a.Each P :=
  Iff.rfl

@[simp] theorem each_seq (a b : Rule σ) : (seq a b).Each P ↔ a.Each P ∧ b.Each P := Iff.rfl

@[simp] theorem each_alt (a b : Rule σ) : (alt a b).Each P ↔ a.Each P ∧ b.Each P := Iff.rfl

@[simp] theorem each_many (a : Rule σ) : (many a).Each P ↔ a.Each P := Iff.rfl

@[simp] theorem each_field (name : String) (a : Rule σ) : (field name a).Each P ↔ a.Each P :=
  Iff.rfl

@[simp] theorem each_within (f : Nat → Tree.Source → Nat → Option Nat) (a : Rule σ) :
    (within f a).Each P ↔ a.Each P := Iff.rfl

@[simp] theorem each_ahead (a : Rule σ) : (ahead a).Each P ↔ a.Each P := Iff.rfl

@[simp] theorem each_absent (a : Rule σ) : (absent a).Each P ↔ a.Each P := Iff.rfl

@[simp] theorem each_grow (a b : Rule σ) : (grow a b).Each P ↔ a.Each P ∧ b.Each P := Iff.rfl

@[simp] theorem each_all_nil : (all [] : Rule σ).Each P := trivial

@[simp] theorem each_all_cons (r : Rule σ) (rs : List (Rule σ)) :
    (all (r :: rs)).Each P ↔ r.Each P ∧ (all rs).Each P := by
  cases rs with
  | nil => exact (and_iff_left trivial).symm
  | cons r' rs => rfl

@[simp] theorem each_any_nil : (any [] : Rule σ).Each P := trivial

@[simp] theorem each_any_cons (r : Rule σ) (rs : List (Rule σ)) :
    (any (r :: rs)).Each P ↔ r.Each P ∧ (any rs).Each P := by
  cases rs with
  | nil => exact (and_iff_left trivial).symm
  | cons r' rs => rfl

@[simp] theorem each_any_append (rs rs' : List (Rule σ)) :
    (any (rs ++ rs')).Each P ↔ (any rs).Each P ∧ (any rs').Each P := by
  induction rs with
  | nil => simp
  | cons r rs ih => simp [ih, and_assoc]

theorem each_any_map {α : Type} (f : α → Rule σ) (xs : List α) :
    (any (xs.map f)).Each P ↔ ∀ x ∈ xs, (f x).Each P := by
  induction xs with
  | nil => simp
  | cons x xs ih => simp [ih]

@[simp] theorem each_opt (r : Rule σ) : (opt r).Each P ↔ r.Each P := by
  simp [opt]

@[simp] theorem each_many1 (r : Rule σ) : (many1 r).Each P ↔ r.Each P := by
  simp [many1]

@[simp] theorem each_sep1 (r s : Rule σ) : (sep1 r s).Each P ↔ r.Each P ∧ s.Each P := by
  simp only [sep1, each_seq, each_many]
  tauto

@[simp] theorem each_parens (r : Rule σ) :
    (parens r).Each P ↔ P (lit "(") ∧ r.Each P ∧ P (lit ")") := by
  simp [parens]

@[simp] theorem each_brackets (r : Rule σ) :
    (brackets r).Each P ↔ P (lit "[") ∧ r.Each P ∧ P (lit "]") := by
  simp [brackets]

@[simp] theorem each_braces (r : Rule σ) :
    (braces r).Each P ↔ P (lit "\x7b") ∧ r.Each P ∧ P (lit "\x7d") := by
  simp [braces]

@[simp] theorem each_list (r s : Rule σ) : (list r s).Each P ↔ r.Each P ∧ s.Each P := by
  simp only [list, each_opt, each_all_cons, each_all_nil, each_sep1]
  tauto

theorem each_ite (p : Prop) [Decidable p] (a b : Rule σ) :
    (if p then a else b).Each P ↔ (p → a.Each P) ∧ (¬ p → b.Each P) := by
  split_ifs <;> simp [*]

end Synopsis.Grammar.Rule
