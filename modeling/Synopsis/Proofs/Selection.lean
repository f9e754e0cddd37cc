import Mathlib.Data.List.Forall2
import Synopsis.Extract

/-! Which matches become signatures: of every line the first acceptable one. Options decide
only what is shown of them. -/
open Synopsis.Tree

namespace Synopsis

/-- The candidates that give a signature, each with its kind: acceptable ones on lines that
were not seen before. -/
def selected (p : Profile) : List Nat → List Candidate → List (Candidate × Kind)
  | _, [] => []
  | seen, c :: cs =>
    match c.accept? p with
    | none => selected p seen cs
    | some kind =>
      if seen.contains c.line then selected p seen cs
      else (c, kind) :: selected p (c.line :: seen) cs

/-- A candidate is shown if all are, or if it is public. -/
def shown (p : Profile) (o : Options) (x : Candidate × Kind) : Bool :=
  o.includePrivate || p.isExported x.1.name x.1.text o

/-- The options do not take part in the selection. -/
theorem signaturesOf_eq_selected (p : Profile) (s : Source) (tag : String) (o : Options)
    (seen : List Nat) (cs : List Candidate) :
    signaturesOf p s tag o seen cs =
      ((selected p seen cs).filter (shown p o)).map fun x => x.1.signature p s tag o x.2 := by
  induction cs generalizing seen with
  | nil => rfl
  | cons c cs ih =>
    rw [signaturesOf, selected]
    cases hkind : c.accept? p with
    | none => exact ih seen
    | some kind =>
      dsimp only
      -- shown or not, the line is taken: both runs go on from the same lines
      split_ifs with hseen hshown
      · exact ih seen
      · have hx : shown p o (c, kind) = true := hshown
        rw [ih, List.filter_cons_of_pos hx, List.map_cons]
      · have hx : ¬ shown p o (c, kind) = true := hshown
        rw [ih, List.filter_cons_of_neg hx]

/-- Where private declarations are shown all selected candidates are. -/
theorem signaturesOf_all (p : Profile) (s : Source) (tag : String) (o : Options)
    (ho : o.includePrivate = true) (seen : List Nat) (cs : List Candidate) :
    signaturesOf p s tag o seen cs =
      (selected p seen cs).map fun x => x.1.signature p s tag o x.2 := by
  have hshown : (selected p seen cs).filter (shown p o) = selected p seen cs := by
    apply List.filter_eq_self.mpr
    intro x _
    simp [shown, ho]
  rw [signaturesOf_eq_selected, hshown]

theorem lines_signaturesOf_all (p : Profile) (s : Source) (tag : String) (o : Options)
    (ho : o.includePrivate = true) (seen : List Nat) (cs : List Candidate) :
    (signaturesOf p s tag o seen cs).map (·.line) =
      (selected p seen cs).map (·.1.line) := by
  rw [signaturesOf_all p s tag o ho, List.map_map]
  rfl

/-- A candidate is passed over and takes no line, or it is selected and takes its line. -/
theorem selected_cons (p : Profile) (seen : List Nat) (c : Candidate) (cs : List Candidate) :
    (selected p seen (c :: cs) = selected p seen cs ∧
      ((c.accept? p).isSome → c.line ∈ seen)) ∨
    ∃ kind, c.accept? p = some kind ∧ c.line ∉ seen ∧
      selected p seen (c :: cs) = (c, kind) :: selected p (c.line :: seen) cs := by
  rw [selected]
  cases hkind : c.accept? p with
  | none => exact Or.inl ⟨rfl, by simp⟩
  | some kind =>
    dsimp only
    split_ifs with hseen
    · exact Or.inl ⟨rfl, fun _ => by simpa using hseen⟩
    · exact Or.inr ⟨kind, rfl, by simpa using hseen, rfl⟩

theorem selected_line_not_seen (p : Profile) (seen : List Nat) (cs : List Candidate)
    (x : Candidate × Kind) (hx : x ∈ selected p seen cs) : x.1.line ∉ seen := by
  induction cs generalizing seen with
  | nil => simp [selected] at hx
  | cons c cs ih =>
    rcases selected_cons p seen c cs with ⟨heq, _⟩ | ⟨kind, _, hnew, heq⟩
    · exact ih seen (heq ▸ hx)
    · rcases List.mem_cons.mp (heq ▸ hx) with rfl | hx
      · exact hnew
      · exact fun h => ih _ hx (List.mem_cons_of_mem _ h)

theorem selected_lines_nodup (p : Profile) (seen : List Nat) (cs : List Candidate) :
    ((selected p seen cs).map (·.1.line)).Nodup := by
  induction cs generalizing seen with
  | nil => simp [selected]
  | cons c cs ih =>
    rcases selected_cons p seen c cs with ⟨heq, _⟩ | ⟨kind, _, _, heq⟩
    · exact heq ▸ ih seen
    · rw [heq, List.map_cons, List.nodup_cons]
      refine ⟨?_, ih _⟩
      intro hmem
      obtain ⟨x, hx, hline⟩ := List.mem_map.mp hmem
      apply selected_line_not_seen p _ cs x hx
      rw [hline]
      exact List.mem_cons_self

/-- An acceptable candidate starts on line `l`. -/
def Taken (p : Profile) (cs : List Candidate) (l : Nat) : Prop :=
  ∃ c ∈ cs, (c.accept? p).isSome ∧ c.line = l

theorem taken_concat (p : Profile) (cs : List Candidate) (c : Candidate) (l : Nat) :
    Taken p (cs ++ [c]) l ↔ Taken p cs l ∨ ((c.accept? p).isSome ∧ c.line = l) := by
  simp only [Taken, List.mem_append, List.mem_singleton]
  constructor
  · rintro ⟨c', hc' | rfl, h⟩
    · exact Or.inl ⟨c', hc', h⟩
    · exact Or.inr h
  · rintro (⟨c', hc', h⟩ | h)
    · exact ⟨c', Or.inl hc', h⟩
    · exact ⟨c, Or.inr rfl, h⟩

/-- The lines selected are those of acceptable candidates, except the seen ones. -/
theorem mem_selected_lines (p : Profile) (seen : List Nat) (cs : List Candidate) (l : Nat) :
    l ∈ (selected p seen cs).map (·.1.line) ↔ l ∉ seen ∧ Taken p cs l := by
  induction cs generalizing seen with
  | nil => simp [selected, Taken]
  | cons c cs ih =>
    -- the first candidate is passed over, or selected on a line not seen before
    rcases selected_cons p seen c cs with ⟨heq, hpass⟩ | ⟨kind, hkind, hnew, heq⟩
    · rw [heq, ih]
      constructor
      · rintro ⟨hl, c', hc', h⟩
        exact ⟨hl, c', List.mem_cons_of_mem c hc', h⟩
      · rintro ⟨hl, c', hc', hsome, rfl⟩
        rcases List.mem_cons.mp hc' with rfl | hc'
        · exact absurd (hpass hsome) hl
        · exact ⟨hl, c', hc', hsome, rfl⟩
    · rw [heq, List.map_cons, List.mem_cons, ih]
      constructor
      · rintro (rfl | ⟨hl, c', hc', h⟩)
        · exact ⟨hnew, c, List.mem_cons_self, by simp [hkind], rfl⟩
        · exact ⟨fun h' => hl (List.mem_cons_of_mem _ h'), c', List.mem_cons_of_mem c hc', h⟩
      · rintro ⟨hl, c', hc', hsome, rfl⟩
        by_cases hline : c'.line = c.line
        · exact Or.inl hline
        · rcases List.mem_cons.mp hc' with rfl | hc'
          · exact absurd rfl hline
          · exact Or.inr ⟨by simp [hline, hl], c', hc', hsome, rfl⟩

/-- Position `i` holds the first acceptable candidate of its line, with its kind. -/
def FirstOfLine (p : Profile) (cs : List Candidate) (i : Nat) (x : Candidate × Kind) : Prop :=
  cs[i]? = some x.1 ∧ x.1.accept? p = some x.2 ∧
    ∀ j < i, ∀ c, cs[j]? = some c → (c.accept? p).isSome → c.line ≠ x.1.line

/-- The loop invariant: when the lines seen are those taken by the candidates passed so far,
what is selected from the rest stands at increasing positions, each the first of its line. -/
theorem selected_positions (p : Profile) (passed cs : List Candidate) (seen : List Nat)
    (hseen : ∀ l, l ∈ seen ↔ Taken p passed l) :
    ∃ is : List Nat, is.Pairwise (· < ·) ∧ (∀ i ∈ is, passed.length ≤ i) ∧
      List.Forall₂ (FirstOfLine p (passed ++ cs)) is (selected p seen cs) := by
  induction cs generalizing passed seen with
  | nil => exact ⟨[], List.Pairwise.nil, by simp, List.Forall₂.nil⟩
  | cons c cs ih =>
    have happend : passed ++ c :: cs = (passed ++ [c]) ++ cs := by simp
    have hlength : (passed ++ [c]).length = passed.length+1 := List.length_append
    rcases selected_cons p seen c cs with ⟨heq, hpass⟩ | ⟨kind, hkind, hnew, heq⟩
    · -- `c` is passed over, so it takes no line that was not taken
      have hnext : ∀ l, l ∈ seen ↔ Taken p (passed ++ [c]) l := by
        intro l
        rw [taken_concat, hseen, or_iff_left_of_imp]
        rintro ⟨hsome, rfl⟩
        exact (hseen _).mp (hpass hsome)
      obtain ⟨is, hlt, hle, hall⟩ := ih (passed ++ [c]) seen hnext
      rw [happend, heq]
      refine ⟨is, hlt, fun i hi => ?_, hall⟩
      have := hle i hi
      omega
    · -- `c` is selected at the position right after those passed
      have hnext : ∀ l, l ∈ c.line :: seen ↔ Taken p (passed ++ [c]) l := by
        intro l
        rw [taken_concat, List.mem_cons, hseen, hkind, or_comm]
        simp [eq_comm]
      obtain ⟨is, hlt, hle, hall⟩ := ih (passed ++ [c]) (c.line :: seen) hnext
      rw [heq]
      refine ⟨passed.length :: is, List.pairwise_cons.mpr ⟨fun i hi => ?_, hlt⟩, ?_, ?_⟩
      · have := hle i hi
        omega
      · intro i hi
        rcases List.mem_cons.mp hi with rfl | hi
        · exact Nat.le_refl _
        · have := hle i hi
          omega
      · refine List.Forall₂.cons ⟨by simp, hkind, ?_⟩ (happend ▸ hall)
        -- an earlier candidate on this line would have taken it
        intro j hj c' hc' hsome hline
        rw [List.getElem?_append_left hj] at hc'
        exact hnew ((hseen _).mpr ⟨c', List.mem_of_getElem? hc', hsome, hline⟩)

end Synopsis
