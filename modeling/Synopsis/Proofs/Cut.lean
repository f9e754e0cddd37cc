import Synopsis.Proofs.BodyBrace

/-! Cuts of a trimmed text. Every offset that a finder gives lies at a token of the scan, so
the cut splits no character, and what it leaves is a trimmed beginning of the text. -/
namespace Synopsis.Body
open Delimiter Text

/-- An offset between two characters of a text. -/
def Boundary (t : List Char) (i : Nat) : Prop :=
  ∃ head tail, t = head ++ tail ∧ i = byteLength head

theorem boundary_of_event (s : Settings) (t : List Char) (e : Event) (he : e ∈ scan s t) :
    Boundary t e.pos := by
  obtain ⟨head, tail, ht, hpos⟩ := split_at_event s t e he
  exact ⟨head, _, ht, hpos⟩

theorem boundary_of_braceOf (angles afterParams : Bool) (t : List Char) (i : Nat)
    (h : braceOf angles afterParams t = some i) : Boundary t i :=
  boundary_of_event { angles } t _ (candidate_of_braceOf angles afterParams t i h).1.opens

theorem boundary_of_brace? (angles afterParams : Bool) (t : List Char) (i : Nat)
    (h : brace? angles afterParams t = some i) : Boundary t i := by
  unfold brace? at h
  split at h
  next j hj =>
    cases h
    exact boundary_of_braceOf angles afterParams t _ hj
  next =>
    -- no brace was found with angles counted: the scan without them decides
    split_ifs at h
    exact boundary_of_braceOf false afterParams t i h

theorem boundary_of_firstTop? (s : Settings) (token : Token) (t : List Char) (i : Nat)
    (h : firstTop? token (scan s t) = some i) : Boundary t i := by
  obtain ⟨e, he, rfl⟩ := Option.map_eq_some_iff.mp h
  exact boundary_of_event s t e (List.mem_of_find?_eq_some he)

theorem boundary_of_arrow? (t : List Char) (i : Nat) (h : arrow? t = some i) :
    Boundary t i := by
  rcases Option.or_eq_some_iff.mp h with h | ⟨_, h⟩
  · exact boundary_of_firstTop? _ _ t i h
  · exact boundary_of_firstTop? _ _ t i h

theorem boundary_of_colon? (t : List Char) (i : Nat) (h : colon? t = some i) :
    Boundary t i := boundary_of_firstTop? _ _ t i h

/-- A cut that leaves something leaves the head without trailing blanks. -/
theorem cutAt?_head (head tail : List Char) (ht : trim (head ++ tail) = head ++ tail)
    (hhead : trimEnd head ≠ []) :
    cutAt? (head ++ tail) (some (byteLength head)) = some (trimEnd head) := by
  have hpos : byteLength head ≠ 0 := by
    cases head with
    | nil => exact absurd rfl hhead
    | cons c head =>
      have hc := Char.utf8Size_pos c
      simp only [byteLength]
      omega
  have hle : ¬ byteLength (head ++ tail) < byteLength head := by
    rw [byteLength_append]
    omega
  simp [cutAt?, ht, hpos, hle, takeBytes?_byteLength, hhead]

/-- A finder that points behind a head leaves the head without trailing blanks. -/
theorem stripAt?_head (finder : List Char → Option Nat) (cs head tail : List Char)
    (htrim : trim cs = head ++ tail) (hcut : finder (head ++ tail) = some (byteLength head))
    (hhead : trimEnd head ≠ []) : stripAt? finder cs = some (trimEnd head) := by
  have ht : trim (head ++ tail) = head ++ tail := by rw [← htrim, trim_trim]
  rw [stripAt?, htrim, hcut]
  exact cutAt?_head head tail ht hhead

/-- What may be left of a trimmed text `t`: a trimmed beginning, empty only if `t` is. -/
structure Stripped (t r : List Char) : Prop where
  isPrefix : r <+: t
  trimmed : trim r = r
  nonempty : r = [] → t = []

theorem stripped_self (cs : List Char) : Stripped (trim cs) (trim cs) :=
  ⟨List.prefix_rfl, trim_trim cs, id⟩

theorem stripped_head (head tail : List Char) (ht : trim (head ++ tail) = head ++ tail)
    (hhead : trimEnd head ≠ []) : Stripped (head ++ tail) (trimEnd head) := by
  have hbegin : trimEnd head <+: head ++ tail :=
    (trimEnd_isPrefix head).trans (List.prefix_append head tail)
  have hstart : trimStart (head ++ tail) = head ++ tail := by
    have h := trimStart_trim (head ++ tail)
    rwa [ht] at h
  refine ⟨hbegin, ?_, fun h => absurd h hhead⟩
  rw [trim, trimStart_of_isPrefix _ _ hbegin hstart, trimEnd_trimEnd]

/-- A cut between two characters never fails and leaves a trimmed beginning. -/
theorem cutAt?_stripped (t : List Char) (cut : Option Nat) (ht : trim t = t)
    (hcut : ∀ i, cut = some i → Boundary t i) :
    ∃ r, cutAt? t cut = some r ∧ Stripped t r := by
  have hself : Stripped t t := by
    have h := stripped_self t
    rwa [ht] at h
  cases cut with
  | none => exact ⟨t, by simp [cutAt?, ht], hself⟩
  | some i =>
    obtain ⟨head, tail, rfl, rfl⟩ := hcut i rfl
    by_cases hhead : trimEnd head = []
    · -- a cut that would leave only blanks is not made
      refine ⟨head ++ tail, ?_, hself⟩
      simp only [cutAt?, ht, takeBytes?_byteLength, Option.map_some, hhead, List.isEmpty_nil,
        ↓reduceIte, ite_self]
    · exact ⟨trimEnd head, cutAt?_head head tail ht hhead, stripped_head head tail ht hhead⟩

theorem stripAt?_stripped (finder : List Char → Option Nat) (cs : List Char)
    (h : ∀ i, finder (trim cs) = some i → Boundary (trim cs) i) :
    ∃ r, stripAt? finder cs = some r ∧ Stripped (trim cs) r :=
  cutAt?_stripped (trim cs) _ (trim_trim cs) h

end Synopsis.Body
