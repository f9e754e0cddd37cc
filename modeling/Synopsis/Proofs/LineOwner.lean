import Mathlib.Data.List.Induction
import Synopsis.Proofs.Selection

/-! Every line on which an acceptable match starts gives one signature, that of the first such
match, and no other line gives any. -/
open Synopsis.Tree

namespace Synopsis

/-- The last place captured under a role, if the language gives the role a meaning. -/
def placeIn (p : Profile) (caps : Captures) (role : String) : Option Place :=
  if p.roles.contains role then (caps.reverse.find? (·.1 == role)).map (·.2) else none

theorem placeIn_concat (p : Profile) (caps : Captures) (role role' : String) (place : Place) :
    placeIn p (caps ++ [(role', place)]) role =
      if role' ∈ p.roles ∧ role' = role then some place else placeIn p caps role := by
  by_cases heq : role' = role
  · subst heq
    by_cases hrole : role' ∈ p.roles <;> simp [placeIn, hrole]
  · simp [placeIn, heq]

/-- The name a match gives. -/
def nameOf (p : Profile) (s : Source) (m : Match) : String :=
  ((placeIn p m.captures "name").map (·.node.text s)).getD ""

/-- The trimmed text of the declaration a match gives. -/
def textOf (p : Profile) (s : Source) (m : Match) : String :=
  ((placeIn p m.captures "signature").map fun q => Text.trimmed (q.node.text s)).getD ""

/-- The line on which the declaration of a match starts, counted from 1. -/
def lineOf (p : Profile) (m : Match) : Nat :=
  ((placeIn p m.captures "signature").map (·.node.row+1)).getD 0

/-- The node that decides the kind: the one captured for it, else the declaration. -/
def decider (p : Profile) (m : Match) : Option Node :=
  ((placeIn p m.captures "kind").or (placeIn p m.captures "signature")).map (·.node)

/-- A match with a deciding node, a kind that the language keeps, a name and a text. -/
structure Acceptable (p : Profile) (s : Source) (m : Match) (kind : Kind) : Prop where
  kept : ∃ n, decider p m = some n ∧
    p.reclassify n.kind (p.kindOf n.kind) (textOf p s m) = some kind
  named : nameOf p s m ≠ ""
  worded : textOf p s m ≠ ""

/-- A candidate holds what the last captures of each role say. -/
structure Reads (p : Profile) (s : Source) (caps : Captures) (c : Candidate) : Prop where
  name : c.name = ((placeIn p caps "name").map (·.node.text s)).getD ""
  text : c.text =
    ((placeIn p caps "signature").map fun q => Text.trimmed (q.node.text s)).getD ""
  line : c.line = ((placeIn p caps "signature").map (·.node.row+1)).getD 0
  endLine : c.endLine = ((placeIn p caps "signature").map (·.node.endRow+1)).getD 0
  decl : c.decl = placeIn p caps "signature"
  kindNode : c.kindNode = (placeIn p caps "kind").map (·.node)

theorem reads_add (p : Profile) (s : Source) (caps : Captures) (c : Candidate)
    (x : String × Place) (h : Reads p s caps c) : Reads p s (caps ++ [x]) (c.add p s x) := by
  obtain ⟨role, place⟩ := x
  obtain ⟨hname, htext, hline, hend, hdecl, hkind⟩ := h
  unfold Candidate.add
  by_cases hrole : role ∈ p.roles
  · simp only [List.contains_eq_mem, hrole, decide_true, Bool.not_true, Bool.false_eq_true,
      ↓reduceIte]
    split
    · constructor <;> simp [placeIn_concat, hrole, htext, hline, hend, hdecl, hkind]
    · constructor <;> simp [placeIn_concat, hrole, hname, hkind]
    · constructor <;> simp [placeIn_concat, hname, htext, hline, hend, hdecl, hkind]
    · constructor <;> simp [placeIn_concat, hrole, hname, htext, hline, hend, hdecl]
    next hn hs _ hk =>
      have hn : role ≠ "name" := hn
      have hs : role ≠ "signature" := hs
      have hk : role ≠ "kind" := hk
      constructor <;> simp [placeIn_concat, hn, hs, hk, hname, htext, hline, hend, hdecl, hkind]
  · constructor <;> simp [placeIn_concat, hrole, hname, htext, hline, hend, hdecl, hkind]

theorem reads_ofMatch (p : Profile) (s : Source) (m : Match) :
    Reads p s m.captures (Candidate.ofMatch p s m) := by
  unfold Candidate.ofMatch
  induction m.captures using List.reverseRecOn with
  | nil => constructor <;> simp [placeIn]
  -- a later capture overrides an earlier one, so the induction adds at the end
  | append_singleton caps x ih =>
    rw [List.foldl_append]
    exact reads_add p s caps _ x ih

theorem line_ofMatch (p : Profile) (s : Source) (m : Match) :
    (Candidate.ofMatch p s m).line = lineOf p m := (reads_ofMatch p s m).line

theorem nodeKind?_ofMatch (p : Profile) (s : Source) (m : Match) :
    (Candidate.ofMatch p s m).nodeKind? = (decider p m).map (·.kind) := by
  have h := reads_ofMatch p s m
  unfold Candidate.nodeKind? decider
  rw [h.kindNode, h.decl]
  cases placeIn p m.captures "kind" with
  | none => simp [Function.comp_def]
  | some place => simp

theorem accept?_ofMatch (p : Profile) (s : Source) (m : Match) (kind : Kind) :
    (Candidate.ofMatch p s m).accept? p = some kind ↔ Acceptable p s m kind := by
  have h := reads_ofMatch p s m
  have hname : (Candidate.ofMatch p s m).name = nameOf p s m := h.name
  have htext : (Candidate.ofMatch p s m).text = textOf p s m := h.text
  unfold Candidate.accept?
  rw [nodeKind?_ofMatch, hname, htext]
  cases hdecider : decider p m with
  | none =>
    constructor
    · intro hnone
      cases hnone
    · rintro ⟨⟨n, hn, _⟩, _, _⟩
      rw [hdecider] at hn
      cases hn
  | some n =>
    -- the kind comes from the node, and then both texts are looked at
    change (p.reclassify n.kind (p.kindOf n.kind) (textOf p s m)).bind (fun k =>
      if (nameOf p s m).isEmpty || (textOf p s m).isEmpty then none else some k) = some kind ↔ _
    rw [Option.bind_eq_some_iff]
    constructor
    · rintro ⟨k, hk, hif⟩
      split_ifs at hif with hempty
      cases hif
      obtain ⟨hn, ht⟩ : nameOf p s m ≠ "" ∧ textOf p s m ≠ "" := by simpa using hempty
      exact ⟨⟨n, hdecider, hk⟩, hn, ht⟩
    · rintro ⟨⟨n', hn', hk⟩, hn, ht⟩
      obtain rfl : n = n' := Option.some.inj (hdecider.symm.trans hn')
      exact ⟨kind, hk, by simp [hn, ht]⟩

/-- An acceptable match has a declaration, so its line counts from 1. -/
theorem lineOf_pos (p : Profile) (s : Source) (m : Match) (kind : Kind)
    (h : Acceptable p s m kind) : 1 ≤ lineOf p m := by
  have ht := h.worded
  unfold textOf at ht
  unfold lineOf
  cases hplace : placeIn p m.captures "signature" with
  | none => simp [hplace] at ht
  | some place => simp

theorem isSome_accept?_ofMatch (p : Profile) (s : Source) (m : Match) :
    ((Candidate.ofMatch p s m).accept? p).isSome ↔ ∃ kind, Acceptable p s m kind := by
  rw [Option.isSome_iff_exists]
  exact exists_congr fun kind => accept?_ofMatch p s m kind

/-- The first acceptable candidate of a line comes from the first acceptable match. -/
theorem match_of_firstOfLine (p : Profile) (s : Source) (ms : List Match) (i : Nat)
    (x : Candidate × Kind) (h : FirstOfLine p (ms.map (Candidate.ofMatch p s)) i x) :
    ∃ m, ms[i]? = some m ∧ x.1 = Candidate.ofMatch p s m ∧ Acceptable p s m x.2 ∧
      ∀ j < i, ∀ m', ms[j]? = some m' → (∃ kind', Acceptable p s m' kind') →
        lineOf p m' ≠ lineOf p m := by
  obtain ⟨c, kind⟩ := x
  obtain ⟨hi, hkind, hfirst⟩ := h
  rw [List.getElem?_map] at hi
  obtain ⟨m, hm, rfl⟩ := Option.map_eq_some_iff.mp hi
  refine ⟨m, hm, rfl, (accept?_ofMatch p s m kind).mp hkind, ?_⟩
  intro j hj m' hm' hacc hline
  apply hfirst j hj (Candidate.ofMatch p s m')
  · rw [List.getElem?_map, hm', Option.map_some]
  · exact (isSome_accept?_ofMatch p s m').mpr hacc
  · rw [line_ofMatch, line_ofMatch, hline]

/-- The lines of the signatures are those on which acceptable matches start. -/
theorem mem_signature_lines (p : Profile) (s : Source) (tag : String) (o : Options)
    (ho : o.includePrivate = true) (ms : List Match) (l : Nat) :
    l ∈ (signaturesOf p s tag o [] (ms.map (Candidate.ofMatch p s))).map (·.line) ↔
      ∃ m ∈ ms, (∃ kind, Acceptable p s m kind) ∧ lineOf p m = l := by
  rw [lines_signaturesOf_all p s tag o ho, mem_selected_lines]
  simp only [List.not_mem_nil, not_false_eq_true, true_and, Taken, List.mem_map,
    exists_exists_and_eq_and, isSome_accept?_ofMatch, line_ofMatch]

/-- The signature `g` is that of match `i`, which is the first acceptable one of its line. -/
def FromFirstMatch (p : Profile) (s : Source) (tag : String) (o : Options) (ms : List Match)
    (i : Nat) (g : Signature) : Prop :=
  ∃ m kind, ms[i]? = some m ∧ Acceptable p s m kind ∧
    g = (Candidate.ofMatch p s m).signature p s tag o kind ∧ g.line = lineOf p m ∧
    ∀ j < i, ∀ m', ms[j]? = some m' → (∃ kind', Acceptable p s m' kind') →
      lineOf p m' ≠ g.line

theorem signatures_from_first (p : Profile) (s : Source) (tag : String) (o : Options)
    (ho : o.includePrivate = true) (ms : List Match) :
    ∃ is : List Nat, is.Pairwise (· < ·) ∧ List.Forall₂ (FromFirstMatch p s tag o ms) is
      (signaturesOf p s tag o [] (ms.map (Candidate.ofMatch p s))) := by
  obtain ⟨is, hlt, _, hall⟩ := selected_positions p [] (ms.map (Candidate.ofMatch p s)) []
    (by simp [Taken])
  refine ⟨is, hlt, ?_⟩
  rw [signaturesOf_all p s tag o ho, List.forall₂_map_right_iff]
  refine hall.imp ?_
  intro i x hx
  obtain ⟨m, hm, hc, hacc, hfirst⟩ := match_of_firstOfLine p s ms i x hx
  have hline : x.1.line = lineOf p m := by rw [hc, line_ofMatch]
  refine ⟨m, x.2, hm, hacc, by rw [hc], hline, ?_⟩
  intro j hj m' hm' hacc' hsame
  exact hfirst j hj m' hm' hacc' (hsame.trans hline)

/-- With private declarations shown, whatever the matches: no two signatures share a line,
lines count from 1, the lines are those on which acceptable matches start, and the signatures
come in the order of the matches, each from the first acceptable one of its line. -/
theorem one_signature_per_line (p : Profile) (s : Source) (tag : String) (o : Options)
    (ms : List Match) :
    let all : Options := { o with includePrivate := true }
    let out := signaturesOf p s tag all [] (ms.map (Candidate.ofMatch p s))
    (out.map (·.line)).Nodup ∧ (∀ g ∈ out, 1 ≤ g.line) ∧
    (∀ l, l ∈ out.map (·.line) ↔ ∃ m ∈ ms, (∃ kind, Acceptable p s m kind) ∧ lineOf p m = l) ∧
    ∃ is : List Nat, is.Pairwise (· < ·) ∧
      List.Forall₂ (FromFirstMatch p s tag all ms) is out := by
  intro all out
  have hmem := mem_signature_lines p s tag all rfl ms
  refine ⟨?_, ?_, hmem, signatures_from_first p s tag all rfl ms⟩
  · change ((signaturesOf p s tag all [] _).map (·.line)).Nodup
    rw [lines_signaturesOf_all p s tag all rfl]
    exact selected_lines_nodup p [] _
  · intro g hg
    obtain ⟨m, _, ⟨kind, hkind⟩, hline⟩ := (hmem g.line).mp (List.mem_map_of_mem hg)
    rw [← hline]
    exact lineOf_pos p s m kind hkind

end Synopsis
