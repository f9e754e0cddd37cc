import Synopsis.Proofs.LineOwner
import Synopsis.Proofs.SitedTree

/-! The declaration of a signature is the place that its match captures as one. The text, the lines
and the documentation of the signature are read off that place, and where the query is lawful the
place lies in the tree. -/
open Synopsis.Tree

namespace Synopsis

section Declared
variable (c : Compiled) (tag : String) (s : Source) (root : Node) (o : Options)

theorem extract_of_tree (source : String) (hroot : c.profile.parser.tree source = .ok root) :
    c.extract tag source o = .ok (c.extractFrom tag (.ofString source) root o) := by
  rw [Compiled.extract, hroot]

/-- The signature was read from a match that captures the place as its declaration. -/
def DeclaredAt (g : Signature) (d : Place) : Prop :=
  ∃ m ∈ c.query.matchesIn s root, ∃ kind,
    g = (Candidate.ofMatch c.profile s m).signature c.profile s tag o kind ∧
    placeIn c.profile m.captures "signature" = some d

theorem mem_selected (p : Profile) (seen : List Nat) (cs : List Candidate)
    (x : Candidate × Kind) (hx : x ∈ selected p seen cs) :
    x.1 ∈ cs ∧ x.1.accept? p = some x.2 := by
  induction cs generalizing seen with
  | nil => simp [selected] at hx
  | cons c cs ih =>
    -- whether the first candidate is passed over or taken, the others come from the rest
    have hlater (seen : List Nat) (hx : x ∈ selected p seen cs) :
        x.1 ∈ c :: cs ∧ x.1.accept? p = some x.2 := by
      obtain ⟨hmem, hkind⟩ := ih seen hx
      exact ⟨List.mem_cons_of_mem c hmem, hkind⟩
    rcases selected_cons p seen c cs with ⟨heq, _⟩ | ⟨kind, hkind, _, heq⟩
    · exact hlater seen (heq ▸ hx)
    · rcases List.mem_cons.mp (heq ▸ hx) with rfl | hx
      · exact ⟨List.mem_cons_self, hkind⟩
      · exact hlater _ hx

theorem exists_declaredAt (g : Signature) (hg : g ∈ (c.extractFrom tag s root o).signatures) :
    ∃ d, DeclaredAt c tag s root o g d := by
  have hg : g ∈ signaturesOf c.profile s tag o []
      ((c.query.matchesIn s root).map (Candidate.ofMatch c.profile s)) := hg
  rw [signaturesOf_eq_selected] at hg
  obtain ⟨⟨candidate, kind⟩, hx, rfl⟩ := List.mem_map.mp hg
  obtain ⟨hmem, hkind⟩ := mem_selected _ _ _ _ (List.mem_filter.mp hx).1
  obtain ⟨m, hm, rfl⟩ := List.mem_map.mp hmem
  have hworded := ((accept?_ofMatch _ _ m kind).mp hkind).worded
  unfold textOf at hworded
  cases hplace : placeIn c.profile m.captures "signature" with
  | none => simp [hplace] at hworded
  | some d => exact ⟨d, m, hm, kind, rfl, hplace⟩

variable {c tag s root o} {g : Signature} {d : Place}

/-- A declaration is captured as one. -/
theorem DeclaredAt.captured (h : DeclaredAt c tag s root o g d) :
    ∃ m ∈ c.query.matchesIn s root, ("signature", d) ∈ m.captures := by
  obtain ⟨m, hm, _, _, hplace⟩ := h
  unfold placeIn at hplace
  split_ifs at hplace
  obtain ⟨⟨role, place⟩, hx, rfl⟩ := Option.map_eq_some_iff.mp hplace
  obtain rfl : role = "signature" := by simpa using List.find?_some hx
  exact ⟨m, hm, List.mem_reverse.mp (List.mem_of_find?_eq_some hx)⟩

theorem DeclaredAt.inTree (h : DeclaredAt c tag s root o g d) (hquery : c.query.Lawful) :
    d.In root := by
  obtain ⟨m, hm, hx⟩ := h.captured
  exact hquery.places s root m hm _ hx

/-! ### What the signature says -/

/-- Without a capture for it, a candidate has no documentation of its own. -/
theorem doc_ofMatch (p : Profile) (s : Source) (m : Match)
    (h : ∀ x ∈ m.captures, x.1 ≠ "doc") : (Candidate.ofMatch p s m).doc = none := by
  unfold Candidate.ofMatch
  refine List.foldlRecOn (motive := fun c : Candidate => c.doc = none) m.captures _ rfl ?_
  intro c hc x hx
  have hrole := h x hx
  obtain ⟨role, place⟩ := x
  unfold Candidate.add
  dsimp only at hrole ⊢
  split_ifs
  · exact hc
  · split <;> first | exact hc | exact absurd rfl hrole

/-- If the query captures nothing as documentation, that of a signature is that of the place where
it is declared. -/
theorem DeclaredAt.doc_eq (h : DeclaredAt c tag s root o g d) (hquery : c.query.Lawful)
    (hdocs : "doc" ∉ c.query.captureNames) : g.doc = d.doc s := by
  obtain ⟨m, hm, kind, rfl, hplace⟩ := h
  have hnone : ∀ x ∈ m.captures, x.1 ≠ "doc" := by
    intro x hx hdoc
    exact hdocs (hdoc ▸ hquery.names s root m hm x hx)
  simp [Candidate.signature, doc_ofMatch _ _ m hnone, (reads_ofMatch c.profile s m).decl, hplace]

/-- What a signature with its body takes from the node where it is declared. -/
structure Spans (s : Source) (g : Signature) (n : Node) : Prop where
  text : g.text.toList = Text.trim (n.text s).toList
  line : g.line = n.row + 1
  endLine : g.endLine = n.endRow + 1

theorem DeclaredAt.spans (h : DeclaredAt c tag s root o g d) (ho : o.includeBody = true) :
    Spans s g d.node := by
  obtain ⟨m, _, kind, rfl, hplace⟩ := h
  have hreads := reads_ofMatch c.profile s m
  refine ⟨?_, ?_, ?_⟩
  · simp [Candidate.signature, ho, hreads.text, hplace, Text.trimmed]
  · simp [Candidate.signature, hreads.line, hplace]
  · simp [Candidate.signature, hreads.endLine, hplace]

end Declared

end Synopsis
