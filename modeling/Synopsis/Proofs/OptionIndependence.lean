import Synopsis.Builtin
import Synopsis.Extract
import Synopsis.Proofs.Registered
import Synopsis.Proofs.Selection

/-! Each extraction option acts on its own: one filters signatures, one changes their text, one
their flags, and one nothing about them. -/
open Synopsis.Tree

namespace Synopsis

/-- A language that says nothing about reclassification, visibility, bodies and imports. -/
structure Profile.DefaultHooks (p : Profile) : Prop where
  reclassify : p.reclassify = fun _ kind _ => some kind
  isExported : p.isExported = fun name _ _ => !name.isEmpty
  stripBody : p.stripBody = fun _ cs => some (Text.trim cs)
  normalizeImport : p.normalizeImport = ImportPath.clean

/-- Every language is a built-in one or has the default hooks. -/
def Registry.Standard (r : Registry) : Prop :=
  ∀ x ∈ r.entries, (∃ (P : Parsers) (tag : String), (tag, x.2.profile) ∈ P.builtins) ∨
    x.2.profile.DefaultHooks

/-- Visibility depends on one option only, and the looser mode loses nothing. -/
structure Profile.ModalVisibility (p : Profile) : Prop where
  mode_only : ∀ name text (o o' : Options), o.goVisibility = o'.goVisibility →
    p.isExported name text o = p.isExported name text o'
  looser : ∀ name text (o : Options),
    p.isExported name text { o with goVisibility := .capitalized } = true →
    p.isExported name text { o with goVisibility := .packageLevel } = true

theorem modalVisibility_of_const (p : Profile) (f : String → String → Bool)
    (h : p.isExported = fun name text _ => f name text) : p.ModalVisibility := by
  constructor
  · intro name text o o' _
    rw [h]
  · intro name text o ho
    rw [h] at ho ⊢
    exact ho

theorem modalVisibility_go (parser : Parser) : (Profile.go parser).ModalVisibility := by
  constructor
  · intro name text o o' hmode
    change Visibility.goExported name o.goVisibility = Visibility.goExported name o'.goVisibility
    rw [hmode]
  · intro name text o ho
    change name.toList.head?.any Char.isUpper = true at ho
    change (!name.isEmpty) = true
    have hne : name ≠ "" := by
      rintro rfl
      simp at ho
    simpa using hne

theorem modalVisibility_of_builtin (P : Parsers) (tag : String) (p : Profile)
    (hp : (tag, p) ∈ P.builtins) : p.ModalVisibility := by
  have hnamed (q : Profile) (h : q.isExported = fun name _ _ => !name.isEmpty) :
      q.ModalVisibility := modalVisibility_of_const q (fun name _ => !name.isEmpty) h
  have hjava (parser : Parser) : (Profile.java parser).ModalVisibility := modalVisibility_of_const _
    (fun name text => !name.isEmpty && !Visibility.javaPrivate text) rfl
  exact builtin_cases P Profile.ModalVisibility modalVisibility_go (fun _ => hnamed _ rfl)
    (fun _ => hnamed _ rfl) (fun _ => hnamed _ rfl) (fun _ => hnamed _ rfl) hjava tag p hp

theorem modalVisibility_of_standard (r : Registry) (hr : r.Standard) (tag : String)
    (c : Compiled) (hc : r.get? tag = some c) : c.profile.ModalVisibility := by
  obtain ⟨before, after, hentries, _⟩ := List.lookup_eq_some_iff.mp hc
  have hmem : (tag, c) ∈ r.entries := by simp [hentries]
  rcases hr _ hmem with ⟨P, tag', hbuiltin⟩ | hdefault
  · exact modalVisibility_of_builtin P tag' _ hbuiltin
  · exact modalVisibility_of_const _ (fun name _ => !name.isEmpty) hdefault.isExported

section Runs
variable (p : Profile) (s : Source) (tag : String) (seen : List Nat) (cs : List Candidate)

/-- Hiding private declarations filters the signatures by their flag. -/
theorem signaturesOf_public (hp : p.ModalVisibility) (o : Options) :
    signaturesOf p s tag { o with includePrivate := false } seen cs =
      (signaturesOf p s tag { o with includePrivate := true } seen cs).filter (·.exported) := by
  have hsig (x : Candidate × Kind) :
      x.1.signature p s tag { o with includePrivate := false } x.2 =
        x.1.signature p s tag { o with includePrivate := true } x.2 := by
    simp only [Candidate.signature, Signature.mk.injEq, true_and]
    exact hp.mode_only _ _ _ _ rfl
  have hshown (x : Candidate × Kind) : shown p { o with includePrivate := false } x =
      (x.1.signature p s tag { o with includePrivate := true } x.2).exported := by
    simp only [shown, Candidate.signature, Bool.false_or]
    exact hp.mode_only _ _ _ _ rfl
  rw [signaturesOf_all p s tag { o with includePrivate := true } rfl,
    signaturesOf_eq_selected, List.filter_map, List.map_congr_left fun x _ => hsig x]
  exact congrArg _ (List.filter_congr fun x _ => hshown x)

/-- Leaving bodies out changes the texts only. -/
theorem signaturesOf_stripped (hp : p.ModalVisibility) (o : Options) :
    signaturesOf p s tag { o with includeBody := false } seen cs =
      (signaturesOf p s tag { o with includeBody := true } seen cs).map
        fun g => { g with text := p.strip g.kind g.text } := by
  have hshown (x : Candidate × Kind) : shown p { o with includeBody := false } x =
      shown p { o with includeBody := true } x := by
    simp only [shown]
    rw [hp.mode_only _ _ { o with includeBody := false } { o with includeBody := true } rfl]
  rw [signaturesOf_eq_selected, signaturesOf_eq_selected, List.map_map,
    List.filter_congr fun x _ => hshown x]
  refine List.map_congr_left fun x _ => ?_
  simp only [Candidate.signature, Function.comp_apply, Signature.mk.injEq, true_and,
    Bool.false_eq_true, ↓reduceIte]
  exact hp.mode_only _ _ _ _ rfl

/-- With private declarations shown, the visibility mode changes flags only. -/
theorem signaturesOf_mode (o : Options) (v : GoVisibility) :
    (signaturesOf p s tag { o with includePrivate := true, goVisibility := v } seen cs).map
        (fun g => { g with exported := false }) =
      (signaturesOf p s tag { o with includePrivate := true } seen cs).map
        fun g => { g with exported := false } := by
  rw [signaturesOf_all p s tag _ rfl, signaturesOf_all p s tag _ rfl,
    List.map_map, List.map_map]
  rfl

/-- The stricter visibility mode shows some of what the looser one shows, in order. -/
theorem signaturesOf_sublist (hp : p.ModalVisibility) (o : Options) :
    (signaturesOf p s tag { o with includePrivate := false, goVisibility := .capitalized }
      seen cs).Sublist
      (signaturesOf p s tag { o with includePrivate := false, goVisibility := .packageLevel }
        seen cs) := by
  have hlooser (x : Candidate × Kind)
      (hx : shown p { o with includePrivate := false, goVisibility := .capitalized } x = true) :
      shown p { o with includePrivate := false, goVisibility := .packageLevel } x = true :=
    hp.looser _ _ { o with includePrivate := false } hx
  rw [signaturesOf_eq_selected, signaturesOf_eq_selected]
  -- what the stricter mode shows has the flag in both modes
  have hsame : ∀ x ∈ (selected p seen cs).filter
      (shown p { o with includePrivate := false, goVisibility := .capitalized }),
      x.1.signature p s tag { o with includePrivate := false, goVisibility := .capitalized } x.2 =
        x.1.signature p s tag
          { o with includePrivate := false, goVisibility := .packageLevel } x.2 := by
    intro x hx
    have hstrict := (List.mem_filter.mp hx).2
    simp only [Candidate.signature, Signature.mk.injEq, true_and]
    exact hstrict.trans (hlooser x hstrict).symm
  rw [List.map_congr_left hsame]
  exact (List.monotone_filter_right _ hlooser).map _

/-- Asking for imports changes no signature. -/
theorem signaturesOf_imports (hp : p.ModalVisibility) (o : Options) (b : Bool) :
    signaturesOf p s tag { o with includeImports := b } seen cs =
      signaturesOf p s tag o seen cs := by
  have hmode (x : Candidate × Kind) :
      p.isExported x.1.name x.1.text { o with includeImports := b } =
        p.isExported x.1.name x.1.text o := hp.mode_only _ _ _ _ rfl
  have hshown (x : Candidate × Kind) : shown p { o with includeImports := b } x = shown p o x := by
    simp only [shown, hmode]
  rw [signaturesOf_eq_selected, signaturesOf_eq_selected, List.filter_congr fun x _ => hshown x]
  refine List.map_congr_left fun x _ => ?_
  simp only [Candidate.signature, hmode]

end Runs

/-- How the answers `sigs` to all choices of options hang together for a language. -/
structure OptionsIndependent (p : Profile) (sigs : Options → List Signature) : Prop where
  /-- Hiding private declarations keeps the exported signatures, in order. -/
  filtered (o : Options) : sigs { o with includePrivate := false } =
    (sigs { o with includePrivate := true }).filter (·.exported)
  /-- Leaving bodies out replaces each text by the stripped one. -/
  stripped (o : Options) : sigs { o with includeBody := false } =
    (sigs { o with includeBody := true }).map fun g => { g with text := p.strip g.kind g.text }
  /-- With private declarations shown, the visibility mode changes exported flags only. -/
  flagged (o : Options) (v : GoVisibility) :
    (sigs { o with includePrivate := true, goVisibility := v }).map
        (fun g => { g with exported := false }) =
      (sigs { o with includePrivate := true }).map fun g => { g with exported := false }
  /-- Without them, the stricter mode gives a part of what the looser one gives. -/
  narrowed (o : Options) :
    (sigs { o with includePrivate := false, goVisibility := .capitalized }).Sublist
      (sigs { o with includePrivate := false, goVisibility := .packageLevel })
  /-- Asking for imports changes nothing. -/
  unmoved (o : Options) (b : Bool) : sigs { o with includeImports := b } = sigs o

/-- A registered language fails on a source in the same way under every choice of options, if its
parser gives no tree; else it answers under all of them, and each option acts on the signatures on
its own. -/
theorem options_act_independently (r : Registry) (hr : r.Standard) (tag : String)
    (htag : tag ∈ r.languages) (source : String) :
    ∃ c, r.get? tag = some c ∧
      ((∃ reason, c.profile.parser.tree source = .error reason ∧
          ∀ o, r.extract source tag o = .error (.parseFailed tag reason)) ∨
        ∃ (root : Node) (sigs : Options → List Signature),
          c.profile.parser.tree source = .ok root ∧
          (∀ o, ∃ imports, r.extract source tag o = .ok ⟨tag, sigs o, imports⟩) ∧
          OptionsIndependent c.profile sigs) := by
  obtain ⟨c, hc⟩ : ∃ c, r.get? tag = some c := by
    obtain ⟨x, hx, rfl⟩ := List.mem_map.mp htag
    apply Option.isSome_iff_exists.mp
    exact List.lookup_isSome_iff.mpr ⟨x, hx, beq_self_eq_true _⟩
  have hp := modalVisibility_of_standard r hr tag c hc
  refine ⟨c, hc, ?_⟩
  cases htree : c.profile.parser.tree source with
  | error reason =>
    refine .inl ⟨reason, rfl, fun o => ?_⟩
    rw [Registry.extract, hc]
    simp only [Compiled.extract, htree]
  | ok root =>
    let s := Source.ofString source
    refine .inr ⟨root, fun o => (c.extractFrom tag s root o).signatures, rfl, ?_, ?_⟩
    · intro o
      refine ⟨(c.extractFrom tag s root o).imports, ?_⟩
      rw [Registry.extract, hc]
      simp only [Compiled.extract, htree]
      rfl
    · constructor
      · exact fun o => signaturesOf_public _ _ _ _ _ hp o
      · exact fun o => signaturesOf_stripped _ _ _ _ _ hp o
      · exact fun o v => signaturesOf_mode _ _ _ _ _ o v
      · exact fun o => signaturesOf_sublist _ _ _ _ _ hp o
      · exact fun o b => signaturesOf_imports _ _ _ _ _ hp o b

/-- A registry with the Go language and one with default hooks, both with a query for
functions. -/
theorem go_options_act_independently :
    let patterns : Grammar.Patterns := [[.mk "" "function_declaration" false ["signature", "kind"]
      [.mk "name" "identifier" false ["name"] []]]]
    let r : Registry := ⟨[("go", ⟨Profile.go Parsers.bundled.go, patterns.query, none⟩),
      ("plain", ⟨Profile.overGo "" none Profile.goKinds, patterns.query, none⟩)]⟩
    let source := "package p\n\nfunc F() \x7b\x7d\n\nfunc g() \x7b\x7d\n"
    r.Standard ∧ "go" ∈ r.languages ∧
      ∃ (c : Compiled) (sigs : Options → List Signature), r.get? "go" = some c ∧
        (∀ o, ∃ imports, r.extract source "go" o = .ok ⟨"go", sigs o, imports⟩) ∧
        OptionsIndependent c.profile sigs := by
  intro patterns r source
  have hr : r.Standard := by
    intro x hx
    rcases List.mem_cons.mp hx with rfl | hx
    · exact Or.inl ⟨.bundled, "go", by simp [Parsers.builtins]⟩
    · obtain rfl := List.mem_singleton.mp hx
      exact Or.inr ⟨rfl, rfl, rfl, rfl⟩
  have htag : "go" ∈ r.languages := List.mem_cons_self
  refine ⟨hr, htag, ?_⟩
  obtain ⟨c, hc, ⟨reason, hnone, _⟩ | ⟨root, sigs, _, hsigs, hindependent⟩⟩ :=
    options_act_independently r hr "go" htag source
  · -- the bundled parser gives a tree for every source
    cases hc
    cases hnone
  · exact ⟨c, sigs, hc, hsigs, hindependent⟩

end Synopsis
