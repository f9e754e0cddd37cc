import Mathlib.Tactic.SplitIfs
import Synopsis.Extract
import Synopsis.Language
import Synopsis.Parsers

/-! The languages of the registry against those of the table of extensions. Every language a file
can be in is a built-in one; it is known if all of these compile, and extraction in it succeeds if
their parsers give a tree for every source. -/
open Synopsis.Tree

namespace Synopsis

/-- What holds of each language over any parser holds of all built-in ones. -/
theorem builtin_cases (P : Parsers) (C : Profile → Prop) (hgo : ∀ parser, C (Profile.go parser))
    (hscript : ∀ parser, C (Profile.script parser)) (hpython : ∀ parser, C (Profile.python parser))
    (hc : ∀ parser, C (Profile.c parser)) (hcpp : ∀ parser, C (Profile.cpp parser))
    (hjava : ∀ parser, C (Profile.java parser)) (tag : String) (p : Profile)
    (hp : (tag, p) ∈ P.builtins) : C p := by
  simp only [Parsers.builtins, List.mem_cons, Prod.mk.injEq, List.not_mem_nil, or_false] at hp
  rcases hp with ⟨_, rfl⟩ | ⟨_, rfl⟩ | ⟨_, rfl⟩ | ⟨_, rfl⟩ | ⟨_, rfl⟩ | ⟨_, rfl⟩ | ⟨_, rfl⟩ |
    ⟨_, rfl⟩ | ⟨_, rfl⟩
  · exact hgo _
  · exact hscript _
  · exact hscript _
  · exact hscript _
  · exact hscript _
  · exact hpython _
  · exact hc _
  · exact hcpp _
  · exact hjava _

/-! ### Registering -/

namespace Registry

theorem lookup_cons_eq_ite (s t : String) (d : Compiled) (es : List (String × Compiled)) :
    ((t, d) :: es).lookup s = if s = t then some d else es.lookup s := by
  by_cases hs : s = t
  · rw [hs, List.lookup_cons_self, if_pos rfl]
  · rw [List.lookup_cons, beq_false_of_ne hs, if_neg hs]

/-- A language that was inserted is found, and the others are found as before. This needs no
order of the entries. -/
theorem lookup_insertEntry (tag s : String) (c : Compiled) (es : List (String × Compiled)) :
    (insertEntry tag c es).lookup s = if s = tag then some c else es.lookup s := by
  induction es with
  | nil => exact lookup_cons_eq_ite s tag c []
  | cons e es ih =>
    obtain ⟨t, d⟩ := e
    unfold insertEntry
    by_cases hbefore : tag < t
    · rw [if_pos hbefore]
      exact lookup_cons_eq_ite s tag c ((t, d) :: es)
    · by_cases hsame : tag = t
      · rw [if_neg hbefore, if_pos hsame, ← hsame, lookup_cons_eq_ite, lookup_cons_eq_ite]
        split_ifs <;> rfl
      · rw [if_neg hbefore, if_neg hsame, lookup_cons_eq_ite, lookup_cons_eq_ite, ih]
        split_ifs with ht htag
        · exact absurd (htag.symm.trans ht) hsame
        all_goals rfl

theorem get?_insert (r : Registry) (tag s : String) (c : Compiled) :
    (r.insert tag c).get? s = if s = tag then some c else r.get? s :=
  lookup_insertEntry tag s c r.entries

end Registry

/-! ### Compiling -/

/-- The grammar of a language fits, and its queries can be read. -/
structure Profile.Readable (p : Profile) : Prop where
  fits : p.parser.refusal = none
  queries : ∀ text ∈ p.query :: p.importQuery.toList, ∃ q, p.parser.readQuery text = .ok q

theorem Profile.readQuery_eq_ok (tag : String) (p : Profile) (role : QueryRole) (text : String)
    (q : Query) : p.readQuery tag role text = .ok q ↔ p.parser.readQuery text = .ok q := by
  unfold Profile.readQuery
  cases p.parser.readQuery text <;> simp [Except.mapError]

/-- What a language compiles to: itself with what its queries are read as. -/
theorem Profile.compile_eq_ok (p : Profile) (tag : String) (c : Compiled) :
    p.compile tag = .ok c ↔ p.parser.refusal = none ∧ c.profile = p ∧
      p.parser.readQuery p.query = .ok c.query ∧
      p.importQuery.mapM (p.readQuery tag .import_) = .ok c.importQuery := by
  obtain ⟨profile, query, importQuery⟩ := c
  unfold Profile.compile
  cases p.parser.refusal with
  | some reason => simp
  | none =>
    rw [← p.readQuery_eq_ok tag .signature]
    cases p.readQuery tag .signature p.query with
    | error e => simp [bind, Except.bind]
    | ok q =>
      cases p.importQuery.mapM (p.readQuery tag .import_) with
      | error e => simp [bind, Except.bind]
      | ok i => simp [bind, Except.bind, pure, Except.pure, eq_comm]

theorem Profile.compile_of_readable (p : Profile) (hp : p.Readable) (tag : String) :
    ∃ c, p.compile tag = .ok c := by
  obtain ⟨query, hquery⟩ := hp.queries p.query List.mem_cons_self
  obtain ⟨importQuery, himport⟩ :
      ∃ i, p.importQuery.mapM (p.readQuery tag .import_) = .ok i := by
    cases htext : p.importQuery with
    | none => exact ⟨none, rfl⟩
    | some text =>
      obtain ⟨q, hq⟩ := hp.queries text (by simp [htext])
      rw [← p.readQuery_eq_ok tag .import_] at hq
      exact ⟨some q, by simp [hq, Functor.map, Except.map]⟩
  exact ⟨⟨p, query, importQuery⟩, (p.compile_eq_ok tag _).mpr ⟨hp.fits, rfl, hquery, himport⟩⟩

/-- A language is readable exactly if it compiles. -/
theorem Profile.readable_iff_compile (p : Profile) (tag : String) :
    p.Readable ↔ ∃ c, p.compile tag = .ok c := by
  constructor
  · intro hp
    exact p.compile_of_readable hp tag
  · rintro ⟨c, hc⟩
    obtain ⟨hfits, _, hquery, himport⟩ := (p.compile_eq_ok tag c).mp hc
    refine ⟨hfits, fun text htext => ?_⟩
    rcases List.mem_cons.mp htext with rfl | htext
    · exact ⟨c.query, hquery⟩
    · obtain htext : p.importQuery = some text := by simpa using htext
      rw [htext] at himport
      cases hread : p.readQuery tag .import_ text with
      | error e => simp [hread, Functor.map, Except.map] at himport
      | ok q => exact ⟨q, (p.readQuery_eq_ok tag .import_ text q).mp hread⟩

namespace Registry

def Knows (r : Registry) (tag : String) : Prop := ∃ c, r.get? tag = some c

/-- Adding a language that can be read makes it known, and none is lost. -/
theorem knows_register (r : Registry) (tag : String) (p : Profile) (hp : p.Readable) (s : String)
    (h : s = tag ∨ r.Knows s) : (((r.register tag p).toOption).getD r).Knows s := by
  obtain ⟨c, hc⟩ := p.compile_of_readable hp tag
  have hadded : ((r.register tag p).toOption).getD r = r.insert tag c := by
    rw [register, hc]
    rfl
  rw [hadded, Knows, get?_insert]
  by_cases hs : s = tag
  · exact ⟨c, if_pos hs⟩
  · rw [if_neg hs]
    exact h.resolve_left hs

theorem knows_addAll (r : Registry) (ps : List (String × Profile))
    (hps : ∀ x ∈ ps, x.2.Readable) (s : String) (h : s ∈ ps.map (·.1) ∨ r.Knows s) :
    (r.addAll ps).Knows s := by
  induction ps generalizing r with
  | nil =>
    rcases h with hnil | hr
    · cases hnil
    · exact hr
  | cons x ps ih =>
    have hx := hps x List.mem_cons_self
    refine ih _ (fun y hy => hps y (List.mem_cons_of_mem x hy)) ?_
    rw [List.map_cons, List.mem_cons, or_assoc] at h
    rcases h with hs | hs | hr
    · exact .inr (knows_register r x.1 x.2 hx s (.inl hs))
    · exact .inl hs
    · exact .inr (knows_register r x.1 x.2 hx s (.inr hr))

/-- A registry knows only what was added to it. -/
theorem profile_addAll (r : Registry) (ps : List (String × Profile)) (tag : String) (c : Compiled)
    (h : (r.addAll ps).get? tag = some c) : (tag, c.profile) ∈ ps ∨ r.get? tag = some c := by
  induction ps generalizing r with
  | nil => exact .inr h
  | cons x ps ih =>
    obtain ⟨t, p⟩ := x
    rcases ih _ h with hlater | hfirst
    · exact .inl (List.mem_cons_of_mem _ hlater)
    -- known after the first language only: it is that one, or was known before
    · change (((((p.compile t).map (r.insert t)).toOption).getD r).get? tag) = some c at hfirst
      cases hcompile : p.compile t with
      | error e =>
        rw [hcompile] at hfirst
        exact .inr hfirst
      | ok d =>
        rw [hcompile] at hfirst
        change (r.insert t d).get? tag = some c at hfirst
        rw [get?_insert] at hfirst
        split_ifs at hfirst with ht
        · obtain rfl := Option.some.inj hfirst
          obtain ⟨_, hprofile, _⟩ := (p.compile_eq_ok t d).mp hcompile
          exact .inl (by simp [ht, hprofile])
        · exact .inr hfirst

end Registry

/-! ### The built-in languages -/

/-- An answer that passes a test, for tests that can be evaluated. -/
theorem exists_of_any {ε α : Type} (x : Except ε α) (test : α → Bool)
    (h : x.toOption.any test = true) : ∃ a, x = .ok a ∧ test a = true := by
  cases x with
  | error e => cases h
  | ok a => exact ⟨a, rfl, h⟩

/-- All built-in languages compile, and there is a tree for every source. -/
structure Parsers.Total (P : Parsers) : Prop where
  readable : ∀ x ∈ P.builtins, x.2.Readable
  tree : ∀ x ∈ P.builtins, ∀ source, ∃ root, x.2.parser.parse source = some root

/-- Every language of the table of extensions is a built-in one. -/
theorem extensions_builtin (P : Parsers) :
    ∀ tag ∈ Language.extensions.map (·.2), tag ∈ P.builtins.map (·.1) := by
  change ∀ tag ∈ Language.extensions.map (·.2), tag ∈
    ["go", "typescript", "javascript", "tsx", "jsx", "python", "c", "cpp", "java"]
  decide +kernel

/-- The language that a file has by its extension is known from the start. -/
theorem knows_registry (P : Parsers) (hP : P.Total) (path tag : String)
    (h : Language.ofPath? path = some tag) : P.registry.Knows tag := by
  obtain ⟨ext, _, hext⟩ := Option.bind_eq_some_iff.mp h
  obtain ⟨before, after, htable, _⟩ := List.lookup_eq_some_iff.mp hext
  have hmem : tag ∈ Language.extensions.map (·.2) := by simp [htable]
  exact Registry.knows_addAll Registry.empty P.builtins hP.readable tag
    (.inl (extensions_builtin P tag hmem))

/-- Nothing can go wrong in extracting from such a file. -/
theorem extract_registry (P : Parsers) (hP : P.Total) (path tag : String)
    (h : Language.ofPath? path = some tag) (source : String) (o : Options) :
    ∃ x, P.registry.extract source tag o = .ok x := by
  obtain ⟨c, hc⟩ := knows_registry P hP path tag h
  have hmem : (tag, c.profile) ∈ P.builtins := by
    rcases Registry.profile_addAll _ _ _ _ hc with hmem | hempty
    · exact hmem
    · cases hempty
  obtain ⟨root, hroot⟩ := hP.tree _ hmem source
  have htree : c.profile.parser.tree source = .ok root := by
    rw [Parser.tree, (hP.readable _ hmem).fits, hroot]
  refine ⟨c.extractFrom tag (.ofString source) root o, ?_⟩
  rw [Registry.extract, hc]
  simp only [Compiled.extract, htree]

end Synopsis
