import Mathlib
import Synopsis.Package

/-! Which names of formats are accepted. Validation folds more characters than the writers do, so
it takes one name that no writer answers to: `markdown` with the Kelvin sign for its `k`. -/
namespace Synopsis

/-- The name that only validation takes for `markdown`, in lower case. -/
def kelvinName : String := "mar\u212Adown"

namespace Config

theorem foldCase_toLower (c : Char) : foldCase c.toLower = foldCase c := by
  by_cases hupper : c.isUpper = true
  · -- an upper-case letter is not the Kelvin sign, nor does it become one
    have hne : c ≠ '\u212A' := by
      rintro rfl
      exact absurd hupper (by decide)
    have hlower : c.toLower.isLower = true := by
      rw [Char.isLower_toLower_eq_isAlpha, Char.isAlpha, hupper, Bool.true_or]
    have hne' : c.toLower ≠ '\u212A' := by
      intro h
      rw [h] at hlower
      exact absurd hlower (by decide)
    rw [foldCase, foldCase, if_neg hne, if_neg hne', Char.toLower_toLower_eq_toLower]
  · rw [Char.toLower_eq_of_not_isUpper hupper]

/-- The case of ASCII letters does not matter to validation. -/
theorem map_foldCase_asciiLower (f : String) :
    (Text.asciiLower f).map foldCase = f.map foldCase := by
  have hfold : foldCase ∘ Char.toLower = foldCase := funext foldCase_toLower
  rw [Text.asciiLower, String.map_map, hfold]

/-- A lower-case character is folded to itself, and the Kelvin sign to `k`. -/
theorem foldCase_cases (c : Char) (hc : c.toLower = c) :
    foldCase c = c ∨ (c = '\u212A' ∧ foldCase c = 'k') := by
  by_cases h : c = '\u212A'
  · exact .inr ⟨h, by rw [h]; rfl⟩
  · exact .inl (by rw [foldCase, if_neg h, hc])

/-- Lower-case characters that are folded to others than `k` are these. -/
theorem eq_of_map_foldCase (cs ds : List Char) (hcs : ∀ c ∈ cs, c.toLower = c) (hk : 'k' ∉ ds)
    (h : cs.map foldCase = ds) : cs = ds := by
  have hself : ∀ c ∈ cs, foldCase c = c := by
    intro c hc
    rcases foldCase_cases c (hcs c hc) with hsame | ⟨-, hkelvin⟩
    · exact hsame
    · have hmem : foldCase c ∈ ds := h ▸ List.mem_map_of_mem hc
      rw [hkelvin] at hmem
      exact absurd hmem hk
  calc
    cs = cs.map foldCase := (List.map_congr_left hself).trans (List.map_id' cs) |>.symm
    _ = ds := h

/-- Of the lower-case names that are folded to `markdown` one has the Kelvin sign. -/
theorem markdown_of_map_foldCase (cs : List Char) (hcs : ∀ c ∈ cs, c.toLower = c)
    (h : cs.map foldCase = "markdown".toList) :
    cs = "markdown".toList ∨ cs = kelvinName.toList := by
  obtain ⟨as, bs, rfl, has, hbs⟩ := List.map_eq_append_iff.mp
    (show cs.map foldCase = "mar".toList ++ 'k' :: "down".toList from h)
  obtain ⟨d, es, rfl, hd, hes⟩ := List.map_eq_cons_iff.mp hbs
  have hbefore := eq_of_map_foldCase as _ (fun c hc => hcs c (by simp [hc])) (by decide) has
  have hbehind := eq_of_map_foldCase es _ (fun c hc => hcs c (by simp [hc])) (by decide) hes
  rw [hbefore, hbehind]
  rcases foldCase_cases d (hcs d (by simp)) with hsame | ⟨hkelvin, -⟩
  · left
    rw [← hsame, hd]
    rfl
  · right
    rw [hkelvin]
    rfl

theorem map_foldCase_mem_formats (f : String) :
    f.map foldCase ∈ formats ↔
      Text.asciiLower f ∈ formats ∨ Text.asciiLower f = kelvinName := by
  have hlower : ∀ c ∈ (Text.asciiLower f).toList, c.toLower = c := by
    intro c hc
    obtain ⟨d, -, rfl⟩ := List.mem_map.mp (String.toList_map ▸ hc)
    exact Char.toLower_toLower_eq_toLower d
  rw [← map_foldCase_asciiLower]
  generalize Text.asciiLower f = g at hlower ⊢
  have hmap (name : String) : g.map foldCase = name ↔ g.toList.map foldCase = name.toList := by
    rw [← String.toList_inj, String.toList_map]
  -- of these characters only k and the Kelvin sign are folded together
  have hplain (name : String) (hk : 'k' ∉ name.toList) (h : g.map foldCase = name) : g = name :=
    String.toList_inj.mp (eq_of_map_foldCase _ _ hlower hk ((hmap name).mp h))
  constructor
  · intro h
    obtain h | h | h | h : g.map foldCase = "xml" ∨ g.map foldCase = "md" ∨
        g.map foldCase = "markdown" ∨ g.map foldCase = "json" := by simpa [formats] using h
    · exact .inl (hplain "xml" (by decide) h ▸ by decide)
    · exact .inl (hplain "md" (by decide) h ▸ by decide)
    · rcases markdown_of_map_foldCase _ hlower ((hmap _).mp h) with h | h
      · exact .inl (String.toList_inj.mp h ▸ by decide)
      · exact .inr (String.toList_inj.mp h)
    · exact .inl (hplain "json" (by decide) h ▸ by decide)
  · rintro (h | rfl)
    · have hself : ∀ name ∈ formats, name.toList.map foldCase = name.toList := by decide
      rw [(hmap g).mpr (hself g h)]
      exact h
    · rw [(hmap "markdown").mpr rfl]
      decide

/-- Validation looks at the format and then at the limit. -/
theorem validate_eq_ok (c : Config) :
    c.validate = .ok () ↔ c.output.format.map foldCase ∈ formats ∧ c.scan.maxFileSize ≠ 0 := by
  unfold validate
  by_cases hformat : c.output.format.map foldCase ∈ formats
  · by_cases hsize : c.scan.maxFileSize = 0
    · simp [hformat, hsize]
    · simp [hformat, hsize]
  · simp [hformat]

end Config

namespace OutputFormat

theorem isSome_ofLowerName? (g : String) :
    (ofLowerName? g).isSome = true ↔ g ∈ Config.formats := by
  unfold ofLowerName? Config.formats
  split
  all_goals simp_all

/-- A writer answers to a name exactly if it is on the list, but for the case of ASCII letters. -/
theorem ofName_eq_ok (f : String) :
    (∃ g, ofName f = .ok g) ↔ Text.asciiLower f ∈ Config.formats := by
  rw [← isSome_ofLowerName?, ofName]
  cases ofLowerName? (Text.asciiLower f) with
  | none => simp
  | some g => simp

end OutputFormat

/-- Packing fails on the format exactly if no writer answers to its name. -/
theorem package_format_error (t : FileTree) (r : Registry) (c : Config) (root : String)
    (encoding? : Option (String → Nat)) :
    (∃ e, t.package r c root encoding? = .error (.format e)) ↔
      ¬ ∃ g, OutputFormat.ofName c.output.format = .ok g := by
  unfold FileTree.package
  cases hformat : OutputFormat.ofName c.output.format with
  | error e => simp [Except.mapError, bind, Except.bind]
  | ok g =>
    cases hscan : t.scan root c.scan with
    | error e => simp [Except.mapError, bind, Except.bind]
    | ok scanned => simp [Except.mapError, bind, Except.bind, pure, Except.pure]

/-- Validation accepts what a writer answers to and one name more, on which packing then fails:
this is the only way in which a configuration that was accepted can have a format that is
refused. -/
theorem validated_formats (f : String) (t : FileTree) (r : Registry) (c : Config) (root : String)
    (encoding? : Option (String → Nat)) :
    (({ output := { format := f } } : Config).validate = .ok () ↔
      (∃ g, OutputFormat.ofName f = .ok g) ∨ Text.asciiLower f = kelvinName) ∧
    (c.validate = .ok () ∧ (∃ e, t.package r c root encoding? = .error (.format e)) ↔
      Text.asciiLower c.output.format = kelvinName ∧ c.scan.maxFileSize ≠ 0) := by
  have hkelvin : kelvinName ∉ Config.formats := by decide
  constructor
  · rw [Config.validate_eq_ok, Config.map_foldCase_mem_formats, OutputFormat.ofName_eq_ok]
    simp
  · rw [package_format_error, Config.validate_eq_ok, Config.map_foldCase_mem_formats,
      OutputFormat.ofName_eq_ok]
    constructor
    · rintro ⟨⟨hname | hname, hsize⟩, hrefused⟩
      · exact absurd hname hrefused
      · exact ⟨hname, hsize⟩
    · rintro ⟨hname, hsize⟩
      exact ⟨⟨.inr hname, hsize⟩, hname ▸ hkelvin⟩

/-- Validation accepts the name with the Kelvin sign, and no writer answers to it. -/
theorem kelvin_name_only_validated :
    ({ output := { format := "mar\u212Adown" } } : Config).validate = .ok () ∧
      ¬ ∃ g, OutputFormat.ofName "mar\u212Adown" = .ok g := by
  have hlower : Text.asciiLower "mar\u212Adown" = kelvinName := by
    rw [← String.toList_inj, Text.asciiLower, String.toList_map]
    rfl
  rw [Config.validate_eq_ok, Config.map_foldCase_mem_formats, OutputFormat.ofName_eq_ok, hlower]
  exact ⟨⟨.inr rfl, by decide⟩, by decide⟩

end Synopsis
