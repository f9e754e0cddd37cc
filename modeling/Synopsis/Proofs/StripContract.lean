import Synopsis.Builtin
import Synopsis.Proofs.Cut
import Synopsis.Proofs.Registered

/-! What every built-in language leaves of a declaration: a trimmed beginning of its text. -/
namespace Synopsis.Profile
open Body Text

theorem stripBraced?_stripped (angles callable : Bool) (cs : List Char) :
    ∃ r, stripBraced? angles callable cs = some r ∧ Stripped (trim cs) r :=
  stripAt?_stripped _ cs fun i hi => boundary_of_brace? angles callable (trim cs) i hi

theorem stripArrow?_stripped (cs : List Char) :
    ∃ r, stripArrow? cs = some r ∧ Stripped (trim cs) r :=
  stripAt?_stripped _ cs fun i hi => boundary_of_arrow? (trim cs) i hi

theorem stripColon?_stripped (cs : List Char) :
    ∃ r, stripColon? cs = some r ∧ Stripped (trim cs) r :=
  stripAt?_stripped _ cs fun i hi => boundary_of_colon? (trim cs) i hi

theorem whole_stripped (cs : List Char) :
    ∃ r, some (trim cs) = some r ∧ Stripped (trim cs) r := ⟨trim cs, rfl, stripped_self cs⟩

/-- A language strips every text of every kind, to a trimmed beginning of it. -/
def StripsToBeginning (p : Profile) : Prop :=
  ∀ kind cs, ∃ r, p.stripBody kind cs = some r ∧ Stripped (trim cs) r

theorem go_strips (parser : Tree.Parser) : StripsToBeginning (go parser) := by
  intro kind cs
  change ∃ r, goStrip kind cs = some r ∧ _
  unfold goStrip
  split
  · exact stripBraced?_stripped false true cs
  · exact stripBraced?_stripped false true cs
  · exact whole_stripped cs

theorem script_strips (parser : Tree.Parser) : StripsToBeginning (script parser) := by
  intro kind cs
  change ∃ r, scriptStrip kind cs = some r ∧ _
  have hcallable : ∃ r, (if isBinding (trim cs) then stripArrow? cs
      else stripBraced? true true cs) = some r ∧ Stripped (trim cs) r := by
    split_ifs
    · exact stripArrow?_stripped cs
    · exact stripBraced?_stripped true true cs
  unfold scriptStrip
  split
  · exact hcallable
  · exact hcallable
  · exact hcallable
  · exact stripBraced?_stripped true false cs
  · exact stripArrow?_stripped cs
  · exact whole_stripped cs

theorem python_strips (parser : Tree.Parser) : StripsToBeginning (python parser) := by
  intro kind cs
  change ∃ r, pythonStrip kind cs = some r ∧ _
  unfold pythonStrip
  split
  · exact stripColon?_stripped cs
  · exact stripColon?_stripped cs
  · exact stripColon?_stripped cs
  · exact whole_stripped cs

theorem c_strips (parser : Tree.Parser) : StripsToBeginning (c parser) := by
  intro kind cs
  change ∃ r, cStrip kind cs = some r ∧ _
  unfold cStrip
  split
  · exact stripBraced?_stripped false true cs
  · exact whole_stripped cs

theorem cpp_strips (parser : Tree.Parser) : StripsToBeginning (cpp parser) := by
  intro kind cs
  change ∃ r, cppStrip kind cs = some r ∧ _
  unfold cppStrip
  split
  case h_9 => exact whole_stripped cs
  all_goals exact stripBraced?_stripped true _ cs

theorem java_strips (parser : Tree.Parser) : StripsToBeginning (java parser) := by
  intro kind cs
  change ∃ r, javaStrip kind cs = some r ∧ _
  -- a method is trimmed before its last character is looked at
  have hmethod : ∃ r, (if (trim cs).getLast? == some ';' then some (trim cs)
      else stripBraced? true true (trim cs)) = some r ∧ Stripped (trim cs) r := by
    split_ifs
    · exact whole_stripped cs
    · have h := stripBraced?_stripped true true (trim cs)
      rwa [trim_trim] at h
  unfold javaStrip
  split
  case h_1 => exact hmethod
  case h_2 => exact hmethod
  case h_8 => exact whole_stripped cs
  all_goals exact stripBraced?_stripped true false cs

theorem builtin_strips (P : Parsers) (tag : String) (p : Profile) (hp : (tag, p) ∈ P.builtins) :
    StripsToBeginning p :=
  builtin_cases P StripsToBeginning go_strips script_strips python_strips c_strips cpp_strips
    java_strips tag p hp

/-- A built-in language never cuts inside a character, whatever the kind and the text, and
leaves a trimmed beginning of the trimmed text, which is empty only if that is. -/
theorem builtin_strip_contract (P : Parsers) (tag : String) (p : Profile)
    (hp : (tag, p) ∈ P.builtins) (kind : Kind) (text : String) :
    ∃ r, p.stripBody kind text.toList = some r ∧ p.strip kind text = String.ofList r ∧
      r <+: trim text.toList ∧ trim r = r ∧ (r = [] → trim text.toList = []) := by
  obtain ⟨r, hr, h⟩ := builtin_strips P tag p hp kind text.toList
  exact ⟨r, hr, by rw [strip, hr, Option.getD_some], h.isPrefix, h.trimmed, h.nonempty⟩

/-- A binding whose default holds an arrow after an escaped letter of two bytes. -/
theorem tsx_strip_contract :
    let text := "  const f = (s = '\\é=>') => 1 "
    let p := script Parsers.bundled.tsx
    ("tsx", p) ∈ Parsers.bundled.builtins ∧
      ∃ r, p.stripBody .function text.toList = some r ∧
        p.strip .function text = String.ofList r ∧
        r <+: trim text.toList ∧ trim r = r ∧ (r = [] → trim text.toList = []) := by
  intro text p
  have hmem : ("tsx", p) ∈ Parsers.bundled.builtins := by simp [p, Parsers.builtins]
  exact ⟨hmem, builtin_strip_contract .bundled "tsx" p hmem .function text⟩

end Synopsis.Profile
